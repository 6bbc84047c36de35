import PiggyOS.Kheap.Break

/-!
# Heap growth and page tables

When the heap grows into a region of 4 MB without a page table, the table comes from the heap
itself: from the free list, or from another call of `ksbrk`.

* `HeapOk` — what every call of the heap keeps, whatever its arguments (`HeapOk.step`)
* `GrowthOk` — as long as the free list is empty, so that a table always takes the way over
  `ksbrk`, the regions of the heap also keep their page tables (`GrowthOk.step`)
* `HeapStep.cases` — a call of the heap changes the bounds and the address space by at most one
  call of `ksbrk`
-/

namespace PiggyOS

open Infra

/-! ## Tables stay -/

/-- The kernel's directory has all the tables it had. -/
structure TablesKept (v v' : Vmm) : Prop where
  dir : v'.kernelPageDir = v.kernelPageDir
  refs : ∀ i, (v.dirs v.kernelPageDir).refTables i ≠ 0 →
    (v'.dirs v'.kernelPageDir).refTables i ≠ 0

namespace TablesKept

variable {v v' v'' : Vmm}

theorem of_dirs (hdirs : v'.dirs = v.dirs) (hdir : v'.kernelPageDir = v.kernelPageDir) :
    TablesKept v v' := by
  refine ⟨hdir, fun i hi => ?_⟩
  rw [hdirs, hdir]
  exact hi

theorem refl (v : Vmm) : TablesKept v v := of_dirs rfl rfl

theorem trans (h : TablesKept v v') (h' : TablesKept v' v'') : TablesKept v v'' :=
  ⟨h'.dir.trans h.dir, fun i hi => h'.refs i (h.refs i hi)⟩

theorem tableOf (h : TablesKept v v') {a : U32} (ha : v.tableOf v.kernelPageDir a ≠ 0) :
    v'.tableOf v'.kernelPageDir a ≠ 0 := h.refs _ ha

theorem installTable {table : U32} (hne : table ≠ 0) (idx : Fin 1024) (isKernel isWritable : Bool) :
    TablesKept v (v.installTable v.kernelPageDir idx table isKernel isWritable) := by
  refine ⟨rfl, fun i hi => ?_⟩
  rw [Vmm.kernelPageDir_installTable, Vmm.refTables_installTable]
  by_cases he : i = idx
  · rw [he, Function.update_self]
    exact hne
  · rw [Function.update_of_ne he]
    exact hi

theorem fillEntry (v : Vmm) (table : U32) (idx : Fin 1024) (frame : U32)
    (isKernel isWritable : Bool) :
    TablesKept v (v.fillEntry table idx frame isKernel isWritable) :=
  of_dirs (Vmm.dirs_fillEntry _ _ _ _ _ _) (Vmm.kernelPageDir_fillEntry _ _ _ _ _ _)

end TablesKept

/-- The kernel's directory has tables for the heap below `e`. -/
def TablesTo (v : Vmm) (e : Nat) : Prop :=
  ∀ a : U32, 0xC0400000 ≤ a.toNat → a.toNat < e → v.tableOf v.kernelPageDir a ≠ 0

namespace TablesTo

variable {v v' : Vmm} {e : Nat}

theorem kept (h : TablesTo v e) (hkept : TablesKept v v') : TablesTo v' e :=
  fun a hlo hhi => hkept.tableOf (h a hlo hhi)

theorem mono {e' : Nat} (h : TablesTo v e) (hle : e' ≤ e) : TablesTo v e' :=
  fun a hlo hhi => h a hlo (by omega)

/-- One more page. -/
theorem next {i : U32} (h : TablesTo v i.toNat) (hal : i.toNat % 4096 = 0)
    (hi : v.tableOf v.kernelPageDir i ≠ 0) : TablesTo v (i.toNat + 4096) := by
  intro a hlo hhi
  by_cases hlt : a.toNat < i.toNat
  · exact h a hlo hlt
  · -- page boundaries are finer than region boundaries: `a` is in the region of `i`
    rw [v.tableOf_congr v.kernelPageDir (show a.toNat / 2 ^ 22 = i.toNat / 2 ^ 22 by omega)]
    exact hi

end TablesTo

/-! ## A table from the heap -/

theorem Heap.freelist_setFree (h : Heap) (n : U32) (x : Bool) :
    (h.setFree n x).freelist = h.freelist := by
  unfold setFree
  split <;> rfl

theorem Heap.freelist_mallocTail (h : Heap) (ret size : U32) :
    (h.mallocTail ret size).1.freelist = h.freelist := by
  unfold mallocTail
  refine (Heap.freelist_setFree _ _ _).trans ?_
  show (if _ then _ else _ : Heap).freelist = h.freelist
  split <;> rfl

/-- The page table in a block at `ret`: the next page boundary behind the pointer that `malloc`
returns. -/
def tableIn (ret : U32) : U32 := align (ret + 48)

theorem tableIn_ne_zero_of_lt {ret : U32} (h : ret.toNat + 0x2000 ≤ 2 ^ 32) : tableIn ret ≠ 0 := by
  intro hc
  have h48 : (ret + 48).toNat = ret.toNat + 48 :=
    BitVec.toNat_add_of_lt (by simp; omega)
  have htable : (tableIn ret).toNat = _ := toNat_align (by rw [h48]; omega)
  rw [hc, show (0 : U32).toNat = 0 from rfl] at htable
  omega

theorem tableIn_ne_zero {ret : U32} (h : ret.toNat ≤ 0xD0000000) : tableIn ret ≠ 0 :=
  tableIn_ne_zero_of_lt (by omega)

namespace Kernel

/-- What every call of the heap keeps. -/
structure HeapOk (k : Kernel) : Prop where
  limits : k.heap.Limits
  enabled : k.heap.kheapEnabled = true
  dir : k.vmm.kernelPageDir ≠ 0

/-- The invariant of a heap with nothing on its free list. -/
structure GrowthOk (k : Kernel) : Prop extends HeapOk k where
  empty : k.heap.freelist = 0
  tables : TablesTo k.vmm k.heap.heapEnd.toNat

variable {k k' : Kernel}

/-- What `malloc` makes of a new block at `ret`. -/
def withTail (k : Kernel) (ret size : U32) : Kernel :=
  { k with heap := (k.heap.mallocTail ret size).1 }

theorem bounds_withTail (k : Kernel) (ret size : U32) :
    (k.withTail ret size).heap.bounds = k.heap.bounds := Heap.bounds_mallocTail _ _ _

theorem HeapOk.of_bounds (h : HeapOk k) (hbounds : k'.heap.bounds = k.heap.bounds)
    (hdir : k'.vmm.kernelPageDir = k.vmm.kernelPageDir) : HeapOk k' := by
  obtain ⟨hb1, hb2, -, hb4, hb5⟩ := Heap.bounds_eq_iff.mp hbounds
  obtain ⟨⟨hstart, hmax, hmin, hend, hal⟩, henabled, hne⟩ := h
  rw [← hb2] at hmin hend hal
  rw [← hdir] at hne
  exact ⟨⟨hb1.trans hstart, hb4.trans hmax, hmin, hend, hal⟩, hb5.trans henabled, hne⟩

theorem GrowthOk.of_bounds (h : GrowthOk k) (hbounds : k'.heap.bounds = k.heap.bounds)
    (hempty : k'.heap.freelist = 0) (hvmm : k'.vmm = k.vmm) : GrowthOk k' := by
  refine ⟨h.toHeapOk.of_bounds hbounds (by rw [hvmm]), hempty, ?_⟩
  rw [hvmm, (Heap.bounds_eq_iff.mp hbounds).2.1]
  exact h.tables

theorem GrowthOk.withTail (h : GrowthOk k) (ret size : U32) : GrowthOk (k.withTail ret size) :=
  h.of_bounds (bounds_withTail _ _ _) ((Heap.freelist_mallocTail _ _ _).trans h.empty) rfl

/-- With an empty free list a page table takes the way over `ksbrk`. -/
theorem GrowthOk.kmallocAWith_eq (h : GrowthOk k)
    (sbrk : Kernel → U32 → Option (Kernel × U32)) :
    k.kmallocAWith sbrk sizeofPageTable =
      (sbrk k 8208).map fun s => (s.1.withTail s.2 8208, tableIn s.2) := by
  have hround : roundedSize (sizeofPageTable + 4096) = 8192 := by decide
  have hblock : blockSize (sizeofPageTable + 4096) = 8208 := by decide
  unfold kmallocAWith kmallocIntWith mallocWith
  rw [if_pos h.limits.heapStart_ne_zero, if_pos rfl, if_neg (by decide), hround, hblock,
    Heap.bestfit_of_empty h.empty, Option.bind_some, if_neg (by decide)]
  cases sbrk k 8208 with
  | none => rfl
  | some s => rfl

/-! ## Mapping a page -/

/-- What `allocate_page` makes of a new block at `ret` for a page table. -/
def withTable (k : Kernel) (dir va ret : U32) (isWritable : Bool) : Kernel where
  vmm := (k.vmm.installTable dir (pagedirIndex va) (tableIn ret) true isWritable).fillEntry
    (tableIn ret) (pagetblIndex va) 0 true isWritable
  heap := (k.withTail ret 8208).heap

section

variable {sbrk : Kernel → U32 → Option (Kernel × U32)} {i : U32} {isWritable : Bool}

theorem HeapOk.allocatePage_of_table (h : HeapOk k) {kmallocA : TableSource}
    (ht : k.vmm.tableOf k.vmm.kernelPageDir i ≠ 0) :
    k.allocatePage kmallocA k.vmm.kernelPageDir i 0 true isWritable =
      some { k with
        vmm := k.vmm.fillEntry (k.vmm.tableOf k.vmm.kernelPageDir i) (pagetblIndex i) 0 true
          isWritable } := by
  unfold allocatePage
  rw [if_neg h.dir, if_neg ht]

theorem GrowthOk.allocatePage_of_missing (h : GrowthOk k)
    (ht : k.vmm.tableOf k.vmm.kernelPageDir i = 0) :
    k.allocatePage (fun k sz => k.kmallocAWith sbrk sz) k.vmm.kernelPageDir i 0 true isWritable =
      (sbrk k 8208).map fun s => s.1.withTable k.vmm.kernelPageDir i s.2 isWritable := by
  unfold allocatePage
  rw [if_neg h.dir, if_pos ht, newTable_of_enabled h.enabled, h.kmallocAWith_eq, Option.map_map]
  congr 1

theorem tablesKept_withTable (k : Kernel) (isWritable : Bool) {ret : U32}
    (hret : ret.toNat ≤ 0xD0000000) :
    TablesKept k.vmm (k.withTable k.vmm.kernelPageDir i ret isWritable).vmm := by
  have hinst := TablesKept.installTable (v := k.vmm) (tableIn_ne_zero hret) (pagedirIndex i) true
    isWritable
  unfold withTable
  dsimp only
  exact hinst.trans (.fillEntry _ _ _ _ _ _)

theorem tableOf_withTable (k : Kernel) (ret : U32) :
    (k.withTable k.vmm.kernelPageDir i ret isWritable).vmm.tableOf
      (k.withTable k.vmm.kernelPageDir i ret isWritable).vmm.kernelPageDir i = tableIn ret := by
  unfold withTable
  dsimp only
  rw [Vmm.tableOf_fillEntry, Vmm.kernelPageDir_fillEntry, Vmm.kernelPageDir_installTable,
    Vmm.tableOf_installTable_self]

theorem refTables_withTable (k : Kernel) (isWritable : Bool) (ret : U32) :
    ((k.withTable k.vmm.kernelPageDir i ret isWritable).vmm.dirs
      (k.withTable k.vmm.kernelPageDir i ret isWritable).vmm.kernelPageDir).refTables =
      Function.update (k.vmm.dirs k.vmm.kernelPageDir).refTables (pagedirIndex i)
        (tableIn ret) := by
  unfold withTable
  dsimp only
  rw [Vmm.dirs_fillEntry, Vmm.kernelPageDir_fillEntry, Vmm.kernelPageDir_installTable,
    Vmm.refTables_installTable]

theorem bounds_withTable (k : Kernel) (dir va ret : U32) (isWritable : Bool) :
    (k.withTable dir va ret isWritable).heap.bounds = k.heap.bounds := bounds_withTail k ret 8208

theorem GrowthOk.of_tablesKept {v : Vmm} (h : GrowthOk k) (hkept : TablesKept k.vmm v) :
    GrowthOk { k with vmm := v } :=
  ⟨h.toHeapOk.of_bounds rfl hkept.dir, h.empty, h.tables.kept hkept⟩

theorem GrowthOk.withTable (h : GrowthOk k) {ret : U32} (hret : ret.toNat ≤ 0xD0000000) :
    GrowthOk (k.withTable k.vmm.kernelPageDir i ret isWritable) := by
  have hkept := tablesKept_withTable (i := i) k isWritable hret
  have hbounds := bounds_withTable k k.vmm.kernelPageDir i ret isWritable
  refine ⟨h.toHeapOk.of_bounds hbounds hkept.dir, (h.withTail ret 8208).empty, ?_⟩
  rw [(Heap.bounds_eq_iff.mp hbounds).2.1]
  exact h.tables.kept hkept

/-- What mapping a page leaves behind, when its table is there or `ksbrk` gives room for one. -/
theorem GrowthOk.allocatePage (h : GrowthOk k) (hcurr : k.heap.heapCurr.toNat ≤ 0xD0000000)
    (hsbrk : ∀ k₁ r, sbrk k 8208 = some (k₁, r) → GrowthOk k₁ ∧ TablesKept k.vmm k₁.vmm ∧
      k₁.heap.heapCurr.toNat ≤ 0xD0000000 ∧ r.toNat ≤ 0xD0000000)
    (hk : k.allocatePage (fun k sz => k.kmallocAWith sbrk sz) k.vmm.kernelPageDir i 0 true
      isWritable = some k') :
    GrowthOk k' ∧ TablesKept k.vmm k'.vmm ∧ k'.heap.heapCurr.toNat ≤ 0xD0000000 ∧
      k'.vmm.tableOf k'.vmm.kernelPageDir i ≠ 0 := by
  by_cases ht : k.vmm.tableOf k.vmm.kernelPageDir i = 0
  · rw [h.allocatePage_of_missing ht] at hk
    obtain ⟨⟨k₁, ret⟩, hs, rfl⟩ := Option.map_eq_some_iff.mp hk
    obtain ⟨hok, hkept, hcurr₁, hret⟩ := hsbrk k₁ ret hs
    dsimp only
    rw [← hkept.dir]
    refine ⟨hok.withTable hret, hkept.trans (tablesKept_withTable k₁ _ hret), ?_, ?_⟩
    · have hb := Heap.bounds_eq_iff.mp (bounds_withTail k₁ ret 8208)
      exact (congrArg BitVec.toNat hb.2.2.1).trans_le hcurr₁
    · rw [tableOf_withTable]
      exact tableIn_ne_zero hret
  · rw [h.allocatePage_of_table ht] at hk
    cases hk
    have hkept := TablesKept.fillEntry k.vmm (k.vmm.tableOf k.vmm.kernelPageDir i) (pagetblIndex i)
      0 true isWritable
    exact ⟨h.of_tablesKept hkept, hkept, hcurr, hkept.tableOf ht⟩

end

/-! ## Every call of `ksbrk` -/

/-- Mapping a page keeps the heap in order, if a nested call does. -/
theorem HeapOk.allocatePage (h : HeapOk k) {sbrk : Kernel → U32 → Option (Kernel × U32)}
    (hsbrk : ∀ k₁ r, sbrk k 8208 = some (k₁, r) → HeapOk k₁) {dir va frame : U32}
    {isKernel isWritable : Bool}
    (hk : k.allocatePage (fun k sz => k.kmallocAWith sbrk sz) dir va frame isKernel isWritable
      = some k') : HeapOk k' := by
  rcases allocatePage_cases hk with ⟨-, rfl⟩ | ⟨-, -, rfl⟩ | ⟨-, -, k₁, table, hnew, rfl⟩
  · exact h
  · exact h.of_bounds rfl (Vmm.kernelPageDir_fillEntry _ _ _ _ _ _)
  · have h₁ : HeapOk k₁ := by
      rw [newTable_of_enabled h.enabled] at hnew
      -- the table is carved from a free block, or from a new one at the break
      rcases kmallocAWith_cases h.limits.heapStart_ne_zero hnew with ⟨best, -, -, rfl, -⟩ |
        ⟨-, k₂, ret, hs, rfl, -⟩
      · exact h.of_bounds (Heap.bounds_mallocBest _ _ _) rfl
      · exact (hsbrk k₂ ret hs).of_bounds (Heap.bounds_mallocTail _ _ _) rfl
    refine h₁.of_bounds rfl ?_
    exact (Vmm.kernelPageDir_fillEntry _ _ _ _ _ _).trans rfl

/-- **Every call of `ksbrk` that comes back keeps the heap in order.** The induction is on the
bound of the nested calls: page tables come from calls of the bound below, and so do restarts. -/
theorem HeapOk.ksbrk (n : Nat) {k k' : Kernel} {size r : U32} (h : HeapOk k)
    (hk : Kernel.ksbrk n k size = some (k', r)) : HeapOk k' := by
  induction n generalizing k k' size r with
  | zero => simp [Kernel.ksbrk] at hk
  | succ n ih =>
    obtain ⟨hstart, hmax, hmin, hend, hal⟩ := h.limits
    rw [Kernel.ksbrk] at hk
    rcases ksbrkWith_cases hk with ⟨-, rfl, -⟩ | ⟨-, -, -, rfl⟩ | ⟨-, -, -, rfl, -⟩ |
      ⟨hpos, hlt, hle, k₁, runner, hpages, hcase⟩ | ⟨-, hshrink⟩
    · exact h
    · exact ⟨⟨hstart, hmax, hmin, hend, hal⟩, h.enabled, h.dir⟩
    · exact h
    · obtain ⟨-, hnbmax⟩ := h.limits.toNat_newBoundary hpos hlt hle
      obtain ⟨h₁, hral, hrge, -, hrange⟩ := allocatePages_invariant (fun k₁ _ => HeapOk k₁) h hal
        (by omega) (fun k₂ k₃ i _ _ _ h₂ hk₂ =>
          h₂.allocatePage (fun k₄ r hs => ih h₂ hs) hk₂) hpages
      rcases hcase with ⟨-, hrestart⟩ | ⟨-, -, rfl⟩
      · exact ih h₁ hrestart
      · have hlt := BitVec.lt_def.mp hlt
        refine ⟨⟨h₁.limits.start, h₁.limits.max, ?_, ?_, hral⟩, h₁.enabled, h₁.dir⟩
        · dsimp only
          omega
        · dsimp only
          rcases hrange with rfl | hrlt
          · exact hend
          · omega
    · obtain ⟨v, e, hs, hdir, heal, hemin, hele, -⟩ := ksbrkShrink_spec size h.limits
        (fun v _ => v.kernelPageDir ≠ 0) h.dir (fun v i _ _ _ hv => by simpa using hv)
      rw [hs] at hshrink
      cases hshrink
      exact ⟨⟨hstart, hmax, hemin, Nat.le_trans hele hend, heal⟩, h.enabled, hdir⟩

/-- A page loop of `ksbrk` that has come to `i`. -/
structure Growing (k₀ k : Kernel) (i : U32) : Prop where
  ok : GrowthOk k
  kept : TablesKept k₀.vmm k.vmm
  curr_le : k.heap.heapCurr.toNat ≤ 0xD0000000
  tables : TablesTo k.vmm i.toNat

theorem Growing.step {k₀ k k' : Kernel} {i : U32}
    {sbrk : Kernel → U32 → Option (Kernel × U32)} {isWritable : Bool} (h : Growing k₀ k i)
    (hal : i.toNat % 4096 = 0) (hi : i.toNat + 4096 < 2 ^ 32)
    (hsbrk : ∀ k₁ r, sbrk k 8208 = some (k₁, r) → GrowthOk k₁ ∧ TablesKept k.vmm k₁.vmm ∧
      k₁.heap.heapCurr.toNat ≤ 0xD0000000 ∧ r.toNat ≤ 0xD0000000)
    (hk : k.allocatePage (fun k sz => k.kmallocAWith sbrk sz) k.vmm.kernelPageDir i 0 true
      isWritable = some k') : Growing k₀ k' (i + pageSize) := by
  obtain ⟨hok, hkept, hcurr, htable⟩ := h.ok.allocatePage h.curr_le hsbrk hk
  refine ⟨hok, h.kept.trans hkept, hcurr, ?_⟩
  rw [toNat_add_pageSize hi]
  exact (h.tables.kept hkept).next hal htable

/--
**Every call of `ksbrk` that comes back keeps the invariant**, whatever the size, and the tables
that are there. A call for a page table also leaves the break where a table can be made.
-/
theorem GrowthOk.ksbrk (n : Nat) {k k' : Kernel} {size r : U32} (h : GrowthOk k)
    (hk : Kernel.ksbrk n k size = some (k', r)) :
    GrowthOk k' ∧ TablesKept k.vmm k'.vmm ∧
      (size = 8208 → k.heap.heapCurr.toNat ≤ 0xD0000000 →
        k'.heap.heapCurr.toNat ≤ 0xD0000000 ∧ r.toNat ≤ 0xD0000000) := by
  induction n generalizing k k' size r with
  | zero => simp [Kernel.ksbrk] at hk
  | succ n ih =>
    have hok' : HeapOk k' := h.toHeapOk.ksbrk (n + 1) hk
    rw [Kernel.ksbrk] at hk
    rcases ksbrkWith_cases hk with ⟨hs, rfl, rfl⟩ | ⟨-, hle, rfl, rfl⟩ | ⟨-, -, -, rfl, rfl⟩ |
      ⟨hpos, hlt, hle, k₁, runner, hpages, hcase⟩ | ⟨hneg, hshrink⟩
    · exact ⟨h, .refl _, fun hc => absurd (hc.symm.trans hs) (by decide)⟩
    · refine ⟨⟨hok', h.empty, h.tables⟩, .refl _, fun _ hcurr => ⟨?_, hcurr⟩⟩
      exact Nat.le_trans (BitVec.le_def.mp hle) h.limits.end_le
    · exact ⟨h, .refl _, fun _ hcurr => ⟨hcurr, Nat.zero_le _⟩⟩
    · obtain ⟨hnb, hnbmax⟩ := h.limits.toNat_newBoundary hpos hlt hle
      have hcurr : k.heap.heapCurr.toNat ≤ 0xD0000000 := by omega
      obtain ⟨hg, -⟩ := allocatePages_invariant (Growing k) ⟨h, .refl _, hcurr, h.tables⟩
        h.limits.aligned (by omega) (fun k₂ k₃ i hial _ hilt hg hk₂ =>
          hg.step hial (by omega) (fun k₄ r hs => by
            obtain ⟨hok, hkept, hrest⟩ := ih hg.ok hs
            exact ⟨hok, hkept, hrest rfl hg.curr_le⟩) hk₂) hpages
      rcases hcase with ⟨-, hrestart⟩ | ⟨-, rfl, rfl⟩
      · obtain ⟨hok, hkept, hrest⟩ := ih hg.ok hrestart
        exact ⟨hok, hg.kept.trans hkept, fun hs _ => hrest hs hg.curr_le⟩
      · refine ⟨⟨hok', hg.ok.empty, hg.tables⟩, hg.kept, fun _ _ => ⟨?_, hcurr⟩⟩
        dsimp only
        omega
    · obtain ⟨v, e, hs, hkept, -, -, hele, -⟩ := ksbrkShrink_spec size h.limits
        (fun v _ => TablesKept k.vmm v) (.refl _) (fun v i _ _ _ hv =>
          hv.trans (.of_dirs (Vmm.dirs_freePage _ _ _ _) (Vmm.kernelPageDir_freePage _ _ _ _)))
      rw [hs] at hshrink
      cases hshrink
      refine ⟨⟨hok', h.empty, (h.tables.kept hkept).mono hele⟩, hkept, fun hc => ?_⟩
      rw [hc] at hneg
      exact absurd hneg (by decide)

/-! ## Every call of the heap -/

inductive HeapCall
  | malloc (size : U32)
  | free (ptr : U32)
  | realloc (ptr size : U32)
  | sbrk (size : U32)
  deriving DecidableEq, Repr

/-- A call of the heap that came back. -/
inductive HeapStep : Kernel → HeapCall → Kernel → Prop
  | malloc {k k' : Kernel} {n : Nat} {size : U32} {r : Handed} :
      k.malloc n size = some (k', r) → HeapStep k (.malloc size) k'
  | free {k : Kernel} {ptr : U32} : HeapStep k (.free ptr) (k.free ptr)
  | realloc {k k' : Kernel} {n : Nat} {ptr size : U32} {r : Handed} :
      k.realloc n ptr size = some (k', r) → HeapStep k (.realloc ptr size) k'
  | sbrk {k k' : Kernel} {n : Nat} {size r : U32} :
      ksbrk n k size = some (k', r) → HeapStep k (.sbrk size) k'

/-- A call that leaves the free list empty. -/
def QuietStep (k : Kernel) (op : HeapCall) (k' : Kernel) : Prop :=
  HeapStep k op k' ∧ k'.heap.freelist = 0

theorem malloc_cases {n : Nat} {size : U32} {r : Handed} (hk : k.malloc n size = some (k', r)) :
    ∃ k₁, (k₁ = k ∨ ∃ size r, ksbrk n k size = some (k₁, r)) ∧
      k'.heap.bounds = k₁.heap.bounds ∧ k'.vmm = k₁.vmm := by
  rcases mallocWith_cases hk with ⟨-, rfl, -⟩ | ⟨-, best, -, -, rfl, -⟩ |
    ⟨-, -, k₁, ret, hs, rfl, -⟩
  · exact ⟨_, Or.inl rfl, rfl, rfl⟩
  · exact ⟨k, Or.inl rfl, Heap.bounds_mallocBest _ _ _, rfl⟩
  · exact ⟨k₁, Or.inr ⟨_, ret, hs⟩, Heap.bounds_mallocTail _ _ _, rfl⟩

theorem realloc_cases {n : Nat} {ptr size : U32} {r : Handed}
    (hk : k.realloc n ptr size = some (k', r)) :
    ∃ k₁, (k₁ = k ∨ ∃ size r, ksbrk n k size = some (k₁, r)) ∧
      k'.heap.bounds = k₁.heap.bounds ∧ k'.vmm = k₁.vmm := by
  unfold realloc reallocWith at hk
  split at hk
  · exact malloc_cases hk
  · split at hk
    · cases hk
      exact ⟨k, Or.inl rfl, Heap.bounds_free _ _, rfl⟩
    · dsimp only at hk
      split at hk
      · cases hk
        exact ⟨_, Or.inl rfl, rfl, rfl⟩
      · split at hk
        · split at hk
          · cases hk
            exact ⟨k, Or.inl rfl, Heap.bounds_reallocNext _ _ _, rfl⟩
          · split at hk
            · cases hk
              exact ⟨k, Or.inl rfl, Heap.bounds_reallocPrev _ _ _ _, rfl⟩
            · -- the block moves: `malloc`, copy, `free`
              obtain ⟨⟨k₁, r₁⟩, hm, he⟩ := Option.map_eq_some_iff.mp hk
              cases he
              obtain ⟨k₂, hk₂, hbounds, hvmm⟩ := malloc_cases hm
              exact ⟨k₂, hk₂, (Heap.bounds_free _ _).trans hbounds, hvmm⟩
        · cases hk
          exact ⟨k, Or.inl rfl, Heap.bounds_reallocShrink _ _ _, rfl⟩

/-- **What a call of the heap can have done** to the bounds and the address space: what one call
of `ksbrk` does to them, if anything. -/
theorem HeapStep.cases {op : HeapCall} (h : HeapStep k op k') :
    ∃ k₁, (k₁ = k ∨ ∃ n size r, ksbrk n k size = some (k₁, r)) ∧
      k'.heap.bounds = k₁.heap.bounds ∧ k'.vmm = k₁.vmm := by
  cases h with
  | malloc hk =>
    obtain ⟨k₁, hk₁, hrest⟩ := malloc_cases hk
    exact ⟨k₁, hk₁.imp_right fun hk => ⟨_, hk⟩, hrest⟩
  | free => exact ⟨k, Or.inl rfl, Heap.bounds_free _ _, rfl⟩
  | realloc hk =>
    obtain ⟨k₁, hk₁, hrest⟩ := realloc_cases hk
    exact ⟨k₁, hk₁.imp_right fun hk => ⟨_, hk⟩, hrest⟩
  | sbrk hk => exact ⟨k', Or.inr ⟨_, _, _, hk⟩, rfl, rfl⟩

theorem HeapOk.step (h : HeapOk k) {op : HeapCall} (hs : HeapStep k op k') : HeapOk k' := by
  obtain ⟨k₁, rfl | ⟨n, size, r, hk⟩, hbounds, hvmm⟩ := hs.cases
  · exact h.of_bounds hbounds (by rw [hvmm])
  · exact (h.ksbrk n hk).of_bounds hbounds (by rw [hvmm])

theorem GrowthOk.step (h : GrowthOk k) {op : HeapCall} (hs : QuietStep k op k') : GrowthOk k' := by
  obtain ⟨hs, hempty⟩ := hs
  obtain ⟨k₁, rfl | ⟨n, size, r, hk⟩, hbounds, hvmm⟩ := hs.cases
  · exact h.of_bounds hbounds hempty hvmm
  · exact (GrowthOk.ksbrk n h hk).1.of_bounds hbounds hempty hvmm

end Kernel

end PiggyOS
