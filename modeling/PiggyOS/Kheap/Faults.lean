import PiggyOS.Kheap.Fresh

/-!
# Heap growth in paged memory

Once paging is on, an access to a page that is not mapped ends in `page_fault` and `kpanic`: the
call does not come back. A growing call accesses the new blocks of `malloc`, whose last word is
`4 * blockSize - 16` bytes behind the first one, and page tables. The globals, the directory and
the bitmap of the memory manager are in the first 4 MB of the kernel, which stay mapped.

* `ksbrkPaged` — `ksbrk` when these accesses can fault
* `GrowthOk.ksbrk_of_paged` — a call that comes back has done what it does in flat memory
* `HeapOk.exists_ksbrkPaged_of_tables` — a call that finds all its page tables does not fault
-/

namespace PiggyOS

open Infra

namespace Vmm

/-- All of the `n` bytes at `a` are in pages that the directory in use maps. -/
def Reaches (v : Vmm) (a : U32) (n : Nat) : Prop :=
  ∀ j < n, v.lookup v.currentPageDir (a + BitVec.ofNat 32 j) ≠ none

instance (v : Vmm) (a : U32) (n : Nat) : Decidable (v.Reaches a n) :=
  inferInstanceAs (Decidable (∀ j < n, v.lookup v.currentPageDir (a + BitVec.ofNat 32 j) ≠ none))

/-- The entry of `va` in its page table, if there is one, can be read and written. -/
def EntryReached (v : Vmm) (dir va : U32) : Prop :=
  v.tableOf dir va ≠ 0 →
    v.Reaches (wordsAfter (v.tableOf dir va) (BitVec.ofNat 32 (pagetblIndex va).val)) 4

instance (v : Vmm) (dir va : U32) : Decidable (v.EntryReached dir va) :=
  inferInstanceAs (Decidable (v.tableOf dir va ≠ 0 → v.Reaches _ 4))

variable {v : Vmm} {a dir va : U32} {n : Nat}

/-- Mapping a page hides no other one. -/
theorem lookup_fillEntry_ne_none (h : v.lookup dir va ≠ none) (table frame : U32)
    (idx : Fin 1024) (isKernel isWritable : Bool) :
    (v.fillEntry table idx frame isKernel isWritable).lookup dir va ≠ none := by
  unfold lookup at h
  split at h
  · next hc =>
    have hkeep := v.tabs_fillEntry_of_present table frame idx isKernel isWritable
      (t := v.tableOf dir va) (i := pagetblIndex va) (by simp_all [entry])
    unfold lookup
    rw [tableOf_fillEntry, dirs_fillEntry, entry, hkeep]
    exact (if_pos hc).trans_ne (Option.some_ne_none _)
  · exact absurd rfl h

theorem Reaches.fillEntry (h : v.Reaches a n) (table frame : U32) (idx : Fin 1024)
    (isKernel isWritable : Bool) :
    (v.fillEntry table idx frame isKernel isWritable).Reaches a n := by
  intro j hj
  rw [currentPageDir_fillEntry]
  exact lookup_fillEntry_ne_none (h j hj) _ _ _ _ _

theorem EntryReached.fillEntry (h : v.EntryReached dir va) (table frame : U32) (idx : Fin 1024)
    (isKernel isWritable : Bool) :
    (v.fillEntry table idx frame isKernel isWritable).EntryReached dir va := by
  unfold EntryReached
  rw [tableOf_fillEntry]
  exact fun ht => (h ht).fillEntry _ _ _ _ _

end Vmm

namespace Kernel

/-! ## The functions with their faults -/

/-- `malloc`. What it does with something on the free list is left to `fromList`. -/
def mallocPaged (fromList : Kernel → U32 → Option (Kernel × Handed))
    (ksbrk : Kernel → U32 → Option (Kernel × U32)) (k : Kernel) (size : U32) :
    Option (Kernel × Handed) :=
  if size = 0 then some (k, .null)
  else if k.heap.freelist ≠ 0 then fromList k size
  else
    (ksbrk k (blockSize size)).bind fun (k, ret) =>
      if k.vmm.Reaches ret 4 ∧
          k.vmm.Reaches (wordsBefore (wordsAfter ret (blockSize size)) 4) 4 then
        let (h, r) := k.heap.mallocTail ret (blockSize size)
        some ({ k with heap := h }, r)
      else none

/-- `kmalloc_a`. Before there is a heap it touches no memory. -/
def kmallocAPaged (malloc : Kernel → U32 → Option (Kernel × Handed)) : TableSource := fun k sz =>
  if k.heap.heapStart ≠ 0 then
    (malloc k (sz + 4096)).map fun (k, r) => (k, (r.ptr &&& 0xFFFFF000) + 0x1000)
  else k.kmallocAWith (fun _ _ => none) sz

/-- `allocate_page`. A new table is cleared, and then looked up in the kernel's directory. -/
def allocatePagePaged (kmallocA : TableSource) (k : Kernel) (dir va frame : U32)
    (isKernel isWritable : Bool) : Option Kernel :=
  if dir = 0 then some k
  else if k.vmm.tableOf dir va = 0 then
    (k.newTable kmallocA).bind fun (k, table) =>
      if k.vmm.Reaches table 4096 ∧ k.vmm.EntryReached k.vmm.kernelPageDir table then
        let v := k.vmm.installTable dir (pagedirIndex va) table isKernel isWritable
        some { k with vmm := v.fillEntry table (pagetblIndex va) frame isKernel isWritable }
      else none
  else if k.vmm.EntryReached dir va then
    some { k with
      vmm := k.vmm.fillEntry (k.vmm.tableOf dir va) (pagetblIndex va) frame isKernel isWritable }
  else none

/-- The page loop of `ksbrk`. -/
def allocatePagesPaged (kmallocA : TableSource) (k : Kernel) (bound start : U32) :
    Option (Kernel × U32) :=
  loop (fun s : Kernel × U32 => s.2 < bound)
    (fun s => (s.1.allocatePagePaged kmallocA s.1.vmm.kernelPageDir s.2 0 true true).map
      (·, s.2 + pageSize))
    (pageCount + 1) (k, start)

/-- `ksbrk`. Calls by which the heap does not grow take no page table and are as before. -/
def ksbrkPaged (fromList : Kernel → U32 → Option (Kernel × Handed)) :
    Nat → Kernel → U32 → Option (Kernel × U32)
  | 0, _, _ => none
  | n + 1, k, size =>
    if size.toInt > 0 then
      let newBoundary := k.heap.heapCurr + size
      if newBoundary ≤ k.heap.heapEnd then
        some ({ k with heap := { k.heap with heapCurr := newBoundary } }, k.heap.heapCurr)
      else if newBoundary > k.heap.heapMax then some (k, 0)
      else
        (k.allocatePagesPaged (kmallocAPaged (mallocPaged fromList (ksbrkPaged fromList n)))
          newBoundary k.heap.heapEnd).bind fun (k', runner) =>
          if k.heap.heapCurr ≠ k'.heap.heapCurr then ksbrkPaged fromList n k' size
          else
            some ({ k' with heap := { k'.heap with heapEnd := runner, heapCurr := newBoundary } },
              k.heap.heapCurr)
    else ksbrk (n + 1) k size

variable {fromList : Kernel → U32 → Option (Kernel × Handed)} {k k' : Kernel} {i : U32}

theorem ksbrkPaged_move {n : Nat} {size : U32} (hpos : 0 < size.toInt)
    (hle : k.heap.heapCurr + size ≤ k.heap.heapEnd) :
    ksbrkPaged fromList (n + 1) k size =
      some ({ k with heap := { k.heap with heapCurr := k.heap.heapCurr + size } },
        k.heap.heapCurr) := by
  rw [ksbrkPaged, if_pos hpos]
  exact if_pos hle

theorem ksbrkPaged_fail {n : Nat} {size : U32} (hpos : 0 < size.toInt)
    (hlt : k.heap.heapEnd < k.heap.heapCurr + size)
    (hfail : k.heap.heapMax < k.heap.heapCurr + size) :
    ksbrkPaged fromList (n + 1) k size = some (k, 0) := by
  rw [ksbrkPaged, if_pos hpos]
  dsimp only
  rw [if_neg (BitVec.not_le.mpr hlt), if_pos hfail]

theorem ksbrkPaged_grow {n : Nat} {size : U32} (hpos : 0 < size.toInt)
    (hlt : k.heap.heapEnd < k.heap.heapCurr + size)
    (hle : k.heap.heapCurr + size ≤ k.heap.heapMax) :
    ksbrkPaged fromList (n + 1) k size =
      (k.allocatePagesPaged (kmallocAPaged (mallocPaged fromList (ksbrkPaged fromList n)))
        (k.heap.heapCurr + size) k.heap.heapEnd).bind fun s =>
        if k.heap.heapCurr ≠ s.1.heap.heapCurr then ksbrkPaged fromList n s.1 size
        else some ({ s.1 with
          heap := { s.1.heap with heapEnd := s.2, heapCurr := k.heap.heapCurr + size } },
          k.heap.heapCurr) := by
  rw [ksbrkPaged, if_pos hpos]
  dsimp only
  rw [if_neg (BitVec.not_le.mpr hlt), if_neg (BitVec.not_lt.mpr hle)]

theorem allocatePagesPaged_total (kmallocA : TableSource) (bound : U32) {start : U32}
    (P : Kernel → U32 → Prop) (h0 : P k start) (hstart : start.toNat % 4096 = 0)
    (hbound : bound.toNat ≤ 0xFFFFF000)
    (hpage : ∀ (k₁ : Kernel) (i : U32), i.toNat % 4096 = 0 → start.toNat ≤ i.toNat →
      i.toNat < bound.toNat → P k₁ i → ∃ k₂,
      k₁.allocatePagePaged kmallocA k₁.vmm.kernelPageDir i 0 true true = some k₂ ∧
      P k₂ (i + pageSize)) :
    ∃ k' runner, k.allocatePagesPaged kmallocA bound start = some (k', runner) ∧
      P k' runner ∧ runner.toNat % 4096 = 0 ∧ bound.toNat ≤ runner.toNat ∧
      start.toNat ≤ runner.toNat ∧ (runner = start ∨ runner.toNat < bound.toNat + 4096) :=
  pageLoop_total P h0 (fun _ => decide_eq_true_iff) hstart hbound hpage

/-! ## Mapping a page -/

/-- The block at `ret` and the page table in it are reached, as far as they are accessed. -/
structure TableReached (k : Kernel) (ret : U32) : Prop where
  first : k.vmm.Reaches ret 4
  last : k.vmm.Reaches (ret + 32816) 4
  table : k.vmm.Reaches (tableIn ret) 4096
  entry : k.vmm.EntryReached k.vmm.kernelPageDir (tableIn ret)

theorem HeapOk.allocatePagePaged_of_table (h : HeapOk k) {kmallocA : TableSource}
    (ht : k.vmm.tableOf k.vmm.kernelPageDir i ≠ 0)
    (hreached : k.vmm.EntryReached k.vmm.kernelPageDir i) :
    k.allocatePagePaged kmallocA k.vmm.kernelPageDir i 0 true true =
      k.allocatePage kmallocA k.vmm.kernelPageDir i 0 true true := by
  rw [h.allocatePage_of_table ht, allocatePagePaged, if_neg h.dir, if_neg ht, if_pos hreached]

/-- With an empty free list a page table comes from the break. -/
theorem GrowthOk.kmallocAPaged_eq (h : GrowthOk k)
    (sbrk : Kernel → U32 → Option (Kernel × U32)) :
    kmallocAPaged (mallocPaged fromList sbrk) k sizeofPageTable =
      (sbrk k 8208).bind fun s =>
        if s.1.vmm.Reaches s.2 4 ∧ s.1.vmm.Reaches (s.2 + 32816) 4 then
          some (s.1.withTail s.2 8208, tableIn s.2)
        else none := by
  have hblock : blockSize (sizeofPageTable + 4096) = 8208 := by decide
  have hlast : ∀ ret : U32, wordsBefore (wordsAfter ret 8208) 4 = ret + 32816 := fun ret => by
    unfold wordsBefore wordsAfter
    bv_omega
  rw [kmallocAPaged, if_pos h.limits.heapStart_ne_zero, mallocPaged, if_neg (by decide),
    if_neg (not_not.mpr h.empty), hblock]
  cases sbrk k 8208 with
  | none => rfl
  | some s =>
    simp only [Option.bind_some, hlast]
    split
    · rfl
    · rfl

variable (fromList) in
/-- The page table is made if what is accessed on the way is reached. -/
theorem GrowthOk.allocatePagePaged_of_missing (h : GrowthOk k)
    {sbrk : Kernel → U32 → Option (Kernel × U32)}
    (ht : k.vmm.tableOf k.vmm.kernelPageDir i = 0) :
    k.allocatePagePaged (kmallocAPaged (mallocPaged fromList sbrk)) k.vmm.kernelPageDir i 0 true
        true = some k' ↔
      ∃ k₁ ret, sbrk k 8208 = some (k₁, ret) ∧ TableReached k₁ ret ∧
        k' = k₁.withTable k.vmm.kernelPageDir i ret true := by
  have hvmm : ∀ (k₁ : Kernel) ret, (k₁.withTail ret 8208).vmm = k₁.vmm := fun _ _ => rfl
  rw [allocatePagePaged, if_neg h.dir, if_pos ht, newTable_of_enabled h.enabled, h.kmallocAPaged_eq]
  constructor
  · intro hk
    obtain ⟨⟨k₂, table⟩, hnew, hk⟩ := Option.bind_eq_some_iff.mp hk
    obtain ⟨⟨k₁, ret⟩, hs, hnew⟩ := Option.bind_eq_some_iff.mp hnew
    dsimp only at hnew hk
    split at hnew
    · next hstores =>
      cases hnew
      rw [hvmm] at hk
      split at hk
      · next htable =>
        exact ⟨k₁, ret, hs, ⟨hstores.1, hstores.2, htable.1, htable.2⟩, (Option.some.inj hk).symm⟩
      · cases hk
    · cases hnew
  · rintro ⟨k₁, ret, hs, hreached, rfl⟩
    have hstores := And.intro hreached.first hreached.last
    have htable := And.intro hreached.table hreached.entry
    refine Option.bind_eq_some_iff.mpr ⟨(k₁.withTail ret 8208, tableIn ret),
      Option.bind_eq_some_iff.mpr ⟨_, hs, if_pos hstores⟩, ?_⟩
    dsimp only
    rw [hvmm, if_pos htable]
    rfl

/-- A page that is mapped without a fault is mapped as in flat memory. -/
theorem GrowthOk.allocatePage_of_paged (h : GrowthOk k)
    {sbrk sbrk' : Kernel → U32 → Option (Kernel × U32)}
    (hsbrk : ∀ s, sbrk k 8208 = some s → sbrk' k 8208 = some s)
    (hk : k.allocatePagePaged (kmallocAPaged (mallocPaged fromList sbrk)) k.vmm.kernelPageDir i 0
      true true = some k') :
    k.allocatePage (fun k sz => k.kmallocAWith sbrk' sz) k.vmm.kernelPageDir i 0 true true =
      some k' := by
  by_cases ht : k.vmm.tableOf k.vmm.kernelPageDir i = 0
  · obtain ⟨k₁, ret, hs, -, rfl⟩ := (h.allocatePagePaged_of_missing fromList ht).mp hk
    rw [h.allocatePage_of_missing ht, hsbrk _ hs]
    rfl
  · by_cases hreached : k.vmm.EntryReached k.vmm.kernelPageDir i
    · rw [h.toHeapOk.allocatePagePaged_of_table ht hreached,
        h.toHeapOk.allocatePage_of_table ht] at hk
      rw [h.toHeapOk.allocatePage_of_table ht, hk]
    · rw [allocatePagePaged, if_neg h.dir, if_neg ht, if_neg hreached] at hk
      cases hk

/-! ## Paged and flat memory -/

theorem Growing.step_ksbrk {k₀ : Kernel} {n : Nat} (h : Growing k₀ k i)
    (hal : i.toNat % 4096 = 0) (hi : i.toNat + 4096 < 2 ^ 32)
    (hk : k.allocatePage (fun k sz => k.kmallocAWith (Kernel.ksbrk n) sz) k.vmm.kernelPageDir i 0
      true true = some k') : Growing k₀ k' (i + pageSize) :=
  h.step hal hi (fun k₁ r hs => by
    obtain ⟨hok, hkept, hrest⟩ := GrowthOk.ksbrk n h.ok hs
    exact ⟨hok, hkept, hrest rfl h.curr_le⟩) hk

/-- **A call that comes back has done what it does in flat memory.** The induction is on the
bound, for the nested calls and the restarts. -/
theorem GrowthOk.ksbrk_of_paged (n : Nat) {k : Kernel} {size : U32} {s : Kernel × U32}
    (h : GrowthOk k) (hpos : 0 < size.toInt) (hk : ksbrkPaged fromList n k size = some s) :
    Kernel.ksbrk n k size = some s := by
  induction n generalizing k size s with
  | zero => simp [ksbrkPaged] at hk
  | succ n ih =>
    by_cases hle : k.heap.heapCurr + size ≤ k.heap.heapEnd
    · rw [ksbrkPaged_move hpos hle] at hk
      rw [ksbrk_move hpos hle, hk]
    · have hlt := BitVec.not_le.mp hle
      by_cases hfail : k.heap.heapMax < k.heap.heapCurr + size
      · rw [ksbrkPaged_fail hpos hlt hfail] at hk
        rw [ksbrk_fail hpos hlt hfail, hk]
      · have hroom := BitVec.not_lt.mp hfail
        obtain ⟨hnb, hmax⟩ := h.limits.toNat_newBoundary hpos hlt hroom
        rw [ksbrkPaged_grow hpos hlt hroom] at hk
        obtain ⟨⟨k₁, runner⟩, hpages, hk⟩ := Option.bind_eq_some_iff.mp hk
        have hstart : Growing k k k.heap.heapEnd := ⟨h, .refl _, by omega, h.tables⟩
        have hflat : k.allocatePages (fun k sz => k.kmallocAWith (Kernel.ksbrk n) sz) true
            (k.heap.heapCurr + size) k.heap.heapEnd = some (k₁, runner) := by
          refine loop_of_body (fun s => Growing k s.1 s.2 ∧ s.2.toNat % 4096 = 0) _ ?_ _ _ _
            ⟨hstart, h.limits.aligned⟩ hpages
          rintro ⟨k₂, j⟩ s' ⟨hg, hal⟩ hc hb
          obtain ⟨k₃, hk₃, rfl⟩ := Option.map_eq_some_iff.mp hb
          dsimp only at hg hal hk₃ ⊢
          have hj : j.toNat < _ := BitVec.lt_def.mp (of_decide_eq_true hc)
          have hk₃' := hg.ok.allocatePage_of_paged (fun s hs => ih hg.ok (by decide) hs) hk₃
          refine ⟨by rw [hk₃']; rfl, hg.step_ksbrk hal (by omega) hk₃', ?_⟩
          rw [toNat_add_pageSize (by omega)]
          omega
        obtain ⟨hg, -⟩ := allocatePages_invariant (Growing k) hstart h.limits.aligned
          (by omega) (fun k₂ k₃ j hal _ hlt hg hk₃ => hg.step_ksbrk hal (by omega) hk₃) hflat
        rw [ksbrk_grow hpos hlt hroom, hflat, Option.bind_some]
        dsimp only at hk ⊢
        split at hk
        · next hmoved =>
          rw [if_pos hmoved]
          exact ih hg.ok hpos hk
        · next hmoved => rw [if_neg hmoved, hk]

/-- The page tables for the pages from `lo` to `hi` are there, and can be accessed. -/
def TablesReached (v : Vmm) (lo hi : Nat) : Prop :=
  ∀ a : U32, lo ≤ a.toNat → a.toNat < hi →
    v.tableOf v.kernelPageDir a ≠ 0 ∧ v.EntryReached v.kernelPageDir a

theorem TablesReached.fillEntry {v : Vmm} {lo hi : Nat} (h : TablesReached v lo hi)
    (table frame : U32) (idx : Fin 1024) (isKernel isWritable : Bool) :
    TablesReached (v.fillEntry table idx frame isKernel isWritable) lo hi := by
  intro a hlo hhi
  obtain ⟨ht, hreached⟩ := h a hlo hhi
  rw [Vmm.kernelPageDir_fillEntry, Vmm.tableOf_fillEntry]
  exact ⟨ht, hreached.fillEntry _ _ _ _ _⟩

variable (fromList) in
/-- A call that finds its page tables does not fault. -/
theorem HeapOk.exists_ksbrkPaged_of_tables (h : HeapOk k) (n : Nat) {size : U32}
    (hpos : 0 < size.toInt) (hlt : k.heap.heapEnd < k.heap.heapCurr + size)
    (hle : k.heap.heapCurr + size ≤ k.heap.heapMax)
    (htables : TablesReached k.vmm k.heap.heapEnd.toNat (k.heap.heapCurr + size).toNat) :
    ∃ s, ksbrkPaged fromList (n + 1) k size = some s := by
  obtain ⟨-, hmax⟩ := h.limits.toNat_newBoundary hpos hlt hle
  let P : Kernel → U32 → Prop := fun k₁ _ => k₁.heap = k.heap ∧
    k₁.vmm.kernelPageDir = k.vmm.kernelPageDir ∧
    TablesReached k₁.vmm k.heap.heapEnd.toNat (k.heap.heapCurr + size).toNat
  obtain ⟨k₁, runner, hpages, ⟨hheap, -⟩, -⟩ := allocatePagesPaged_total
    (kmallocAPaged (mallocPaged fromList (ksbrkPaged fromList n))) (k.heap.heapCurr + size) P
    ⟨rfl, rfl, htables⟩ h.limits.aligned (by omega) fun k₁ i _ hlo hhi hP => by
      obtain ⟨hheap, hdir, hreached⟩ := hP
      have h₁ : HeapOk k₁ := h.of_bounds (by rw [hheap]) hdir
      obtain ⟨ht, hentry⟩ := hreached i hlo hhi
      refine ⟨_, (h₁.allocatePagePaged_of_table ht hentry).trans (h₁.allocatePage_of_table ht),
        hheap, (Vmm.kernelPageDir_fillEntry ..).trans hdir, hreached.fillEntry _ _ _ _ _⟩
  rw [ksbrkPaged_grow hpos hlt hle, hpages, Option.bind_some]
  exact ⟨_, if_neg (not_not.mpr (congrArg Heap.heapCurr hheap.symm))⟩

end Kernel

end PiggyOS
