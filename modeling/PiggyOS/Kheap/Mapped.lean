import PiggyOS.Kheap.Break
import PiggyOS.Vmm.Boot

/-!
# The pages of the heap

`ksbrk` moves the end of the heap up in one loop, mapping pages, and down in another, freeing
them. Whatever the sizes, signs and order of the calls, the pages from the start of the heap
to its end stay mapped.

How page tables are made is left open here: a `TableSource` that hands out fresh tables and
leaves the break alone (`FreshTables`).

* `HeapMapped` — the invariant
* `HeapMapped.ksbrkOver` — every call keeps it
* `heap_pages_mapped` — it holds in every state after `vmm_init` and `kheap_init`
-/

namespace PiggyOS

open Infra

namespace Kernel

/-- `ksbrk`, with page tables from the given source. The bound counts restarts. -/
def ksbrkOver (kmallocA : TableSource) : Nat → Kernel → U32 → Option (Kernel × U32)
  | 0, _, _ => none
  | n + 1, k, size => ksbrkWith kmallocA (ksbrkOver kmallocA n) k size

/-- Every table handed out is a page the directory does not use yet; the address spaces and
the break are left alone. -/
def FreshTables (kmallocA : TableSource) : Prop :=
  ∀ k k' table, kmallocA k sizeofPageTable = some (k', table) →
    k'.vmm = k.vmm ∧ k'.heap.bounds = k.heap.bounds ∧ table ≠ 0 ∧
      ∀ i, (k.vmm.dirs k.vmm.kernelPageDir).refTables i ≠ table

/-- The pages from the start of the heap up to `e` are mapped in the kernel's directory. -/
structure MappedTo (v : Vmm) (e : U32) : Prop where
  dir : v.kernelPageDir ≠ 0
  distinct : v.TablesDistinct v.kernelPageDir
  mapped : ∀ va : U32, kheapStart.toNat ≤ va.toNat → va.toNat < e.toNat →
    v.Mapped v.kernelPageDir va

/-- The invariant: the end of the heap is where it should be and the pages below it are mapped. -/
structure HeapMapped (k : Kernel) : Prop where
  limits : k.heap.Limits
  enabled : k.heap.kheapEnabled = true
  mapped : MappedTo k.vmm k.heap.heapEnd

/-- One call of `ksbrk`. -/
def SbrkOver (kmallocA : TableSource) (k : Kernel) (size : U32) (k' : Kernel) : Prop :=
  ∃ n r, ksbrkOver kmallocA n k size = some (k', r)

variable {kmallocA : TableSource} {k k' : Kernel}

/-! ## Growing -/

/-- An address below the next page boundary is below this one or on its page. -/
theorem below_or_same_page {i va : U32} (hal : i.toNat % 4096 = 0) (hi : i.toNat + 4096 < 2 ^ 32)
    (hva : va.toNat < (i + pageSize).toNat) : va.toNat < i.toNat ∨
      va.toNat / 4096 = i.toNat / 4096 := by
  rw [toNat_add_pageSize hi] at hva
  omega

theorem MappedTo.fillEntry {v : Vmm} {i : U32} (h : MappedTo v i) (hal : i.toNat % 4096 = 0)
    (hi : i.toNat + 4096 < 2 ^ 32) (ht : v.tableOf v.kernelPageDir i ≠ 0)
    (frame : U32) (isKernel isWritable : Bool) :
    MappedTo (v.fillEntry (v.tableOf v.kernelPageDir i) (pagetblIndex i) frame isKernel isWritable)
      (i + pageSize) := by
  refine ⟨by simpa using h.dir, ?_, fun va hlo hhi => ?_⟩
  · rw [Vmm.kernelPageDir_fillEntry]
    exact h.distinct.of_dirs (Vmm.dirs_fillEntry _ _ _ _ _ _)
  · rw [Vmm.kernelPageDir_fillEntry]
    rcases below_or_same_page hal hi hhi with hlt | hpage
    · exact (h.mapped va hlo hlt).fillEntry _ _ _ _ _
    · exact (Vmm.mapped_fillEntry _ _ _ ht).of_page hpage

theorem MappedTo.installTable {v : Vmm} {i e table : U32} (h : MappedTo v e)
    (ht : v.tableOf v.kernelPageDir i = 0)
    (hfresh : ∀ j, (v.dirs v.kernelPageDir).refTables j ≠ table) (isKernel isWritable : Bool) :
    MappedTo (v.installTable v.kernelPageDir (pagedirIndex i) table isKernel isWritable) e :=
  ⟨h.dir, h.distinct.installTable _ _ _ hfresh,
    fun va hlo hhi => (h.mapped va hlo hhi).installTable _ _ ht hfresh⟩

/-- Mapping the next page. -/
theorem MappedTo.allocatePage (hsource : FreshTables kmallocA) {i : U32} {isWritable : Bool}
    (hal : i.toNat % 4096 = 0) (hi : i.toNat + 4096 < 2 ^ 32) (h : MappedTo k.vmm i)
    (henabled : k.heap.kheapEnabled = true)
    (hk : k.allocatePage kmallocA k.vmm.kernelPageDir i 0 true isWritable = some k') :
    MappedTo k'.vmm (i + pageSize) ∧ k'.heap.bounds = k.heap.bounds := by
  rcases allocatePage_cases hk with ⟨hdir, -⟩ | ⟨-, ht, rfl⟩ | ⟨-, ht, k₁, table, hnew, rfl⟩
  · exact absurd hdir h.dir
  · exact ⟨h.fillEntry hal hi ht 0 true isWritable, rfl⟩
  · -- the region gets a table first
    rw [newTable_of_enabled henabled] at hnew
    obtain ⟨hvmm, hbounds, hne, hfresh⟩ := hsource k k₁ table hnew
    rw [← hvmm] at h ht hfresh ⊢
    have hinst := h.installTable ht hfresh true isWritable
    have htable := Vmm.tableOf_installTable_self k₁.vmm k₁.vmm.kernelPageDir i table true isWritable
    have hfill := hinst.fillEntry hal hi
      (by rw [Vmm.kernelPageDir_installTable, htable]; exact hne) 0 true isWritable
    rw [Vmm.kernelPageDir_installTable, htable] at hfill
    exact ⟨hfill, hbounds⟩

/-- The loop of `ksbrk` maps the pages up to the new end and leaves the bounds alone. -/
theorem MappedTo.allocatePages (hsource : FreshTables kmallocA) {bound start runner : U32}
    {isWritable : Bool} (hal : start.toNat % 4096 = 0) (hbound : bound.toNat ≤ 0xD0000000)
    (h : MappedTo k.vmm start) (henabled : k.heap.kheapEnabled = true)
    (hk : k.allocatePages kmallocA isWritable bound start = some (k', runner)) :
    MappedTo k'.vmm runner ∧ k'.heap.bounds = k.heap.bounds := by
  refine (allocatePages_invariant (fun k₁ i => MappedTo k₁.vmm i ∧ k₁.heap.bounds = k.heap.bounds)
    ⟨h, rfl⟩ hal (by omega) ?_ hk).1
  rintro k₁ k₂ i hal - hlt ⟨h₁, hb₁⟩ hk₁
  obtain ⟨h₂, hb₂⟩ := h₁.allocatePage hsource hal (by omega)
    ((Heap.bounds_eq_iff.mp hb₁).2.2.2.2.trans henabled) hk₁
  exact ⟨h₂, hb₂.trans hb₁⟩

/-! ## Every call -/

theorem MappedTo.freePage {v : Vmm} {i : U32} (h : MappedTo v (i + pageSize))
    (hal : i.toNat % 4096 = 0) (hi : i.toNat + 4096 < 2 ^ 32) (free : Bool) :
    MappedTo (v.freePage v.kernelPageDir i free) i := by
  refine ⟨by simpa using h.dir, ?_, fun va hlo hhi => ?_⟩
  · rw [Vmm.kernelPageDir_freePage]
    exact h.distinct.of_dirs (Vmm.dirs_freePage _ _ _ _)
  · rw [Vmm.kernelPageDir_freePage]
    refine (h.mapped va hlo ?_).freePage _ h.distinct (by omega)
    rw [toNat_add_pageSize hi]
    omega

/-- Every call keeps the pages below the end of the heap mapped. -/
theorem HeapMapped.ksbrkOver (hsource : FreshTables kmallocA) {n : Nat} {size r : U32}
    (h : HeapMapped k) (hk : ksbrkOver kmallocA n k size = some (k', r)) : HeapMapped k' := by
  obtain ⟨hlimits, henabled, hmapped⟩ := h
  have hlimits' := hlimits
  obtain ⟨hstart, hmax, hmin, hend, hal⟩ := hlimits'
  cases n with
  | zero => simp [Kernel.ksbrkOver] at hk
  | succ n =>
    rw [Kernel.ksbrkOver] at hk
    rcases ksbrkWith_cases hk with ⟨-, rfl, -⟩ | ⟨-, -, -, rfl⟩ | ⟨-, -, -, rfl, -⟩ |
      ⟨-, hlt, hle, k₁, runner, hpages, hcase⟩ | ⟨hneg, hshrink⟩
    · exact ⟨hlimits, henabled, hmapped⟩
    · exact ⟨⟨hstart, hmax, hmin, hend, hal⟩, henabled, hmapped⟩
    · exact ⟨hlimits, henabled, hmapped⟩
    · have hlt := BitVec.lt_def.mp hlt
      have hle := BitVec.le_def.mp hle
      rw [hlimits.heapMax_toNat] at hle
      obtain ⟨hmapped₁, hbounds⟩ := hmapped.allocatePages hsource hal (by omega) henabled hpages
      obtain ⟨hb1, -, hb3, hb4, hb5⟩ := Heap.bounds_eq_iff.mp hbounds
      obtain ⟨-, hral, hrge, -, hrange⟩ := allocatePages_invariant (fun _ _ => True) trivial hal
        (by omega) (fun _ _ _ _ _ _ _ _ => trivial) hpages
      rcases hcase with ⟨hmoved, -⟩ | ⟨-, -, rfl⟩
      · -- no restart: the tables do not come from this heap
        exact absurd hb3.symm hmoved
      · refine ⟨⟨hb1.trans hstart, hb4.trans hmax, ?_, ?_, hral⟩, hb5.trans henabled, hmapped₁⟩
        · show 0xC0800000 ≤ runner.toNat
          omega
        · show runner.toNat ≤ 0xD0000000
          rcases hrange with rfl | hlt'
          · exact hend
          · omega
    · obtain ⟨v, e, hs, hP, heal, hemin, hele, -⟩ := ksbrkShrink_spec size hlimits MappedTo hmapped
        (fun v i hial hile _ h => h.freePage hial (by omega) true)
      rw [hs] at hshrink
      cases hshrink
      exact ⟨⟨hstart, hmax, hemin, by dsimp only; omega, heal⟩, henabled, hP⟩

/-! ## After boot -/

theorem heapMapped_kheapInit {k₀ : Kernel} (hbooted : Booted k₀ k)
    (hroom : BootRoom k₀.vmm.pmm.bitmapEnd) : HeapMapped k.kheapInit := by
  refine ⟨(breakOk_kheapInit k).toLimits, rfl, hbooted.dir_ne_zero hroom,
    hbooted.tablesDistinct hroom, ?_⟩
  intro va hlo hhi
  have hlo : 0xC0400000 ≤ va.toNat := hlo
  have hhi : va.toNat < 0xC0C00000 := hhi
  obtain ⟨hs, hva⟩ := bootPage_of_kernel (by omega) hhi
  exact hbooted.mapped hroom (by omega) hva

/--
**The heap is mapped.** After `vmm_init`, `kheap_init` and any sequence of calls of `ksbrk`, the
end of the heap is a page boundary, it is not below the smaller of the initial end and the
minimal size, and every page from the start of the heap to its end is present.
-/
theorem heap_pages_mapped (hsource : FreshTables kmallocA) {k₀ k₁ : Kernel} {sizes : List U32}
    (hheap : k₀.heap.kheapEnabled = false) (hpaging : k₀.vmm.pagingEnabled = false)
    (hroom : BootRoom k₀.vmm.pmm.bitmapEnd) (hboot : k₀.vmmInit kmallocA = some k₁)
    (hrun : Run (SbrkOver kmallocA) k₁.kheapInit sizes k) :
    k.heap.heapEnd.toNat % 4096 = 0 ∧
      min k₁.kheapInit.heap.heapEnd.toNat (kheapStart + kheapMinSize).toNat
        ≤ k.heap.heapEnd.toNat ∧
      ∀ va : U32, k.heap.heapStart.toNat ≤ va.toNat → va.toNat < k.heap.heapEnd.toNat →
        k.vmm.Mapped k.vmm.kernelPageDir va := by
  obtain ⟨k₂, hk₂, hbooted⟩ := vmmInit_spec hheap hpaging hroom kmallocA
  rw [hboot] at hk₂
  cases hk₂
  have h : HeapMapped k := hrun.invariant HeapMapped
    (fun _ _ _ h hstep => by
      obtain ⟨n, r, hk⟩ := hstep
      exact h.ksbrkOver hsource hk) (heapMapped_kheapInit hbooted hroom)
  refine ⟨h.limits.aligned, (Nat.min_le_right _ _).trans h.limits.min_le, ?_⟩
  rw [h.limits.start]
  exact h.mapped.mapped

/-- Takes tables from 16 MB of memory above the heap, page by page. -/
def tablesAbove : TableSource := fun k _ =>
  ((List.range 4096).find? fun n => decide (∀ i : Fin 1024,
    (k.vmm.dirs k.vmm.kernelPageDir).refTables i ≠ 0xE0000000 + 4096 * BitVec.ofNat 32 n)).map
    fun n => (k, 0xE0000000 + 4096 * BitVec.ofNat 32 n)

theorem freshTables_tablesAbove : FreshTables tablesAbove := by
  intro k k' table h
  obtain ⟨n, hn, he⟩ := Option.map_eq_some_iff.mp h
  cases he
  have hlt : n < 4096 := List.mem_range.mp (List.mem_of_find?_eq_some hn)
  refine ⟨rfl, rfl, fun hc => ?_, by simpa using List.find?_some hn⟩
  have := congrArg BitVec.toNat hc
  rw [BitVec.toNat_add, BitVec.toNat_mul, BitVec.toNat_ofNat] at this
  simp at this
  omega

theorem heap_pages_mapped_machine16 : ∃ k₁ k, machine16.vmmInit tablesAbove = some k₁ ∧
    Run (SbrkOver tablesAbove) k₁.kheapInit ([] ++ [16]) k ∧
      k.vmm.Mapped k.vmm.kernelPageDir 0xC0400000 := by
  obtain ⟨k₁, hk₁, -⟩ :=
    vmmInit_spec heap_machine16 paging_machine16 bootRoom_machine16 tablesAbove
  have hrun : Run (SbrkOver tablesAbove) k₁.kheapInit ([] ++ [16])
      { k₁.kheapInit with heap := { k₁.kheapInit.heap with heapCurr := kheapStart + 16 } } :=
    .snoc (.nil _) ⟨1, _, rfl⟩
  obtain ⟨-, -, hmapped⟩ := heap_pages_mapped freshTables_tablesAbove heap_machine16
    paging_machine16 bootRoom_machine16 hk₁ hrun
  have hlo : kheapStart.toNat ≤ (0xC0400000 : U32).toNat := by decide
  have hhi : (0xC0400000 : U32).toNat < (kheapStart + kheapInitialSize).toNat := by decide
  exact ⟨k₁, _, hk₁, hrun, hmapped 0xC0400000 hlo hhi⟩

end Kernel

end PiggyOS
