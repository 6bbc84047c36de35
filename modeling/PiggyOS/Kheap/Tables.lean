import PiggyOS.Kheap.Starved
import PiggyOS.Vmm.Copy

/-!
# Page tables that heap growth makes

A growing call of `ksbrk` maps its pages from below, so that the regions of the heap get their
tables in order. The tables are entered in the kernel's directory; all others stay as they are.

* `NeedsTable` — a call has to map a page that has no table
* `TableOrder.dirs_of_ksbrk` — a call that does not need a table leaves the directories alone
* `TableOrder.exists_mapped_of_needsTable` — a call that does, and comes back, maps a page in a
  region for which there was no table
-/

namespace PiggyOS

open Infra

/-- Of the directories only the kernel's has changed. -/
structure OthersKept (v v' : Vmm) : Prop where
  kernelPageDir : v'.kernelPageDir = v.kernelPageDir
  currentPageDir : v'.currentPageDir = v.currentPageDir
  dirs : ∀ d, d ≠ v.kernelPageDir → v'.dirs d = v.dirs d

namespace OthersKept

variable {v v' v'' : Vmm}

theorem refl (v : Vmm) : OthersKept v v := ⟨rfl, rfl, fun _ _ => rfl⟩

theorem trans (h : OthersKept v v') (h' : OthersKept v' v'') : OthersKept v v'' := by
  refine ⟨h'.kernelPageDir.trans h.kernelPageDir, h'.currentPageDir.trans h.currentPageDir, ?_⟩
  intro d hd
  exact (h'.dirs d (by rwa [h.kernelPageDir])).trans (h.dirs d hd)

theorem fillEntry (v : Vmm) (table : U32) (idx : Fin 1024) (frame : U32)
    (isKernel isWritable : Bool) :
    OthersKept v (v.fillEntry table idx frame isKernel isWritable) :=
  ⟨Vmm.kernelPageDir_fillEntry _ _ _ _ _ _, Vmm.currentPageDir_fillEntry _ _ _ _ _ _,
    fun d _ => congrFun (Vmm.dirs_fillEntry _ _ _ _ _ _) d⟩

theorem installTable (v : Vmm) (idx : Fin 1024) (table : U32) (isKernel isWritable : Bool) :
    OthersKept v (v.installTable v.kernelPageDir idx table isKernel isWritable) :=
  ⟨rfl, rfl, fun _ hd => Vmm.dirs_installTable_of_ne _ _ _ _ _ _ hd⟩

end OthersKept

/-- The tables of the kernel's directory are present, and those of the heap were made from
below. -/
structure TablesOk (v : Vmm) : Prop where
  present : ∀ i, (v.dirs v.kernelPageDir).refTables i ≠ 0 →
    ((v.dirs v.kernelPageDir).tables i).present = true
  upward : ∀ a b : U32, 0xC0400000 ≤ a.toNat → a.toNat ≤ b.toNat →
    v.tableOf v.kernelPageDir a = 0 → v.tableOf v.kernelPageDir b = 0

namespace TablesOk

variable {v v' : Vmm}

theorem of_dir (h : TablesOk v)
    (hdir : v'.dirs v'.kernelPageDir = v.dirs v.kernelPageDir) : TablesOk v' := by
  obtain ⟨hpresent, hupward⟩ := h
  unfold Vmm.tableOf at hupward
  refine ⟨?_, ?_⟩
  · rw [hdir]
    exact hpresent
  · unfold Vmm.tableOf
    rw [hdir]
    exact hupward

theorem fillEntry (h : TablesOk v) (table : U32) (idx : Fin 1024) (frame : U32)
    (isKernel isWritable : Bool) : TablesOk (v.fillEntry table idx frame isKernel isWritable) :=
  h.of_dir (by rw [Vmm.dirs_fillEntry, Vmm.kernelPageDir_fillEntry])

/-- A table for a page below which all have one. -/
theorem installTable (h : TablesOk v) {i table : U32} (hto : TablesTo v i.toNat)
    (hne : table ≠ 0) (isKernel isWritable : Bool) :
    TablesOk (v.installTable v.kernelPageDir (pagedirIndex i) table isKernel isWritable) := by
  refine ⟨?_, ?_⟩
  · intro j hj
    rw [Vmm.kernelPageDir_installTable] at hj ⊢
    by_cases hidx : j = pagedirIndex i
    · rw [hidx]
      exact Vmm.present_installTable_self _ _ _ _ _ _
    · rw [Vmm.tables_installTable_of_ne _ _ _ _ _ _ hidx]
      rw [Vmm.refTables_installTable, Function.update_of_ne hidx] at hj
      exact h.present j hj
  · intro a b ha hab hnone
    have htable : ∀ c : U32, pagedirIndex c ≠ pagedirIndex i →
        (v.installTable v.kernelPageDir (pagedirIndex i) table isKernel isWritable).tableOf
          v.kernelPageDir c = v.tableOf v.kernelPageDir c := by
      intro c hc
      rw [Vmm.tableOf, Vmm.refTables_installTable, Function.update_of_ne hc, Vmm.tableOf]
    rw [Vmm.kernelPageDir_installTable] at hnone ⊢
    have hregion : pagedirIndex a ≠ pagedirIndex i := by
      intro hc
      rw [Vmm.tableOf, Vmm.refTables_installTable, hc, Function.update_self] at hnone
      exact hne hnone
    rw [htable a hregion] at hnone
    -- the page of `a` has no table, so it is above the new one
    have hge : i.toNat ≤ a.toNat := Nat.le_of_not_lt fun hlt => hto a ha hlt hnone
    have hregion' : pagedirIndex b ≠ pagedirIndex i := by
      rw [Ne, pagedirIndex_eq_iff] at hregion ⊢
      omega
    rw [htable b hregion']
    exact h.upward a b ha hab hnone

/-- A page that is mapped can be looked up. -/
theorem lookup_ne_none (h : TablesOk v) {va : U32} (hmapped : v.Mapped v.kernelPageDir va) :
    v.lookup v.kernelPageDir va ≠ none := by
  have hpresent := h.present _ hmapped.1
  unfold Vmm.lookup
  rw [hpresent, hmapped.2]
  simpa using hmapped.1

end TablesOk

namespace Kernel

variable {k k' : Kernel} {size : U32}

/-- A heap with nothing on its free list, whose tables were made from below. -/
structure TableOrder (k : Kernel) : Prop extends GrowthOk k where
  tablesOk : TablesOk k.vmm
  curr_le : k.heap.heapCurr.toNat ≤ 0xD0000000

/-- Other directories do not matter. -/
theorem TableOrder.of_dir {v : Vmm} (h : TableOrder k)
    (hkernel : v.kernelPageDir = k.vmm.kernelPageDir)
    (hdir : v.dirs v.kernelPageDir = k.vmm.dirs k.vmm.kernelPageDir) :
    TableOrder { k with vmm := v } := by
  have hkept : TablesKept k.vmm v := by
    refine ⟨hkernel, fun i hi => ?_⟩
    rw [hdir]
    exact hi
  exact ⟨h.toGrowthOk.of_tablesKept hkept, h.tablesOk.of_dir hdir, h.curr_le⟩

/-! ## The page loop -/

/-- What a call of `ksbrk` for a page table does. -/
structure TableCall (k k' : Kernel) (r : U32) : Prop extends TableOrder k' where
  kept : TablesKept k.vmm k'.vmm
  others : OthersKept k.vmm k'.vmm
  curr_ge : k.heap.heapCurr.toNat ≤ k'.heap.heapCurr.toNat
  ret_le : r.toNat ≤ 0xD0000000

/-- A page loop of `ksbrk` that has come to `i`; the page before is mapped. -/
structure InOrder (k₀ k : Kernel) (i : U32) : Prop extends Growing k₀ k i where
  tablesOk : TablesOk k.vmm
  others : OthersKept k₀.vmm k.vmm
  curr_ge : k₀.heap.heapCurr.toNat ≤ k.heap.heapCurr.toNat
  last : i = k₀.heap.heapEnd ∨ k.vmm.Mapped k.vmm.kernelPageDir (i - pageSize)

/-- `allocate_page` maps the page for which it makes a table. -/
theorem mapped_withTable (k : Kernel) {i ret : U32} (isWritable : Bool)
    (hret : ret.toNat ≤ 0xD0000000) :
    (k.withTable k.vmm.kernelPageDir i ret isWritable).vmm.Mapped
      (k.withTable k.vmm.kernelPageDir i ret isWritable).vmm.kernelPageDir i := by
  refine ⟨(tableOf_withTable k ret).trans_ne (tableIn_ne_zero hret), ?_⟩
  rw [tableOf_withTable]
  unfold withTable Vmm.entry
  dsimp only
  exact Vmm.present_fillEntry _ _ _ _ _ _

theorem othersKept_withTable (k : Kernel) (i ret : U32) (isWritable : Bool) :
    OthersKept k.vmm (k.withTable k.vmm.kernelPageDir i ret isWritable).vmm := by
  have hinst := OthersKept.installTable k.vmm (pagedirIndex i) (tableIn ret) true isWritable
  unfold withTable
  dsimp only
  exact hinst.trans (.fillEntry _ _ _ _ _ _)

theorem TablesOk.withTable {i ret : U32} (h : TablesOk k.vmm) (hto : TablesTo k.vmm i.toNat)
    (hret : ret.toNat ≤ 0xD0000000) (isWritable : Bool) :
    TablesOk (k.withTable k.vmm.kernelPageDir i ret isWritable).vmm := by
  have hinst := h.installTable hto (tableIn_ne_zero hret) true isWritable
  unfold Kernel.withTable
  dsimp only
  exact hinst.fillEntry _ _ _ _ _

theorem InOrder.step {k₀ : Kernel} {i : U32} {sbrk : Kernel → U32 → Option (Kernel × U32)}
    {isWritable : Bool} (h : InOrder k₀ k i) (hal : i.toNat % 4096 = 0)
    (hi : i.toNat + 4096 < 2 ^ 32)
    (hsbrk : ∀ k₁ r, sbrk k 8208 = some (k₁, r) → TableCall k k₁ r)
    (hk : k.allocatePage (fun k sz => k.kmallocAWith sbrk sz) k.vmm.kernelPageDir i 0 true
      isWritable = some k') : InOrder k₀ k' (i + pageSize) := by
  have hgrow := h.toGrowing.step hal hi (fun k₁ r hs => by
    have hcall := hsbrk k₁ r hs
    exact ⟨hcall.toGrowthOk, hcall.kept, hcall.curr_le, hcall.ret_le⟩) hk
  have hprev : i + pageSize - pageSize = i := BitVec.add_sub_cancel i pageSize
  by_cases ht : k.vmm.tableOf k.vmm.kernelPageDir i = 0
  · rw [h.ok.allocatePage_of_missing ht] at hk
    obtain ⟨⟨k₁, ret⟩, hs, rfl⟩ := Option.map_eq_some_iff.mp hk
    have hcall := hsbrk k₁ ret hs
    have hto : TablesTo k₁.vmm i.toNat := h.tables.kept hcall.kept
    have htables := TablesOk.withTable hcall.tablesOk hto hcall.ret_le isWritable
    have hothers := othersKept_withTable k₁ i ret isWritable
    dsimp only at hgrow ⊢
    rw [← hcall.kept.dir] at hgrow ⊢
    refine ⟨hgrow, htables, h.others.trans (hcall.others.trans hothers), ?_, Or.inr ?_⟩
    · have hcurr := (Heap.bounds_eq_iff.mp (bounds_withTail k₁ ret 8208)).2.2.1
      have hle := h.curr_ge.trans hcall.curr_ge
      rw [← hcurr] at hle
      exact hle
    · rw [hprev]
      exact mapped_withTable k₁ isWritable hcall.ret_le
  · rw [h.ok.toHeapOk.allocatePage_of_table ht] at hk
    cases hk
    have hothers := OthersKept.fillEntry k.vmm (k.vmm.tableOf k.vmm.kernelPageDir i)
      (pagetblIndex i) 0 true isWritable
    have htables := h.tablesOk.fillEntry (k.vmm.tableOf k.vmm.kernelPageDir i) (pagetblIndex i) 0
      true isWritable
    refine ⟨hgrow, htables, h.others.trans hothers, h.curr_ge, Or.inr ?_⟩
    rw [hprev]
    dsimp only
    rw [Vmm.kernelPageDir_fillEntry]
    exact Vmm.mapped_fillEntry _ _ _ ht

/-! ## Growing calls -/

/-- A page of the heap is mapped that ends at or above `bound`. -/
def MappedAbove (k : Kernel) (bound : U32) : Prop :=
  ∃ va : U32, va.toNat % 4096 = 0 ∧ 0xC0400000 ≤ va.toNat ∧ bound.toNat ≤ va.toNat + 4096 ∧
    k.vmm.Mapped k.vmm.kernelPageDir va

/-- What a growing call of `ksbrk` that came back has done. -/
structure SbrkCall (k : Kernel) (size : U32) (k' : Kernel) : Prop extends TableOrder k' where
  others : OthersKept k.vmm k'.vmm
  curr_ge : size = 8208 → k.heap.heapCurr.toNat ≤ k'.heap.heapCurr.toNat
  last : k.heap.heapEnd < k.heap.heapCurr + size → k.heap.heapCurr + size ≤ k.heap.heapMax →
    MappedAbove k' (k.heap.heapCurr + size)

/-- The last page of a loop that has mapped some. -/
theorem InOrder.mappedAbove {k₀ : Kernel} {bound runner : U32} (h : InOrder k₀ k runner)
    (hlimits : k₀.heap.Limits) (hal : runner.toNat % 4096 = 0) (hlt : k₀.heap.heapEnd < bound)
    (hle : bound.toNat ≤ runner.toNat) : MappedAbove k bound := by
  have hmin := hlimits.min_le
  have hlt := BitVec.lt_def.mp hlt
  rcases h.last with rfl | hmapped
  · omega
  · have hprev := toNat_sub_pageSize (a := runner) (by omega)
    exact ⟨_, by omega, by omega, by omega, hmapped⟩

/-- The page loop of a growing call, if the calls for tables do as they should. -/
theorem TableOrder.allocatePages {n : Nat} {k₁ : Kernel} {bound runner : U32} (h : TableOrder k)
    (hbound : bound.toNat ≤ 0xCFFFFFFF)
    (hsbrk : ∀ {k k' : Kernel} {r : U32}, TableOrder k →
      Kernel.ksbrk n k 8208 = some (k', r) → SbrkCall k 8208 k')
    (hpages : k.allocatePages (fun k sz => k.kmallocAWith (Kernel.ksbrk n) sz) true bound
      k.heap.heapEnd = some (k₁, runner)) :
    InOrder k k₁ runner ∧ runner.toNat % 4096 = 0 ∧ bound.toNat ≤ runner.toNat := by
  have hstart : InOrder k k k.heap.heapEnd :=
    ⟨⟨h.toGrowthOk, .refl _, h.curr_le, h.tables⟩, h.tablesOk, .refl _, Nat.le_refl _, Or.inl rfl⟩
  have htable : ∀ (k₂ k₃ : Kernel) (i r : U32), InOrder k k₂ i →
      Kernel.ksbrk n k₂ 8208 = some (k₃, r) → TableCall k₂ k₃ r := by
    intro k₂ k₃ i r hin hs
    obtain ⟨-, hkept, hrest⟩ := GrowthOk.ksbrk n hin.ok hs
    have hcall := hsbrk ⟨hin.ok, hin.tablesOk, hin.curr_le⟩ hs
    exact ⟨hcall.toTableOrder, hkept, hcall.others, hcall.curr_ge rfl, (hrest rfl hin.curr_le).2⟩
  obtain ⟨hin, hral, hrge, -⟩ := allocatePages_invariant (InOrder k) hstart h.limits.aligned
    (by omega) (fun k₂ k₃ i hal _ hlt hin hk₂ =>
      hin.step hal (by omega) (fun k₄ r hs => htable k₂ k₄ i r hin hs) hk₂) hpages
  exact ⟨hin, hral, hrge⟩

/-- **Growing calls keep the tables in order** and the other directories as they are. The
induction is on the bound: tables and restarts are calls of the bound below. -/
theorem TableOrder.ksbrk (n : Nat) {k k' : Kernel} {size r : U32} (h : TableOrder k)
    (hpos : 0 < size.toInt) (hk : Kernel.ksbrk n k size = some (k', r)) : SbrkCall k size k' := by
  induction n generalizing k k' size r with
  | zero => simp [Kernel.ksbrk] at hk
  | succ n ih =>
    have hgrowth := (GrowthOk.ksbrk (n + 1) h.toGrowthOk hk).1
    have hcurr := h.curr_le
    rcases ksbrk_cases_of_pos hpos hk with ⟨hle, -, rfl⟩ | ⟨-, hmax, rfl, -⟩ |
      ⟨hlt, hle, m, k₁, runner, hm, hpages, hcase⟩
    · have hend := h.limits.end_le
      refine ⟨⟨hgrowth, h.tablesOk, (BitVec.le_def.mp hle).trans hend⟩, .refl _, ?_,
        fun hlt => absurd hle (BitVec.not_le.mpr hlt)⟩
      rintro rfl
      have hsum : (k.heap.heapCurr + 8208).toNat = k.heap.heapCurr.toNat + 8208 :=
        BitVec.toNat_add_of_lt (by simp; omega)
      dsimp only
      omega
    · exact ⟨h, .refl _, fun _ => Nat.le_refl _, fun _ hle => absurd hmax (BitVec.not_lt.mpr hle)⟩
    · cases hm
      obtain ⟨hnb, hnbmax⟩ := h.limits.toNat_newBoundary hpos hlt hle
      obtain ⟨hin, hral, hrge⟩ := h.allocatePages hnbmax
        (fun h₂ hs => ih h₂ (by decide) hs) hpages
      have h₁ : TableOrder k₁ := ⟨hin.ok, hin.tablesOk, hin.curr_le⟩
      have hfirst := hin.mappedAbove h.limits hral hlt hrge
      rcases hcase with ⟨-, hrestart⟩ | ⟨-, -, rfl⟩
      · have hcall := ih h₁ hpos hrestart
        refine ⟨hcall.toTableOrder, hin.others.trans hcall.others,
          fun hs => hin.curr_ge.trans (hcall.curr_ge hs), fun _ _ => ?_⟩
        -- the last page of the last pass that maps pages
        rcases ksbrk_cases_of_pos hpos hrestart with ⟨-, -, rfl⟩ | ⟨-, -, rfl, -⟩ | ⟨hlt₁, hle₁, -⟩
        · exact hfirst
        · exact hfirst
        · obtain ⟨hnb₁, -⟩ := h₁.limits.toNat_newBoundary hpos hlt₁ hle₁
          obtain ⟨va, hal, hva, hbound, hmapped⟩ := hcall.last hlt₁ hle₁
          have hge := hin.curr_ge
          exact ⟨va, hal, hva, by omega, hmapped⟩
      · refine ⟨⟨hgrowth, hin.tablesOk, ?_⟩, hin.others, ?_, fun _ _ => hfirst⟩
        · dsimp only
          omega
        · intro _
          dsimp only
          omega

/-! ## Tables made and not made -/

/-- The call maps a page in a region without a table. -/
def NeedsTable (k : Kernel) (size : U32) : Prop :=
  k.heap.heapEnd < k.heap.heapCurr + size ∧ k.heap.heapCurr + size ≤ k.heap.heapMax ∧
    ∃ a : U32, k.heap.heapEnd.toNat ≤ a.toNat ∧ a.toNat < (k.heap.heapCurr + size).toNat ∧
      k.vmm.tableOf k.vmm.kernelPageDir a = 0

/-- A call that needs no table leaves all directories alone. -/
theorem TableOrder.dirs_of_ksbrk {n : Nat} {r : U32} (h : TableOrder k) (hpos : 0 < size.toInt)
    (hsafe : ¬ NeedsTable k size) (hk : Kernel.ksbrk n k size = some (k', r)) :
    k'.vmm.dirs = k.vmm.dirs := by
  cases n with
  | zero => simp [Kernel.ksbrk] at hk
  | succ n =>
    rcases ksbrk_cases_of_pos hpos hk with ⟨-, -, rfl⟩ | ⟨-, -, rfl, -⟩ | ⟨hlt, hle, -⟩
    · rfl
    · rfl
    · obtain ⟨v, runner, hk', hfilled, -⟩ := h.toHeapOk.exists_ksbrk_of_tables n hpos hlt hle
        fun a hlo hhi hnone => hsafe ⟨hlt, hle, a, hlo, hhi, hnone⟩
      rw [hk] at hk'
      cases hk'
      exact hfilled.dirs

/-- A call that needs a table maps a page in a region that had none. -/
theorem TableOrder.exists_mapped_of_needsTable {n : Nat} {r : U32} (h : TableOrder k)
    (hpos : 0 < size.toInt) (hneeds : NeedsTable k size)
    (hk : Kernel.ksbrk n k size = some (k', r)) :
    ∃ va : U32, 0xC0400000 ≤ va.toNat ∧ k.vmm.tableOf k.vmm.kernelPageDir va = 0 ∧
      k'.vmm.lookup k'.vmm.kernelPageDir va ≠ none := by
  obtain ⟨hlt, hle, a, hlo, hhi, hnone⟩ := hneeds
  have hcall := h.ksbrk n hpos hk
  obtain ⟨va, hal, hva, hbound, hmapped⟩ := hcall.last hlt hle
  have hmin := h.limits.min_le
  refine ⟨va, hva, ?_, hcall.tablesOk.lookup_ne_none hmapped⟩
  -- `a` is in the page of `va` or below
  by_cases hav : a.toNat ≤ va.toNat
  · exact h.tablesOk.upward a va (by omega) hav hnone
  · have hregion : va.toNat / 2 ^ 22 = a.toNat / 2 ^ 22 := by omega
    rw [k.vmm.tableOf_congr _ hregion]
    exact hnone

/-- After boot the heap has the tables of its first 8 MB. -/
theorem tableOrder_kheapInit {k₀ : Kernel} (hbooted : Booted k₀ k)
    (hroom : BootRoom k₀.vmm.pmm.bitmapEnd) (hempty : k₀.heap.freelist = 0) :
    TableOrder k.kheapInit := by
  have hgrowth := growthOk_kheapInit hbooted hroom hempty
  refine ⟨hgrowth, ⟨?_, ?_⟩, ?_⟩
  · intro i hi
    by_contra hpresent
    refine hi (hbooted.rest i ?_)
    rintro t ht rfl
    exact hpresent (hbooted.tables t ht).1
  · intro a b ha hab hnone
    have hge : 0xC0C00000 ≤ a.toNat := by
      by_contra hlt
      exact hgrowth.tables a ha (show a.toNat < 0xC0C00000 by omega) hnone
    refine hbooted.rest _ ?_
    intro t ht hregion
    have hval := congrArg Fin.val hregion
    rw [pagedirIndex_val, bootRegion_val] at hval
    split at hval <;> omega
  · show kheapStart.toNat ≤ 0xD0000000
    decide

end Kernel

end PiggyOS
