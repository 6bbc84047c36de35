import PiggyOS.Kheap.Faults

/-!
# The memory under a growing heap

While the heap grows and its free list stays empty, the memory of the kernel is mapped up to the
end of the heap, and the page tables lie in it.

* `Backed` — the memory is mapped up to an address, page tables included
* `Orderly` — the states of such a heap
* `orderly_of_growing_run` — all states that growing calls reach are such
-/

namespace PiggyOS

open Infra

/-- A page stays mapped while other pages are mapped. -/
theorem Vmm.Filled.keeps {v v' : Vmm} {lo hi : Nat} (h : v.Filled v' lo hi) {a : U32}
    (ha : v.Mapped v.kernelPageDir a) : v'.Mapped v'.kernelPageDir a := by
  have ht := h.tableOf a
  refine ⟨ht.trans_ne ha.1, ?_⟩
  rw [ht, Vmm.entry, h.present _ _ ha.2]
  exact ha.2

/-- In the directory in use, which is the kernel's, the memory of the kernel is mapped up to `e`,
and so are the page tables. -/
structure Backed (v : Vmm) (e : Nat) : Prop where
  current : v.currentPageDir = v.kernelPageDir
  mapped : ∀ a : U32, 0xC0000000 ≤ a.toNat → a.toNat < e → v.Mapped v.kernelPageDir a
  tables : ∀ i, (v.dirs v.kernelPageDir).refTables i ≠ 0 →
    ((v.dirs v.kernelPageDir).refTables i).toNat % 4096 = 0 ∧
      v.Mapped v.kernelPageDir ((v.dirs v.kernelPageDir).refTables i)

namespace Backed

variable {v v' : Vmm} {e : Nat}

theorem mono (h : Backed v e) {e' : Nat} (hle : e' ≤ e) : Backed v e' :=
  ⟨h.current, fun a hlo hhi => h.mapped a hlo (by omega), h.tables⟩

theorem lookup_ne_none (h : Backed v e) (hok : TablesOk v) {a : U32}
    (ha : v.Mapped v.kernelPageDir a) : v.lookup v.currentPageDir a ≠ none := by
  rw [h.current]
  exact hok.lookup_ne_none ha

/-- Memory of the kernel below `e`. -/
theorem reaches (h : Backed v e) (hok : TablesOk v) {a : U32} {n : Nat}
    (hlo : 0xC0000000 ≤ a.toNat) (hhi : a.toNat + n ≤ e) (he : e < 2 ^ 32) : v.Reaches a n := by
  intro j hj
  have hsum : (a + BitVec.ofNat 32 j).toNat = a.toNat + j := by
    rw [BitVec.toNat_add, BitVec.toNat_ofNat]
    omega
  exact h.lookup_ne_none hok (h.mapped _ (by omega) (by omega))

/-- A page table can be accessed as a whole. -/
theorem entryReached (h : Backed v e) (hok : TablesOk v) (va : U32) :
    v.EntryReached v.kernelPageDir va := by
  intro ht j hj
  obtain ⟨hal, hmapped⟩ := h.tables _ ht
  have hidx := (pagetblIndex va).isLt
  refine h.lookup_ne_none hok (hmapped.of_page ?_)
  have htop := (v.tableOf v.kernelPageDir va).isLt
  unfold Vmm.tableOf at htop ⊢
  have haddr : (wordsAfter ((v.dirs v.kernelPageDir).refTables (pagedirIndex va))
      (BitVec.ofNat 32 (pagetblIndex va).val) + BitVec.ofNat 32 j).toNat =
      ((v.dirs v.kernelPageDir).refTables (pagedirIndex va)).toNat +
        (4 * (pagetblIndex va).val + j) := by
    have hoffset : (4 * BitVec.ofNat 32 (pagetblIndex va).val : U32).toNat =
        4 * (pagetblIndex va).val := by
      rw [BitVec.toNat_mul, BitVec.toNat_ofNat]
      show 4 * _ % _ = _
      omega
    rw [wordsAfter, BitVec.toNat_add, BitVec.toNat_add, hoffset, BitVec.toNat_ofNat]
    omega
  omega

theorem filled (h : Backed v e) {lo hi : Nat} (hf : v.Filled v' lo hi) : Backed v' e := by
  refine ⟨?_, fun a hlo hhi => hf.keeps (h.mapped a hlo hhi), ?_⟩
  · rw [hf.currentPageDir, hf.kernelPageDir, h.current]
  · rw [hf.dirs, hf.kernelPageDir]
    intro i hi
    have hmapped := hf.keeps (h.tables i hi).2
    rw [hf.kernelPageDir] at hmapped
    exact ⟨(h.tables i hi).1, hmapped⟩

/-- The next page, in a region with a table. -/
theorem next {i : U32} (h : Backed v i.toNat) (hal : i.toNat % 4096 = 0)
    (hi : i.toNat + 4096 < 2 ^ 32) (ht : v.tableOf v.kernelPageDir i ≠ 0) :
    Backed (v.fillEntry (v.tableOf v.kernelPageDir i) (pagetblIndex i) 0 true true)
      (i + pageSize).toNat := by
  have hnext := toNat_add_pageSize hi
  refine ⟨?_, fun a hlo hhi => ?_, fun j hj => ?_⟩
  · rw [Vmm.currentPageDir_fillEntry, Vmm.kernelPageDir_fillEntry, h.current]
  · rw [Vmm.kernelPageDir_fillEntry]
    by_cases hlt : a.toNat < i.toNat
    · exact (h.mapped a hlo hlt).fillEntry _ _ _ _ _
    · exact (Vmm.mapped_fillEntry _ _ _ ht).of_page (by omega)
  · rw [Vmm.dirs_fillEntry, Vmm.kernelPageDir_fillEntry] at hj ⊢
    exact ⟨(h.tables j hj).1, (h.tables j hj).2.fillEntry _ _ _ _ _⟩

/-- The next page, in a region that gets its table from mapped memory. -/
theorem withTable {k : Kernel} {i ret : U32} (h : Backed k.vmm i.toNat)
    (hal : i.toNat % 4096 = 0) (hi : i.toNat + 4096 < 2 ^ 32)
    (ht : k.vmm.tableOf k.vmm.kernelPageDir i = 0) (hret : ret.toNat ≤ 0xD0000000)
    (hfresh : ∀ j, (k.vmm.dirs k.vmm.kernelPageDir).refTables j ≠ tableIn ret)
    (hplace : k.vmm.Mapped k.vmm.kernelPageDir (tableIn ret)) :
    Backed (k.withTable k.vmm.kernelPageDir i ret true).vmm (i + pageSize).toNat := by
  have hnext := toNat_add_pageSize hi
  have hothers := Kernel.othersKept_withTable k i ret true
  have hkernel := hothers.kernelPageDir
  have hrefs := Kernel.refTables_withTable (i := i) k true ret
  have hpage := Kernel.mapped_withTable k (i := i) true hret
  -- what was mapped is so still
  have hkeep : ∀ a, k.vmm.Mapped k.vmm.kernelPageDir a →
      (k.withTable k.vmm.kernelPageDir i ret true).vmm.Mapped
        (k.withTable k.vmm.kernelPageDir i ret true).vmm.kernelPageDir a := by
    intro a ha
    rw [hkernel]
    have hinst := ha.installTable true true ht hfresh
    unfold Kernel.withTable
    dsimp only
    exact hinst.fillEntry _ _ _ _ _
  generalize k.withTable k.vmm.kernelPageDir i ret true = k' at *
  refine ⟨?_, fun a hlo hhi => ?_, fun j hj => ?_⟩
  · rw [hothers.currentPageDir, hkernel, h.current]
  · by_cases hlt : a.toNat < i.toNat
    · exact hkeep a (h.mapped a hlo hlt)
    · exact hpage.of_page (by omega)
  · rw [hrefs] at hj ⊢
    by_cases hidx : j = pagedirIndex i
    · rw [hidx, Function.update_self]
      refine ⟨?_, hkeep _ hplace⟩
      rw [toNat_tableIn hret]
      omega
    · rw [Function.update_of_ne hidx] at hj ⊢
      exact ⟨(h.tables j hj).1, hkeep _ (h.tables j hj).2⟩

end Backed

namespace Kernel

variable {k k' : Kernel}

/-- A heap with nothing on its free list that has only grown. -/
structure Orderly (k : Kernel) : Prop extends TableOrder k where
  break_ok : k.heap.BreakOk
  stacked : Stacked k
  backed : Backed k.vmm k.heap.heapEnd.toNat

/-- With the same memory. -/
theorem Orderly.of_eq (h : Orderly k) (hheap : k'.heap = k.heap)
    (hkernel : k'.vmm.kernelPageDir = k.vmm.kernelPageDir)
    (hcurrent : k'.vmm.currentPageDir = k.vmm.currentPageDir)
    (hdir : k'.vmm.dirs k'.vmm.kernelPageDir = k.vmm.dirs k.vmm.kernelPageDir)
    (htabs : k'.vmm.tabs = k.vmm.tabs) : Orderly k' := by
  obtain ⟨v, heap⟩ := k'
  dsimp only at hheap hkernel hcurrent hdir htabs
  subst hheap
  have hmapped : ∀ a, k.vmm.Mapped k.vmm.kernelPageDir a → v.Mapped v.kernelPageDir a := by
    intro a ha
    unfold Vmm.Mapped Vmm.tableOf Vmm.entry
    rw [hdir, htabs]
    exact ha
  refine ⟨h.toTableOrder.of_dir hkernel hdir, h.break_ok,
    h.stacked.of_dir hdir (Nat.le_refl _) h.curr_le, ?_, ?_, ?_⟩
  · rw [hkernel, hcurrent, h.backed.current]
  · exact fun a hlo hhi => hmapped a (h.backed.mapped a hlo hhi)
  · dsimp only
    rw [hdir]
    exact fun i hi => ⟨(h.backed.tables i hi).1, hmapped _ (h.backed.tables i hi).2⟩

/-! ## The page loop -/

/-- A page loop of `ksbrk` that has come to `i`, with the memory below mapped. -/
structure Housing (k₀ k : Kernel) (i : U32) : Prop extends Adding k₀ k i where
  backed : Backed k.vmm i.toNat
  end_le : k.heap.heapEnd.toNat ≤ i.toNat

namespace Housing

variable {k₀ : Kernel} {i : U32} {n : Nat}

theorem of_orderly (h : Orderly k) : Housing k k k.heap.heapEnd :=
  ⟨⟨⟨⟨h.toGrowthOk, .refl _, h.curr_le, h.tables⟩, h.tablesOk, .refl _, Nat.le_refl _, Or.inl rfl⟩,
    h.break_ok, h.stacked, .refl _⟩, h.backed, Nat.le_refl _⟩

theorem orderly (h : Housing k₀ k i) : Orderly k :=
  ⟨⟨h.ok, h.tablesOk, h.curr_le⟩, h.break_ok, h.stacked, h.backed.mono h.end_le⟩

/-- The page table that a call at `i` makes is in mapped memory below `i`. -/
theorem served (h : Housing k₀ k i) (hlo : 0xC0800000 ≤ i.toNat) (hhi : i.toNat < 0xCFFFFFFF)
    (ht : k.vmm.tableOf k.vmm.kernelPageDir i = 0) {k₁ : Kernel} {ret : U32}
    (hs : Kernel.ksbrk n k 8208 = some (k₁, ret)) :
    k.ServedTable k₁ ret ∧ k.heap.heapCurr.toNat + 8208 ≤ i.toNat := by
  have hserved := (h.ok.ksbrk_table_cases h.curr_le hs).resolve_right
    fun hc => h.not_refused hlo hhi ht hc.1
  refine ⟨hserved, Nat.le_of_not_lt fun hlt => ?_⟩
  -- the call would have mapped `i`, but has made no table
  have hmapped := (hserved.filled.mapped i h.end_le hlt).1
  exact hmapped ((hserved.filled.tableOf i).trans ht)

/-- The next page. -/
theorem step (h : Housing k₀ k i) (hal : i.toNat % 4096 = 0) (hlo : 0xC0800000 ≤ i.toNat)
    (hhi : i.toNat < 0xCFFFFFFF)
    (hk : k.allocatePage (fun k sz => k.kmallocAWith (Kernel.ksbrk n) sz) k.vmm.kernelPageDir i 0
      true true = some k') : Housing k₀ k' (i + pageSize) := by
  have hnext := toNat_add_pageSize (show i.toNat + 4096 < 2 ^ 32 by omega)
  have hadding := h.toAdding.step hal hlo hhi hk
  by_cases ht : k.vmm.tableOf k.vmm.kernelPageDir i = 0
  · rw [h.ok.allocatePage_of_missing ht] at hk
    obtain ⟨⟨k₁, ret⟩, hs, rfl⟩ := Option.map_eq_some_iff.mp hk
    obtain ⟨hserved, hbelow⟩ := h.served hlo hhi ht hs
    obtain ⟨rfl, -, hfilled, -, hend⟩ := hserved
    have hbacked := h.backed.filled hfilled
    have hplace := toNat_tableIn h.curr_le
    have hlow : 0xC0400000 ≤ k.heap.heapCurr.toNat := h.break_ok.start_le
    have hfresh : ∀ j, (k₁.vmm.dirs k₁.vmm.kernelPageDir).refTables j ≠
        tableIn k.heap.heapCurr := by
      rw [hfilled.dirs, hfilled.kernelPageDir]
      intro j hc
      have hlt := h.stacked.below j (hc.trans_ne (tableIn_ne_zero h.curr_le))
      rw [hc] at hlt
      exact Nat.lt_irrefl _ hlt
    dsimp only at hadding ⊢
    rw [← hfilled.kernelPageDir] at hadding ⊢
    refine ⟨hadding, hbacked.withTable hal (by omega) ((hfilled.tableOf i).trans ht) h.curr_le
      hfresh (hbacked.mapped _ (by omega) (by omega)), ?_⟩
    have hbounds := bounds_withTable k₁ k₁.vmm.kernelPageDir i k.heap.heapCurr true
    rw [(Heap.bounds_eq_iff.mp hbounds).2.1]
    exact (hend i.toNat hal h.end_le hbelow).trans (by omega)
  · rw [h.ok.toHeapOk.allocatePage_of_table ht] at hk
    cases hk
    exact ⟨hadding, h.backed.next hal (by omega) ht, h.end_le.trans (by omega)⟩

end Housing

/-! ## Growing calls -/

/-- **A growing call leaves the heap in order.** The induction is on the bound, for the
restarts. -/
theorem Orderly.ksbrk (n : Nat) {k k' : Kernel} {size r : U32} (h : Orderly k)
    (hpos : 0 < size.toInt) (hwrap : k.heap.heapCurr.toNat + size.toNat < 2 ^ 32)
    (hk : Kernel.ksbrk n k size = some (k', r)) : Orderly k' := by
  refine ⟨(h.toTableOrder.ksbrk n hpos hk).toTableOrder,
    (ksbrk_grown n h.break_ok hpos hwrap hk).1.ok,
    (h.toTableOrder.tablesAdded n h.break_ok h.stacked hpos hwrap hk).2, ?_⟩
  induction n generalizing k k' size r with
  | zero => simp [Kernel.ksbrk] at hk
  | succ n ih =>
    rcases ksbrk_cases_of_pos hpos hk with ⟨-, -, rfl⟩ | ⟨-, -, rfl, -⟩ |
      ⟨hlt, hle, m, k₁, runner, hm, hpages, hcase⟩
    · exact h.backed
    · exact h.backed
    · cases hm
      obtain ⟨hnb, hnbmax⟩ := h.limits.toNat_newBoundary hpos hlt hle
      have hmin := h.limits.min_le
      have hhousing := (allocatePages_invariant (Housing k) (.of_orderly h) h.limits.aligned
        (by omega) (fun k₂ k₃ i hal hge hlt h₂ hk₂ => h₂.step hal (by omega) (by omega) hk₂)
        hpages).1
      rcases hcase with ⟨-, hrestart⟩ | ⟨-, -, rfl⟩
      · have hcurr := hhousing.curr_le
        have hlow : 0xC0400000 ≤ k.heap.heapCurr.toNat := h.break_ok.start_le
        exact ih hhousing.orderly hpos (by omega) hrestart
      · exact hhousing.backed

theorem Orderly.of_bounds (h : Orderly k) (hbounds : k'.heap.bounds = k.heap.bounds)
    (hempty : k'.heap.freelist = 0) (hvmm : k'.vmm = k.vmm) : Orderly k' := by
  obtain ⟨-, hend, hcurr, -, -⟩ := Heap.bounds_eq_iff.mp hbounds
  have hcurr := congrArg BitVec.toNat hcurr
  have hle := hcurr.trans_le h.curr_le
  refine ⟨⟨h.toGrowthOk.of_bounds hbounds hempty hvmm, ?_, hle⟩, h.break_ok.of_bounds hbounds,
    h.stacked.of_dirs (by rw [hvmm]) (by rw [hvmm]) hcurr.symm.le hle, ?_⟩
  · rw [hvmm]
    exact h.tablesOk
  · rw [hvmm, hend]
    exact h.backed

/-- A growing call that came back. -/
def GrowStep (k : Kernel) (c : HeapCall) (k' : Kernel) : Prop := k.Grows c ∧ HeapStep k c k'

theorem Orderly.step (h : Orderly k) {c : HeapCall} (hstep : GrowStep k c k') : Orderly k' := by
  obtain ⟨hgrows, hcall⟩ := hstep
  rcases h.toGrowthOk.grow_cases hgrows hcall with rfl | ⟨n, size, k₁, r, hpos, hwrap, hs, hcase⟩
  · exact h
  · have h₁ := h.ksbrk n hpos hwrap hs
    rcases hcase with rfl | rfl
    · exact h₁
    · exact h₁.of_bounds (bounds_withTail k₁ r size) (h₁.toGrowthOk.withTail r size).empty rfl

/-- After boot, with the bitmap in the memory of the kernel. -/
theorem orderly_kheapInit {k₀ : Kernel} (hbooted : Booted k₀ k)
    (hfits : BootFits k₀.vmm.pmm.bitmapEnd) (hkernel : 0xC0000000 ≤ k₀.vmm.pmm.bitmapEnd)
    (hempty : k₀.heap.freelist = 0) (hcurrent : k.vmm.currentPageDir = k.vmm.kernelPageDir) :
    Orderly k.kheapInit := by
  have hmapped : ∀ a : U32, 0xC0000000 ≤ a.toNat → a.toNat < 0xC0C00000 →
      k.vmm.Mapped k.vmm.kernelPageDir a := by
    intro a hlo hhi
    obtain ⟨hs, hva⟩ := bootPage_of_kernel hlo hhi
    exact hbooted.mapped hfits.room (by omega) hva
  refine ⟨tableOrder_kheapInit hbooted hfits.room hempty, breakOk_kheapInit k,
    stacked_kheapInit hbooted hfits, hcurrent, hmapped, fun i hi => ?_⟩
  obtain ⟨t, ht, -, htable⟩ := hbooted.exists_bootTable hi
  have hval := bootTable_toNat hfits.room ht
  have hbound : bootDir k₀.vmm.pmm.bitmapEnd + 0x6000 ≤ 0xC0400000 := hfits
  have hdir : bootDir k₀.vmm.pmm.bitmapEnd = (k₀.vmm.pmm.bitmapEnd / 4096 + 1) * 4096 := rfl
  show ((k.vmm.dirs k.vmm.kernelPageDir).refTables i).toNat % 4096 = 0 ∧
    k.vmm.Mapped k.vmm.kernelPageDir ((k.vmm.dirs k.vmm.kernelPageDir).refTables i)
  rw [htable]
  exact ⟨by omega, hmapped _ (by omega) (by omega)⟩

end Kernel

end PiggyOS
