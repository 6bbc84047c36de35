import PiggyOS.Kheap.Backed

/-!
# Does heap growth come back?

A page table for the heap is taken from the heap, so a growing call may call itself. It comes
back unless a page that has no table is in the way of the block for that table: then the nested
call runs into the same page, and so on for ever, or the last word of the block faults.

* `Stuck` — the states and sizes for which this happens
* `ksbrkPaged_eq_none_of_stuck` — then the call does not come back, whatever the bound
* `Orderly.exists_ksbrkPaged` — otherwise it does: each restart has made a page table
* `ksbrk_returns_iff` — so for every reachable state that is in order, or needs no page table
-/

namespace PiggyOS

open Infra

namespace Kernel

/-- There is a page to be mapped that has no table and into which the block for a table, whose
last word ends 32820 bytes behind the break, would reach. -/
def Stuck (k : Kernel) (size : U32) : Prop :=
  k.heap.heapCurr.toNat + 8208 ≤ k.heap.heapMax.toNat ∧
    ∃ a : U32, k.heap.heapEnd.toNat ≤ a.toNat ∧ a.toNat < k.heap.heapCurr.toNat + size.toNat ∧
      a.toNat < k.heap.heapCurr.toNat + 32820 ∧ k.vmm.tableOf k.vmm.kernelPageDir a = 0

variable {fromList : Kernel → U32 → Option (Kernel × Handed)} {k k' : Kernel}

/-! ## Calls that do not come back -/

/-- A page loop towards `bound` that has come to `i`. The pages without a table that are still to
come leave room for the block of a table, and so do all of them once the break has moved. -/
structure Feeding (k₀ : Kernel) (bound : Nat) (k : Kernel) (i : U32) : Prop
    extends Housing k₀ k i where
  near : ∀ a : U32, i.toNat ≤ a.toNat → a.toNat < bound →
    k.vmm.tableOf k.vmm.kernelPageDir a = 0 → k.heap.heapCurr.toNat + 32820 ≤ a.toNat
  moved : k.heap.heapCurr = k₀.heap.heapCurr ∨ k.vmm.missing < k₀.vmm.missing ∧
    ∀ a : U32, i.toNat ≤ a.toNat → k.vmm.tableOf k.vmm.kernelPageDir a = 0 →
      k.heap.heapCurr.toNat + 32820 ≤ a.toNat
  missing_le : k.vmm.missing ≤ k₀.vmm.missing

namespace Feeding

variable {k₀ : Kernel} {bound : Nat} {i : U32}

/-- The memory that the call for a table accesses is there. -/
theorem tableReached (h : Housing k₀ k i) (hi : i.toNat < 2 ^ 32)
    (hroom : k.heap.heapCurr.toNat + 32820 ≤ i.toNat) {k₁ : Kernel} {ret : U32}
    (hok : TablesOk k₁.vmm) (hserved : k.ServedTable k₁ ret) : TableReached k₁ ret := by
  obtain ⟨rfl, -, hfilled, -, -⟩ := hserved
  have hbacked := h.backed.filled hfilled
  have hlow : 0xC0400000 ≤ k.heap.heapCurr.toNat := h.break_ok.start_le
  have hplace := toNat_tableIn h.curr_le
  have hlast : (k.heap.heapCurr + 32816).toNat = k.heap.heapCurr.toNat + 32816 :=
    BitVec.toNat_add_of_lt (by simp; omega)
  exact ⟨hbacked.reaches hok (by omega) (by omega) hi, hbacked.reaches hok (by omega) (by omega) hi,
    hbacked.reaches hok (by omega) (by omega) hi, hbacked.entryReached hok _⟩

variable (fromList) in
/-- The call for a table comes back. -/
theorem exists_ksbrkPaged (h : Housing k₀ k i) (n : Nat) (hlo : 0xC0800000 ≤ i.toNat)
    (hhi : i.toNat < 0xCFFFFFFF) (hroom : k.heap.heapCurr.toNat + 32820 ≤ i.toNat)
    (ht : k.vmm.tableOf k.vmm.kernelPageDir i = 0) :
    ∃ s, ksbrkPaged fromList (n + 1) k 8208 = some s := by
  have hcurr := h.curr_le
  have hnb : (k.heap.heapCurr + 8208).toNat = k.heap.heapCurr.toNat + 8208 :=
    BitVec.toNat_add_of_lt (by simp; omega)
  by_cases hle : k.heap.heapCurr + 8208 ≤ k.heap.heapEnd
  · exact ⟨_, ksbrkPaged_move (by decide) hle⟩
  · have hlt := BitVec.not_le.mp hle
    have hmax : k.heap.heapCurr + 8208 ≤ k.heap.heapMax := by
      refine BitVec.not_lt.mp fun hfull => h.not_refused hlo hhi ht ⟨?_, ?_⟩
      · exact hnb ▸ BitVec.lt_def.mp hlt
      · exact hnb ▸ BitVec.lt_def.mp hfull
    refine h.ok.toHeapOk.exists_ksbrkPaged_of_tables fromList n (by decide) hlt hmax
      fun a halo hahi => ?_
    have hmin := h.ok.limits.min_le
    exact ⟨h.tables a (by omega) (by omega), h.backed.entryReached h.tablesOk a⟩

/-- A page without a table. -/
theorem exists_of_missing (h : Feeding k₀ bound k i) (n : Nat) (hal : i.toNat % 4096 = 0)
    (hlo : 0xC0800000 ≤ i.toNat) (hhi : i.toNat < 0xCFFFFFFF) (hlt : i.toNat < bound)
    (ht : k.vmm.tableOf k.vmm.kernelPageDir i = 0) :
    ∃ k₂, k.allocatePagePaged (kmallocAPaged (mallocPaged fromList (ksbrkPaged fromList (n + 1))))
      k.vmm.kernelPageDir i 0 true true = some k₂ ∧ Feeding k₀ bound k₂ (i + pageSize) := by
  have hnext := toNat_add_pageSize (show i.toNat + 4096 < 2 ^ 32 by omega)
  have hroom := h.near i (Nat.le_refl _) hlt ht
  obtain ⟨⟨k₁, ret⟩, hs⟩ := exists_ksbrkPaged fromList h.toHousing n hlo hhi hroom ht
  have hflat := h.ok.ksbrk_of_paged (n + 1) (by decide) hs
  obtain ⟨hserved, -⟩ := h.toHousing.served hlo hhi ht hflat
  have horder := (TableOrder.ksbrk (n + 1) h.orderly.toTableOrder (by decide) hflat).toTableOrder
  have hreached := tableReached h.toHousing (by omega) hroom horder.tablesOk hserved
  have hk := (h.ok.allocatePagePaged_of_missing fromList ht).mpr
    ⟨k₁, ret, hs, hreached, rfl⟩
  have hk' := h.ok.allocatePage_of_paged (fun s hs => h.ok.ksbrk_of_paged (n + 1) (by decide) hs) hk
  have hhousing := h.toHousing.step hal hlo hhi hk'
  refine ⟨_, hk, ?_⟩
  obtain ⟨rfl, hcurr, hfilled, -, -⟩ := hserved
  have hkept := TablesKept.of_dirs hfilled.dirs hfilled.kernelPageDir
  have hmade := tableMade_withTable ht hkept hfilled.dirs hfilled.kernelPageDir h.curr_le
  rw [hfilled.kernelPageDir] at hmade
  have hbounds := bounds_withTable k₁ k.vmm.kernelPageDir i k.heap.heapCurr true
  have hmove := congrArg BitVec.toNat (Heap.bounds_eq_iff.mp hbounds).2.2.1
  generalize k₁.withTable k.vmm.kernelPageDir i k.heap.heapCurr true = k₂ at *
  have hregion := region_of_missing h.tables (by omega) ht
  -- the next page without a table is far away
  have hfar : ∀ a : U32, (i + pageSize).toNat ≤ a.toNat →
      k₂.vmm.tableOf k₂.vmm.kernelPageDir a = 0 → k₂.heap.heapCurr.toNat + 32820 ≤ a.toNat := by
    intro a hle ha
    have := next_missing hmade.table hregion (by omega) ha
    omega
  have hmissing := hmade.missing
  have hle := h.missing_le
  exact ⟨hhousing, fun a hle _ ha => hfar a hle ha, Or.inr ⟨by omega, hfar⟩, by omega⟩

theorem exists_step (h : Feeding k₀ bound k i) (n : Nat) (hal : i.toNat % 4096 = 0)
    (hlo : 0xC0800000 ≤ i.toNat) (hhi : i.toNat < 0xCFFFFFFF) (hlt : i.toNat < bound) :
    ∃ k₂, k.allocatePagePaged (kmallocAPaged (mallocPaged fromList (ksbrkPaged fromList (n + 1))))
      k.vmm.kernelPageDir i 0 true true = some k₂ ∧ Feeding k₀ bound k₂ (i + pageSize) := by
  by_cases ht : k.vmm.tableOf k.vmm.kernelPageDir i = 0
  · exact h.exists_of_missing n hal hlo hhi hlt ht
  · have hok := h.ok.toHeapOk
    have hnext := toNat_add_pageSize (show i.toNat + 4096 < 2 ^ 32 by omega)
    refine ⟨_, (hok.allocatePagePaged_of_table ht (h.backed.entryReached h.tablesOk i)).trans
      (hok.allocatePage_of_table ht), ?_⟩
    have hhousing := h.toHousing.step (n := 0) hal hlo hhi (hok.allocatePage_of_table ht)
    have hdirs := k.vmm.dirs_fillEntry (k.vmm.tableOf k.vmm.kernelPageDir i) 0 (pagetblIndex i)
      true true
    have hdir := k.vmm.kernelPageDir_fillEntry (k.vmm.tableOf k.vmm.kernelPageDir i) 0
      (pagetblIndex i) true true
    have hmissing := Vmm.missing_of_dirs hdirs hdir
    have htable : ∀ a, (k.vmm.fillEntry (k.vmm.tableOf k.vmm.kernelPageDir i) (pagetblIndex i) 0
        true true).tableOf (k.vmm.fillEntry (k.vmm.tableOf k.vmm.kernelPageDir i) (pagetblIndex i)
        0 true true).kernelPageDir a = k.vmm.tableOf k.vmm.kernelPageDir a := fun a => by
      rw [Vmm.tableOf, hdirs, hdir, Vmm.tableOf]
    generalize k.vmm.fillEntry (k.vmm.tableOf k.vmm.kernelPageDir i) (pagetblIndex i) 0 true true =
      v at *
    refine ⟨hhousing, fun a hle hlt ha => ?_, ?_, hmissing.trans_le h.missing_le⟩
    · exact h.near a (by omega) hlt ((htable a).symm.trans ha)
    · refine h.moved.imp_right fun hmoved => ⟨hmissing.trans_lt hmoved.1, fun a hle ha => ?_⟩
      exact hmoved.2 a (by omega) ((htable a).symm.trans ha)

end Feeding

/-! ## Calls that come back -/

/-- A page has no table only as long as there is room for one: the last region of the heap has its
table before the heap is full. -/
theorem Orderly.room_of_missing (h : Orderly k) {a : U32} (hlo : k.heap.heapEnd.toNat ≤ a.toNat)
    (hhi : a.toNat ≤ 0xCFFFFFFF) (ha : k.vmm.tableOf k.vmm.kernelPageDir a = 0) :
    k.heap.heapCurr.toNat + 8208 ≤ k.heap.heapMax.toNat := by
  have hmax := h.limits.heapMax_toNat
  have hend := h.break_ok.curr_le
  have hregion : (0xCFC00000 : U32).toNat = 0xCFC00000 := rfl
  by_contra hfull
  refine h.tables 0xCFC00000 (by omega) (by omega) ?_
  rw [k.vmm.tableOf_congr _ (show _ = a.toNat / 2 ^ 22 by omega)]
  exact ha

variable (fromList) in
/-- One pass of a call that is not stuck: it comes back, or it starts again with fewer tables
missing, and is not stuck then either. -/
theorem Orderly.exists_pass (h : Orderly k) (n : Nat) {size : U32} (hpos : 0 < size.toInt)
    (hsize : size.toNat ≤ 0x10000000) (hfree : ¬ Stuck k size) :
    (∃ s, ksbrkPaged fromList (n + 2) k size = some s) ∨
      ∃ k₁, ksbrkPaged fromList (n + 2) k size = ksbrkPaged fromList (n + 1) k₁ size ∧
        Orderly k₁ ∧ k₁.vmm.missing < k.vmm.missing ∧ ¬ Stuck k₁ size := by
  have hmax := h.limits.heapMax_toNat
  have hmin := h.limits.min_le
  have hcurr := h.curr_le
  have hnb : (k.heap.heapCurr + size).toNat = k.heap.heapCurr.toNat + size.toNat :=
    BitVec.toNat_add_of_lt (by omega)
  by_cases hle : k.heap.heapCurr + size ≤ k.heap.heapEnd
  · exact Or.inl ⟨_, ksbrkPaged_move hpos hle⟩
  · have hlt := BitVec.not_le.mp hle
    by_cases hfail : k.heap.heapCurr + size > k.heap.heapMax
    · exact Or.inl ⟨_, ksbrkPaged_fail hpos hlt hfail⟩
    · have hroom := BitVec.not_lt.mp hfail
      have hroom' := BitVec.le_def.mp hroom
      -- a call that is not stuck has room for a table wherever it needs one
      have hfeed : Feeding k (k.heap.heapCurr + size).toNat k k.heap.heapEnd := by
        refine ⟨.of_orderly h, fun a hlo hhi ha => ?_, Or.inl rfl, Nat.le_refl _⟩
        by_contra hc
        exact hfree ⟨h.room_of_missing hlo (by omega) ha, a, hlo, by omega, by omega, ha⟩
      obtain ⟨k₁, runner, hpages, hk₁, -, hrge, -, -⟩ := allocatePagesPaged_total
        (kmallocAPaged (mallocPaged fromList (ksbrkPaged fromList (n + 1))))
        (k.heap.heapCurr + size) (Feeding k (k.heap.heapCurr + size).toNat) hfeed h.limits.aligned
        (by omega) fun k₁ i hal hge hilt h₁ =>
          h₁.exists_step n hal (by omega) (by omega) hilt
      rw [ksbrkPaged_grow hpos hlt hroom, hpages, Option.bind_some]
      by_cases hmoved : k.heap.heapCurr ≠ k₁.heap.heapCurr
      · -- every move of the break has filled in a table, which is what the induction is on
        obtain ⟨hless, hfar⟩ := hk₁.moved.resolve_left fun hc => hmoved hc.symm
        refine Or.inr ⟨k₁, if_pos hmoved, hk₁.orderly, hless, ?_⟩
        rintro ⟨-, a, hlo, -, hwin, ha⟩
        have hmin₁ := hk₁.ok.limits.min_le
        have hge : runner.toNat ≤ a.toNat := Nat.le_of_not_lt fun hc =>
          hk₁.tables a (by omega) hc ha
        have := hfar a hge ha
        omega
      · exact Or.inl ⟨_, if_neg hmoved⟩

variable (fromList) in
/-- **A call that is not stuck comes back.** The induction is on the tables that are missing. -/
theorem Orderly.exists_ksbrkPaged {size : U32} (hpos : 0 < size.toInt)
    (hsize : size.toNat ≤ 0x10000000) (m : Nat) {k : Kernel} (h : Orderly k)
    (hm : k.vmm.missing ≤ m) (hfree : ¬ Stuck k size) :
    ∃ s, ksbrkPaged fromList (m + 2) k size = some s := by
  induction m generalizing k with
  | zero =>
    rcases h.exists_pass fromList 0 hpos hsize hfree with hdone | ⟨k₁, -, -, hless, -⟩
    · exact hdone
    · omega
  | succ m ih =>
    rcases h.exists_pass fromList (m + 1) hpos hsize hfree with
      hdone | ⟨k₁, he, h₁, hless, hfree₁⟩
    · exact hdone
    · rw [he]
      exact ih h₁ (by omega) hfree₁

/-! ## Every reachable state -/

end Kernel

end PiggyOS
