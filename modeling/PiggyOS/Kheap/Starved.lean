import Mathlib.Data.Finset.Card
import Mathlib.Data.Fintype.Card
import PiggyOS.Kheap.Growth
import PiggyOS.Vmm.Boot

/-!
# Growing calls and missing page tables

A page table for the heap is taken from the heap, so a growing call may call itself. If the page
without a table is one of those that have to be mapped to make room for that table, the nested
call runs into the same page, and so on for ever.

* `Starved` — the states and sizes for which this happens
* `ksbrk_eq_none_of_starved` — then the call does not come back, whatever the bound
* `HeapOk.exists_ksbrk_of_tables` — a call that finds its tables does
* `Vmm.missing` — what each table that is made brings down
-/

namespace PiggyOS

open Infra

/-- The number of regions for which the kernel's directory has no table. -/
def Vmm.missing (v : Vmm) : Nat :=
  (Finset.univ.filter fun i => (v.dirs v.kernelPageDir).refTables i = 0).card

theorem Vmm.missing_of_dirs {v v' : Vmm} (hdirs : v'.dirs = v.dirs)
    (hdir : v'.kernelPageDir = v.kernelPageDir) : v'.missing = v.missing := by
  unfold missing
  rw [hdirs, hdir]

/-- Of the tables looked at, one less is missing when one is made. -/
theorem card_missing_update {f g : Fin 1024 → U32} {i : Fin 1024} {table : U32}
    (P : Fin 1024 → Prop) [DecidablePred P] (hne : table ≠ 0) (hi : f i = 0) (hP : P i)
    (h : g = Function.update f i table) :
    (Finset.univ.filter fun j => g j = 0 ∧ P j).card + 1 =
      (Finset.univ.filter fun j => f j = 0 ∧ P j).card := by
  have herase : (Finset.univ.filter fun j => g j = 0 ∧ P j) =
      (Finset.univ.filter fun j => f j = 0 ∧ P j).erase i := by
    ext j
    rw [Finset.mem_erase, Finset.mem_filter, Finset.mem_filter, h]
    by_cases hj : j = i
    · rw [hj, Function.update_self]
      exact ⟨fun hc => absurd hc.2.1 hne, fun hc => absurd rfl hc.1⟩
    · rw [Function.update_of_ne hj]
      simp [hj]
  rw [herase, Finset.card_erase_add_one (Finset.mem_filter.mpr ⟨Finset.mem_univ i, hi, hP⟩)]

/-- A new table. -/
theorem Vmm.missing_of_update {v v' : Vmm} {i : Fin 1024} {table : U32} (hne : table ≠ 0)
    (hi : (v.dirs v.kernelPageDir).refTables i = 0)
    (h : (v'.dirs v'.kernelPageDir).refTables =
      Function.update (v.dirs v.kernelPageDir).refTables i table) :
    v'.missing + 1 = v.missing := by
  simpa [missing] using card_missing_update (fun _ => True) hne hi trivial h

namespace Kernel

/-- There is a page to be mapped that has no table and has to be mapped as well to make room
for a table. -/
def Starved (k : Kernel) (size : U32) : Prop :=
  k.heap.heapCurr.toNat + 8208 ≤ k.heap.heapMax.toNat ∧
    ∃ a : U32, k.heap.heapEnd.toNat ≤ a.toNat ∧ a.toNat < k.heap.heapCurr.toNat + size.toNat ∧
      a.toNat < k.heap.heapCurr.toNat + 8208 ∧ k.vmm.tableOf k.vmm.kernelPageDir a = 0

variable {k k' : Kernel}

/-! ## Calls that do not come back -/

theorem ne_zero_of_toInt_pos {size : U32} (hpos : 0 < size.toInt) : size ≠ 0 := by
  rintro rfl
  exact absurd hpos (by decide)

theorem ksbrk_move {n : Nat} {size : U32} (hpos : 0 < size.toInt)
    (hle : k.heap.heapCurr + size ≤ k.heap.heapEnd) :
    ksbrk (n + 1) k size =
      some ({ k with heap := { k.heap with heapCurr := k.heap.heapCurr + size } },
        k.heap.heapCurr) := by
  rw [ksbrk, ksbrkWith, if_neg (ne_zero_of_toInt_pos hpos), if_pos hpos]
  exact if_pos hle

theorem ksbrk_fail {n : Nat} {size : U32} (hpos : 0 < size.toInt)
    (hlt : k.heap.heapEnd < k.heap.heapCurr + size)
    (hfail : k.heap.heapMax < k.heap.heapCurr + size) : ksbrk (n + 1) k size = some (k, 0) := by
  rw [ksbrk, ksbrkWith, if_neg (ne_zero_of_toInt_pos hpos), if_pos hpos]
  dsimp only
  rw [if_neg (BitVec.not_le.mpr hlt), if_pos hfail]

theorem ksbrk_grow {n : Nat} {size : U32} (hpos : 0 < size.toInt)
    (hlt : k.heap.heapEnd < k.heap.heapCurr + size)
    (hle : k.heap.heapCurr + size ≤ k.heap.heapMax) :
    ksbrk (n + 1) k size =
      (k.allocatePages (fun k sz => k.kmallocAWith (ksbrk n) sz) true (k.heap.heapCurr + size)
        k.heap.heapEnd).bind fun s =>
        if k.heap.heapCurr ≠ s.1.heap.heapCurr then ksbrk n s.1 size
        else some ({ s.1 with
          heap := { s.1.heap with heapEnd := s.2, heapCurr := k.heap.heapCurr + size } },
          k.heap.heapCurr) := by
  rw [ksbrk, ksbrkWith, if_neg (ne_zero_of_toInt_pos hpos), if_pos hpos]
  dsimp only
  rw [if_neg (BitVec.not_le.mpr hlt), if_neg (BitVec.not_lt.mpr hle)]

/--
**A starved call does not come back.** The page loop maps the pages up to the first one without
a table and calls for a table there, and that call is starved by the same page.
-/
theorem ksbrk_eq_none_of_starved (n : Nat) {k : Kernel} {size : U32} (h : GrowthOk k)
    (hpos : 0 < size.toInt) (hle : k.heap.heapCurr.toNat + size.toNat ≤ k.heap.heapMax.toNat)
    (hstarved : Starved k size) : ksbrk n k size = none := by
  induction n generalizing k size with
  | zero => rfl
  | succ n ih =>
    obtain ⟨hroom, a, hlo, hhi, hwin, ha⟩ := hstarved
    have hmax := h.limits.heapMax_toNat
    have hnb : (k.heap.heapCurr + size).toNat = k.heap.heapCurr.toNat + size.toNat :=
      BitVec.toNat_add_of_lt (by omega)
    rw [ksbrk_grow hpos (BitVec.lt_def.mpr (by omega)) (BitVec.le_def.mpr (by omega))]
    -- the loop has come to `i`, at or below the page of `a`, and has made no table
    let Inv : Kernel × U32 → Prop := fun s => GrowthOk s.1 ∧ s.1.heap = k.heap ∧
      s.1.vmm.dirs = k.vmm.dirs ∧ s.1.vmm.kernelPageDir = k.vmm.kernelPageDir ∧
      s.2.toNat % 4096 = 0 ∧ k.heap.heapEnd.toNat ≤ s.2.toNat ∧ s.2.toNat ≤ a.toNat
    have hloop : k.allocatePages (fun k sz => k.kmallocAWith (ksbrk n) sz) true
        (k.heap.heapCurr + size) k.heap.heapEnd = none := by
      refine loop_eq_none Inv ?_ _ _ ⟨h, rfl, rfl, rfl, h.limits.aligned, Nat.le_refl _, hlo⟩
      rintro ⟨k₁, i⟩ ⟨h₁, hheap, hdirs, hdir, hal, hge, hia⟩
      dsimp only at h₁ hheap hdirs hdir hal hge hia ⊢
      refine ⟨decide_eq_true (BitVec.lt_def.mpr (by omega)), fun s' hs' => ?_⟩
      obtain ⟨k₂, hk₂, rfl⟩ := Option.map_eq_some_iff.mp hs'
      by_cases ht : k₁.vmm.tableOf k₁.vmm.kernelPageDir i = 0
      · -- `i` is below `a`, so it starves the call for the table as well
        have hstarved : Starved k₁ 8208 := by
          refine ⟨by rw [hheap]; exact hroom, i, by rw [hheap]; exact hge, ?_, ?_, ht⟩
          · rw [hheap]
            show i.toNat < k.heap.heapCurr.toNat + 8208
            omega
          · rw [hheap]
            omega
        rw [h₁.allocatePage_of_missing ht, ih h₁ (by decide) (by rw [hheap]; exact hroom)
          hstarved] at hk₂
        cases hk₂
      · rw [h₁.toHeapOk.allocatePage_of_table ht] at hk₂
        cases hk₂
        have hkept := TablesKept.fillEntry k₁.vmm (k₁.vmm.tableOf k₁.vmm.kernelPageDir i)
          (pagetblIndex i) 0 true true
        -- the page of `a` has no table, so it is still to come
        have hpage : a.toNat / 4096 ≠ i.toNat / 4096 := fun hc => by
          rw [Vmm.tableOf_congr _ _ (show i.toNat / 2 ^ 22 = a.toNat / 2 ^ 22 by omega),
            Vmm.tableOf, hdirs, hdir] at ht
          exact ht ha
        have hnext : (i + pageSize).toNat = i.toNat + 4096 := toNat_add_pageSize (by omega)
        refine ⟨h₁.of_tablesKept hkept, hheap, ?_, ?_, ?_, ?_, ?_⟩
        · exact (Vmm.dirs_fillEntry _ _ _ _ _ _).trans hdirs
        · exact (Vmm.kernelPageDir_fillEntry _ _ _ _ _ _).trans hdir
        all_goals dsimp only; omega
    rw [hloop]
    rfl

/-! ## Calls that make no table -/

/-- If every page to be mapped has its table, the page loop leaves the heap and the directories
alone, and the call comes back. -/
theorem HeapOk.exists_ksbrk_of_tables (h : HeapOk k) (n : Nat) {size : U32} (hpos : 0 < size.toInt)
    (hlt : k.heap.heapEnd < k.heap.heapCurr + size)
    (hle : k.heap.heapCurr + size ≤ k.heap.heapMax)
    (htables : ∀ a : U32, k.heap.heapEnd.toNat ≤ a.toNat →
      a.toNat < (k.heap.heapCurr + size).toNat → k.vmm.tableOf k.vmm.kernelPageDir a ≠ 0) :
    ∃ v runner, Kernel.ksbrk (n + 1) k size = some (⟨v, { k.heap with
        heapEnd := runner
        heapCurr := k.heap.heapCurr + size }⟩, k.heap.heapCurr) ∧
      k.vmm.Filled v k.heap.heapEnd.toNat (k.heap.heapCurr + size).toNat ∧
      runner.toNat % 4096 = 0 ∧
      (runner = k.heap.heapEnd ∨ runner.toNat < (k.heap.heapCurr + size).toNat + 4096) := by
  obtain ⟨-, hnbmax⟩ := h.limits.toNat_newBoundary hpos hlt hle
  let P : Kernel → U32 → Prop := fun k₁ i => k₁.heap = k.heap ∧
    k.vmm.Filled k₁.vmm k.heap.heapEnd.toNat i.toNat
  have hpage : ∀ (k₁ : Kernel) (i : U32), i.toNat % 4096 = 0 → k.heap.heapEnd.toNat ≤ i.toNat →
      i.toNat < (k.heap.heapCurr + size).toNat → P k₁ i →
      ∃ k₂, k₁.allocatePage (fun k sz => k.kmallocAWith (Kernel.ksbrk n) sz)
        k₁.vmm.kernelPageDir i 0 true true = some k₂ ∧ P k₂ (i + pageSize) := by
    rintro k₁ i hal hge hilt ⟨hheap, hfilled⟩
    have h₁ : HeapOk k₁ := h.of_bounds (by rw [hheap]) hfilled.kernelPageDir
    have ht := htables i hge hilt
    exact ⟨_, h₁.allocatePage_of_table ((hfilled.tableOf i).trans_ne ht), hheap,
      hfilled.next hal (by omega) hge ht 0 true true⟩
  obtain ⟨⟨v, heap⟩, runner, hpages, ⟨hheap, hfilled⟩, hral, hrge, -, hrange⟩ :=
    allocatePages_total P ⟨rfl, .of_le _ (Nat.le_refl _)⟩ h.limits.aligned (by omega) hpage
  dsimp only at hheap hfilled
  subst hheap
  refine ⟨v, runner, ?_, hfilled.of_bound h.limits.aligned hral hrge ?_, hral, hrange⟩
  · rw [ksbrk_grow hpos hlt hle, hpages, Option.bind_some]
    exact if_neg (not_not.mpr rfl)
  · exact hrange.imp_left fun he => by rw [he]

/-! ## Pages without a table -/

/-- The first page without a table starts a region. -/
theorem region_of_missing {v : Vmm} {i : U32} (h : TablesTo v i.toNat)
    (hlo : 0xC0800000 ≤ i.toNat) (hi : v.tableOf v.kernelPageDir i = 0) : i.toNat % 2 ^ 22 = 0 := by
  by_contra hc
  have hprev : (i - 1).toNat = i.toNat - 1 :=
    BitVec.toNat_sub_of_le (BitVec.le_def.mpr (show 1 ≤ i.toNat by omega))
  have hregion : (i - 1).toNat / 2 ^ 22 = i.toNat / 2 ^ 22 := by omega
  refine h (i - 1) (by omega) (by omega) ?_
  rw [v.tableOf_congr v.kernelPageDir hregion]
  exact hi

/-- The next page without a table is in another region. -/
theorem next_missing {v : Vmm} {i a : U32} (hi : v.tableOf v.kernelPageDir i ≠ 0)
    (hregion : i.toNat % 2 ^ 22 = 0) (hle : i.toNat ≤ a.toNat)
    (ha : v.tableOf v.kernelPageDir a = 0) : i.toNat + 2 ^ 22 ≤ a.toNat := by
  have hne : a.toNat / 2 ^ 22 ≠ i.toNat / 2 ^ 22 := fun hc =>
    hi ((v.tableOf_congr v.kernelPageDir hc).symm.trans ha)
  omega

/-- What a step for a page without a table does to the tables: the page has one afterwards. -/
structure TableMade (k k₂ : Kernel) (i : U32) : Prop where
  kept : TablesKept k.vmm k₂.vmm
  table : k₂.vmm.tableOf k₂.vmm.kernelPageDir i ≠ 0
  missing : k₂.vmm.missing + 1 = k.vmm.missing

theorem tableMade_withTable {k₁ : Kernel} {i r : U32} (ht : k.vmm.tableOf k.vmm.kernelPageDir i = 0)
    (hkept : TablesKept k.vmm k₁.vmm) (hdirs : k₁.vmm.dirs = k.vmm.dirs)
    (hdir : k₁.vmm.kernelPageDir = k.vmm.kernelPageDir) (hr : r.toNat ≤ 0xD0000000) :
    TableMade k (k₁.withTable k₁.vmm.kernelPageDir i r true) i := by
  have hrefs := refTables_withTable (i := i) k₁ true r
  rw [hdirs, hdir] at hrefs
  refine ⟨hkept.trans (tablesKept_withTable k₁ true hr), ?_, ?_⟩
  · rw [tableOf_withTable]
    exact tableIn_ne_zero hr
  · exact Vmm.missing_of_update (tableIn_ne_zero hr) ht (by rw [← hrefs, hdir])

/-! ## After boot -/

theorem growthOk_kheapInit {k₀ : Kernel} (hbooted : Booted k₀ k)
    (hroom : BootRoom k₀.vmm.pmm.bitmapEnd) (hempty : k₀.heap.freelist = 0) :
    GrowthOk k.kheapInit := by
  refine ⟨⟨(breakOk_kheapInit k).toLimits, rfl, hbooted.dir_ne_zero hroom⟩, ?_, ?_⟩
  · show k.heap.freelist = 0
    rw [hbooted.heap]
    exact hempty
  · intro a hlo hhi
    have hhi : a.toNat < 0xC0C00000 := hhi
    obtain ⟨hs, hva⟩ := bootPage_of_kernel (by omega) hhi
    exact (hbooted.mapped hroom (by omega) hva).1

end Kernel

end PiggyOS
