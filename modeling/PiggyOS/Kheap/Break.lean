import PiggyOS.Infra.Run
import PiggyOS.Kheap.Frame
import PiggyOS.Vmm.Pages

/-!
# The break

`ksbrk` moves the break inside `[heap_start, heap_end]`, mapping pages when the end of the
heap has to move up.

* `ksbrk_grown` — a growing call keeps the bounds in order, nested allocations of page tables
  and restarts included
* `ksbrkShrink_spec` — what a call with a negative size does, which subtracts the negative
  size from the break
* `sbrkOk_of_safe_run` — the runs in which the bounds stay in order and every call does what it
  owes its caller
-/

namespace PiggyOS

open Infra

@[simp] theorem kheapStart_toNat : Kernel.kheapStart.toNat = 0xC0400000 := rfl

@[simp] theorem kheapMaxAddress_toNat : Kernel.kheapMaxAddress.toNat = 0xCFFFFFFF := rfl

@[simp] theorem kheapMinSize_toNat : Kernel.kheapMinSize.toNat = 0x400000 := rfl

/-! ## The bounds in order -/

/-- The heap has the limits of `kernel_main`, and its end is a page boundary that has not
passed the upper one by more than a page. -/
structure Heap.Limits (h : Heap) : Prop where
  start : h.heapStart = Kernel.kheapStart
  max : h.heapMax = Kernel.kheapMaxAddress
  min_le : 0xC0800000 ≤ h.heapEnd.toNat
  end_le : h.heapEnd.toNat ≤ 0xD0000000
  aligned : h.heapEnd.toNat % 4096 = 0

/-- The break lies in the heap. -/
structure Heap.BreakOk (h : Heap) : Prop extends h.Limits where
  start_le : Kernel.kheapStart.toNat ≤ h.heapCurr.toNat
  curr_le : h.heapCurr.toNat ≤ h.heapEnd.toNat

theorem Heap.Limits.heapStart_ne_zero {h : Heap} (hl : h.Limits) : h.heapStart ≠ 0 := by
  rw [hl.start]
  decide

theorem Heap.Limits.heapMax_toNat {h : Heap} (hl : h.Limits) : h.heapMax.toNat = 0xCFFFFFFF := by
  rw [hl.max, kheapMaxAddress_toNat]

/-- When the page loop runs, the new break is at most the upper limit: the sum has not wrapped. -/
theorem Heap.Limits.toNat_newBoundary {h : Heap} (hl : h.Limits) {size : U32}
    (hpos : 0 < size.toInt) (hlt : h.heapEnd < h.heapCurr + size)
    (hle : h.heapCurr + size ≤ h.heapMax) :
    (h.heapCurr + size).toNat = h.heapCurr.toNat + size.toNat ∧
      (h.heapCurr + size).toNat ≤ 0xCFFFFFFF := by
  have hmin := hl.min_le
  have hlt := BitVec.lt_def.mp hlt
  have hle := BitVec.le_def.mp hle
  rw [hl.heapMax_toNat] at hle
  have hsize : 2 * size.toNat < 2 ^ 32 := BitVec.toInt_pos_iff.mp (Int.le_of_lt hpos)
  have hcurr := h.heapCurr.isLt
  refine ⟨?_, hle⟩
  rw [BitVec.toNat_add] at hlt ⊢
  omega

theorem Heap.BreakOk.of_bounds {h h' : Heap} (hok : h.BreakOk) (he : h'.bounds = h.bounds) :
    h'.BreakOk := by
  obtain ⟨h1, h2, h3, h4, -⟩ := Heap.bounds_eq_iff.mp he
  obtain ⟨⟨hstart, hmax, hmin, hend, hal⟩, hlo, hhi⟩ := hok
  rw [← h1] at hstart
  rw [← h4] at hmax
  rw [← h2] at hmin hend hal hhi
  rw [← h3] at hlo hhi
  exact ⟨⟨hstart, hmax, hmin, hend, hal⟩, hlo, hhi⟩

theorem Kernel.breakOk_kheapInit (k : Kernel) : k.kheapInit.heap.BreakOk := by
  have hend : k.kheapInit.heap.heapEnd.toNat = 0xC0C00000 := rfl
  have hcurr : k.kheapInit.heap.heapCurr.toNat = 0xC0400000 := rfl
  refine ⟨⟨rfl, rfl, ?_, ?_, ?_⟩, Nat.le_refl _, ?_⟩ <;> omega

/-- `h'` has its bounds in order too, and neither the break nor the end is below that of `h`. -/
structure Heap.Grown (h h' : Heap) : Prop where
  ok : h'.BreakOk
  curr : h.heapCurr.toNat ≤ h'.heapCurr.toNat
  end_ : h.heapEnd.toNat ≤ h'.heapEnd.toNat

theorem Heap.BreakOk.grown_of_bounds {h h' : Heap} (hok : h.BreakOk)
    (he : h'.bounds = h.bounds) : h.Grown h' := by
  obtain ⟨-, h2, h3, -, -⟩ := Heap.bounds_eq_iff.mp he
  exact ⟨hok.of_bounds he, by rw [h3], by rw [h2]⟩

theorem Heap.BreakOk.refl {h : Heap} (hok : h.BreakOk) : h.Grown h := hok.grown_of_bounds rfl

theorem Heap.Grown.trans {h₁ h₂ h₃ : Heap} (h : h₁.Grown h₂) (h' : h₂.Grown h₃) :
    h₁.Grown h₃ :=
  ⟨h'.ok, Nat.le_trans h.curr h'.curr, Nat.le_trans h.end_ h'.end_⟩

namespace Kernel

variable {kmallocA : TableSource} {k k' : Kernel}

/-! ## Mapping pages -/

/-- What `allocate_page` does to the heap it does through `kmalloc_a`. -/
theorem heap_allocatePage {dir va frame : U32} {isKernel isWritable : Bool}
    (h : k.allocatePage kmallocA dir va frame isKernel isWritable = some k') :
    k'.heap = k.heap ∨ ∃ k₁ table, kmallocA k sizeofPageTable = some (k₁, table) ∧
      k'.heap = k₁.heap := by
  rcases allocatePage_cases h with ⟨-, rfl⟩ | ⟨-, -, rfl⟩ | ⟨-, -, k₁, table, hnew, rfl⟩
  · exact Or.inl rfl
  · exact Or.inl rfl
  · unfold newTable at hnew
    split at hnew
    · cases hnew
      exact Or.inl rfl
    · exact Or.inr ⟨k₁, table, hnew, rfl⟩

/-- The loop of `ksbrk` keeps the bounds in order if its page-table source does, and leaves
at a page boundary at or above the bound. -/
theorem allocatePages_grown {isWritable : Bool} {bound start runner : U32} (hok : k.heap.BreakOk)
    (hsource : ∀ k₁ k₂ table, k₁.heap.BreakOk →
      kmallocA k₁ sizeofPageTable = some (k₂, table) → k₁.heap.Grown k₂.heap)
    (hstart : start.toNat % 4096 = 0) (hstartle : start.toNat ≤ 0xD0000000)
    (hbound : bound.toNat ≤ 0xD0000000)
    (h : k.allocatePages kmallocA isWritable bound start = some (k', runner)) :
    k.heap.Grown k'.heap ∧ start.toNat ≤ runner.toNat ∧ bound.toNat ≤ runner.toNat ∧
      runner.toNat ≤ 0xD0000000 ∧ runner.toNat % 4096 = 0 := by
  obtain ⟨hg, hal, hge, hle, hrange⟩ := allocatePages_invariant
    (fun k₁ _ => k.heap.Grown k₁.heap) hok.refl hstart (by omega) (fun k₁ k₂ i _ _ _ hg hk => by
      rcases heap_allocatePage hk with he | ⟨k₃, table, hs, he⟩
      · rw [he]
        exact hg
      · rw [he]
        exact hg.trans (hsource k₁ k₃ table hg.ok hs)) h
  refine ⟨hg, hle, hge, ?_, hal⟩
  rcases hrange with rfl | hlt
  · exact hstartle
  · omega

/-! ## Growing -/

/-- `kmalloc_a` for a page table moves the break only through `ksbrk`. -/
theorem kmallocAWith_grown {sbrk : Kernel → U32 → Option (Kernel × U32)} {table : U32}
    (hsbrk : ∀ k₁ r, sbrk k 8208 = some (k₁, r) → k.heap.Grown k₁.heap)
    (hok : k.heap.BreakOk) (h : k.kmallocAWith sbrk sizeofPageTable = some (k', table)) :
    k.heap.Grown k'.heap := by
  rcases kmallocAWith_cases hok.heapStart_ne_zero h with ⟨best, -, -, rfl, -⟩ |
    ⟨-, k₁, ret, hs, rfl, -⟩
  · exact hok.grown_of_bounds (Heap.bounds_mallocBest _ _ _)
  · have hg := hsbrk k₁ ret hs
    exact hg.trans (hg.ok.grown_of_bounds (Heap.bounds_mallocTail _ _ _))

/--
**A growing call keeps the bounds in order.** It either returns NULL, or the break ends up
`size` above the address returned, which is at or above the old break.

The induction is on the bound of the nested calls: the allocation of a page table inside the
page loop is again a growing call, and so is a restart.
-/
theorem ksbrk_grown (n : Nat) {k k' : Kernel} {size r : U32} (hok : k.heap.BreakOk)
    (hpos : 0 < size.toInt) (hwrap : k.heap.heapCurr.toNat + size.toNat < 2 ^ 32)
    (h : ksbrk n k size = some (k', r)) :
    k.heap.Grown k'.heap ∧ (r = 0 ∨ (k.heap.heapCurr.toNat ≤ r.toNat ∧
      k'.heap.heapCurr.toNat = r.toNat + size.toNat)) := by
  induction n generalizing k k' size r with
  | zero => simp [ksbrk] at h
  | succ n ih =>
    have hnb : (k.heap.heapCurr + size).toNat = k.heap.heapCurr.toNat + size.toNat :=
      BitVec.toNat_add_of_lt hwrap
    have hcurr : 0xC0400000 ≤ k.heap.heapCurr.toNat := hok.start_le
    have hend := hok.curr_le
    rcases ksbrk_cases_of_pos hpos h with ⟨hle, rfl, rfl⟩ | ⟨-, -, rfl, rfl⟩ |
      ⟨hlt, hmax, m, k₁, runner, hm, hpages, hcase⟩
    · have hle' : (k.heap.heapCurr + size).toNat ≤ k.heap.heapEnd.toNat := hle
      refine ⟨⟨⟨⟨hok.start, hok.max, hok.min_le, hok.end_le, hok.aligned⟩, ?_, hle'⟩, ?_,
        Nat.le_refl _⟩, Or.inr ⟨Nat.le_refl _, hnb⟩⟩
      · show 0xC0400000 ≤ (k.heap.heapCurr + size).toNat
        omega
      · show k.heap.heapCurr.toNat ≤ (k.heap.heapCurr + size).toNat
        omega
    · exact ⟨hok.refl, Or.inl rfl⟩
    · have hmax' : (k.heap.heapCurr + size).toNat ≤ 0xCFFFFFFF := by
        rw [hok.max] at hmax
        exact hmax
      have hlt' : k.heap.heapEnd.toNat < (k.heap.heapCurr + size).toNat := hlt
      cases hm
      -- page tables come from growing calls of the bound below
      have hsource : ∀ (k₁ k₂ : Kernel) (table : U32), k₁.heap.BreakOk →
          k₁.kmallocAWith (ksbrk n) sizeofPageTable = some (k₂, table) →
          k₁.heap.Grown k₂.heap := by
        intro k₁ k₂ table hok₁ hk
        refine kmallocAWith_grown (fun k₃ r hs => ?_) hok₁ hk
        have h1 := hok₁.curr_le
        have h2 := hok₁.end_le
        have h3 : (8208 : U32).toNat = 8208 := rfl
        exact (ih hok₁ (by decide) (by omega) hs).1
      obtain ⟨hg, -, hge, hrle, hral⟩ := allocatePages_grown hok hsource hok.aligned hok.end_le
        (by omega) hpages
      rcases hcase with ⟨-, hrestart⟩ | ⟨hsame, rfl, rfl⟩
      · -- the break has moved up in between, and the restart grows from there
        have h1 := hg.ok.curr_le
        have h2 := hg.ok.end_le
        obtain ⟨hg', hres⟩ := ih hg.ok hpos (by omega) hrestart
        refine ⟨hg.trans hg', ?_⟩
        rcases hres with h0 | ⟨hr, he⟩
        · exact Or.inl h0
        · exact Or.inr ⟨Nat.le_trans hg.curr hr, he⟩
      · have hmin := hok.min_le
        refine ⟨⟨⟨⟨hg.ok.start, hg.ok.max, ?_, hrle, hral⟩, ?_, hge⟩, ?_, ?_⟩,
          Or.inr ⟨Nat.le_refl _, hnb⟩⟩
        · show 0xC0800000 ≤ runner.toNat
          omega
        · show 0xC0400000 ≤ (k.heap.heapCurr + size).toNat
          omega
        · show k.heap.heapCurr.toNat ≤ (k.heap.heapCurr + size).toNat
          omega
        · show k.heap.heapEnd.toNat ≤ runner.toNat
          omega

/-! ## Shrinking -/

theorem min_le_shrinkBoundary (hl : k.heap.Limits) (size : U32) :
    0xC0800000 ≤ (k.shrinkBoundary size).toNat := by
  have hmin : (k.heap.heapStart + kheapMinSize).toNat = 0xC0800000 := by rw [hl.start]; rfl
  unfold shrinkBoundary
  split
  · exact Nat.le_of_eq hmin.symm
  · next h =>
    rw [← hmin]
    exact BitVec.le_def.mp (BitVec.not_lt.mp h)

theorem ksbrk_of_neg {n : Nat} {size : U32} (hneg : size.toInt < 0) :
    ksbrk (n + 1) k size = k.ksbrkShrink size := by
  have hs : size ≠ 0 := fun hc => by rw [hc] at hneg; exact absurd hneg (by decide)
  rw [ksbrk, ksbrkWith, if_neg hs, if_neg (by omega)]

/-- A call with a negative size always comes back, with the break at the boundary. The end of
the heap moves down page by page, and whatever (`P`) the freed pages keep holds at the new one. -/
theorem ksbrkShrink_spec (size : U32) (hl : k.heap.Limits) (P : Vmm → U32 → Prop)
    (hinit : P k.vmm k.heap.heapEnd)
    (hstep : ∀ (v : Vmm) (i : U32), i.toNat % 4096 = 0 → i.toNat + 4096 ≤ k.heap.heapEnd.toNat →
      (k.shrinkBoundary size).toNat < i.toNat → P v (i + pageSize) →
      P (v.freePage v.kernelPageDir i true) i) :
    ∃ v e, k.ksbrkShrink size = some (⟨v, { k.heap with
          heapEnd := e
          heapCurr := k.shrinkBoundary size }⟩, k.heap.heapCurr) ∧
      P v e ∧ e.toNat % 4096 = 0 ∧ 0xC0800000 ≤ e.toNat ∧ e.toNat ≤ k.heap.heapEnd.toNat ∧
      ((k.shrinkBoundary size).toNat < e.toNat ∨ e = k.heap.heapEnd) := by
  have hb := min_le_shrinkBoundary hl size
  obtain ⟨-, -, hmin, hmax, hal⟩ := hl
  -- the pages from `s.2 + PAGE_SIZE` up are the ones unmapped so far
  let Inv : Kernel × U32 → Prop := fun s => s.1.heap = k.heap ∧ P s.1.vmm (s.2 + pageSize) ∧
    s.2.toNat % 4096 = 0 ∧ 0xC0800000 ≤ s.2.toNat + 4096 ∧
    s.2.toNat + 4096 ≤ k.heap.heapEnd.toNat ∧
    ((k.shrinkBoundary size).toNat < s.2.toNat + 4096 ∨ s.2 + pageSize = k.heap.heapEnd)
  have hbody : ∀ s : Kernel × U32, Inv s → decide (s.2 > k.shrinkBoundary size) = true →
      ∃ s', (fun s : Kernel × U32 =>
        some (({ s.1 with vmm := s.1.vmm.freePage s.1.vmm.kernelPageDir s.2 true } : Kernel),
          s.2 - pageSize)) s = some s' ∧ Inv s' ∧ s'.2.toNat / 4096 < s.2.toNat / 4096 := by
    rintro ⟨k₁, i⟩ ⟨hheap, hP, hial, hilo, hihi, -⟩ hc
    dsimp only at hheap hP hial hilo hihi hc ⊢
    have hlt : (k.shrinkBoundary size).toNat < i.toNat := of_decide_eq_true hc
    have hsub : (i - pageSize).toNat = i.toNat - 4096 := toNat_sub_pageSize (by omega)
    have hback : i - pageSize + pageSize = i := BitVec.sub_add_cancel ..
    refine ⟨_, rfl, ⟨hheap, ?_, ?_, ?_, ?_, ?_⟩, ?_⟩
    · rw [hback]
      exact hstep k₁.vmm i hial hihi hlt hP
    all_goals dsimp only; omega
  have hrunner : (k.heap.heapEnd - pageSize).toNat = k.heap.heapEnd.toNat - 4096 :=
    toNat_sub_pageSize (by omega)
  have hback : k.heap.heapEnd - pageSize + pageSize = k.heap.heapEnd := BitVec.sub_add_cancel ..
  have h0 : Inv (k, k.heap.heapEnd - pageSize) := by
    refine ⟨rfl, ?_, ?_, ?_, ?_, Or.inr hback⟩
    · dsimp only
      rw [hback]
      exact hinit
    all_goals dsimp only; omega
  obtain ⟨⟨⟨v, h'⟩, runner⟩, hloop, ⟨hheap, hP, hral, hrlo, hrhi, hcase⟩, -⟩ :=
    loop_total Inv (fun s => s.2.toNat / 4096) hbody (pageCount + 1) _ h0 (by
      have : pageCount = 1048576 := rfl
      dsimp only
      omega)
  dsimp only at hheap hP hral hrlo hrhi hcase
  subst hheap
  have hrun : (runner + pageSize).toNat = runner.toNat + 4096 := toNat_add_pageSize (by omega)
  refine ⟨v, runner + pageSize, ?_, hP, by omega, by omega, by omega, hcase.imp_left fun h => ?_⟩
  rotate_left
  · rwa [hrun]
  unfold ksbrkShrink
  dsimp only
  rw [hloop]
  rfl

/-! ## What a call owes its caller -/

/-- The break lies between the start and the end of the heap. -/
def InHeap (k : Kernel) : Prop :=
  k.heap.heapStart.toNat ≤ k.heap.heapCurr.toNat ∧ k.heap.heapCurr.toNat ≤ k.heap.heapEnd.toNat

/-- `ksbrk(size)` came back with `r`. -/
def Sbrk (k : Kernel) (size : U32) (k' : Kernel) (r : U32) : Prop :=
  ∃ n, ksbrk n k size = some (k', r)

/-- A growing call fails without effect or moves the break up by `size` and returns the old
break; a shrinking call does not move the break up. -/
def SbrkOk (k : Kernel) (size : U32) (k' : Kernel) (r : U32) : Prop :=
  (0 < size.toInt →
    (r = 0 ∧ k'.heap.heapCurr = k.heap.heapCurr ∧ k'.heap.heapEnd = k.heap.heapEnd) ∨
      (r = k.heap.heapCurr ∧ k'.heap.heapCurr.toNat = k.heap.heapCurr.toNat + size.toNat)) ∧
  (size.toInt < 0 → k'.heap.heapCurr.toNat ≤ k.heap.heapCurr.toNat)

/-- No page table has to be made for the pages up to the new break, or the call fails, or the
heap is too full to give room for a table. -/
def TablesReady (k : Kernel) (size : U32) : Prop :=
  k.heap.heapMax.toNat < k.heap.heapCurr.toNat + size.toNat ∨
    k.heap.heapMax.toNat < k.heap.heapCurr.toNat + 8208 ∨
    ∀ a : U32, k.heap.heapEnd.toNat ≤ a.toNat →
      a.toNat < k.heap.heapCurr.toNat + size.toNat →
      k.vmm.tableOf k.vmm.kernelPageDir a ≠ 0

/-- The calls that do what they owe: the new break does not pass the top of the address space
when growing and does pass it when shrinking, because the negative size is subtracted. -/
def SafeCall (k : Kernel) (size : U32) : Prop :=
  (0 < size.toInt → k.heap.heapCurr.toNat + size.toNat < 2 ^ 32 ∧ k.TablesReady size) ∧
  (size.toInt < 0 → 2 ^ 32 ≤ k.heap.heapCurr.toNat + (-size).toNat ∧
    k.heap.heapStart.toNat + kheapMinSize.toNat ≤ k.heap.heapCurr.toNat)

/-- One call of `ksbrk`. -/
def SbrkStep (k : Kernel) (size : U32) (k' : Kernel) : Prop := ∃ r, k.Sbrk size k' r

/-- One safe call of `ksbrk`. -/
def SafeStep (k : Kernel) (size : U32) (k' : Kernel) : Prop :=
  k.SafeCall size ∧ k.SbrkStep size k'

/-! ## The runs in which every call is safe -/

/-- With every table in place the page loop leaves the heap alone. -/
theorem heap_allocatePages_of_tables {isWritable : Bool} {bound start runner : U32}
    (hstart : start.toNat % 4096 = 0) (hbound : bound.toNat ≤ 0xFFFFF000)
    (htables : ∀ a : U32, start.toNat ≤ a.toNat → a.toNat < bound.toNat →
      k.vmm.tableOf k.vmm.kernelPageDir a ≠ 0)
    (h : k.allocatePages kmallocA isWritable bound start = some (k', runner)) :
    k'.heap = k.heap := by
  refine (allocatePages_invariant (fun k₁ _ => k₁.heap = k.heap ∧ k₁.vmm.dirs = k.vmm.dirs ∧
    k₁.vmm.kernelPageDir = k.vmm.kernelPageDir) ⟨rfl, rfl, rfl⟩ hstart hbound ?_ h).1.1
  rintro k₁ k₂ i - hle hlt ⟨hheap, hdirs, hdir⟩ hk
  have htable : k₁.vmm.tableOf k₁.vmm.kernelPageDir i ≠ 0 := by
    unfold Vmm.tableOf
    rw [hdirs, hdir]
    exact htables i hle hlt
  rcases allocatePage_cases hk with ⟨-, rfl⟩ | ⟨-, -, rfl⟩ | ⟨-, ht, -⟩
  · exact ⟨hheap, hdirs, hdir⟩
  · exact ⟨hheap, by simpa using hdirs, by simpa using hdir⟩
  · exact absurd ht htable

/-- In a heap too full for another page table, `kmalloc_a` leaves the bounds alone. -/
theorem bounds_kmallocAWith_of_full {n : Nat} {table : U32} (hok : k.heap.BreakOk)
    (hfull : k.heap.heapMax.toNat < k.heap.heapCurr.toNat + 8208)
    (hend : k.heap.heapEnd.toNat < 0xD0000000)
    (h : k.kmallocAWith (ksbrk n) sizeofPageTable = some (k', table)) :
    k'.heap.bounds = k.heap.bounds := by
  rcases kmallocAWith_cases hok.heapStart_ne_zero h with ⟨best, -, -, rfl, -⟩ |
    ⟨-, k₁, ret, hs, rfl, -⟩
  · exact Heap.bounds_mallocBest _ _ _
  · have hmax := hok.heapMax_toNat
    have hcurr := hok.curr_le
    have hnb : (k.heap.heapCurr + 8208).toNat = k.heap.heapCurr.toNat + 8208 :=
      BitVec.toNat_add_of_lt (by simp; omega)
    rcases ksbrk_cases_of_pos (by decide) hs with ⟨hle, -⟩ | ⟨-, -, rfl, rfl⟩ | ⟨-, hle, -⟩
    · have := BitVec.le_def.mp hle
      omega
    · exact Heap.bounds_mallocTail _ _ _
    · have := BitVec.le_def.mp hle
      omega

/-- A growing call that makes no page table, or cannot, moves the break by `size` from where it
was, or fails without effect. -/
theorem sbrkOk_of_tablesReady {size r : U32} (hok : k.heap.BreakOk) (hpos : 0 < size.toInt)
    (hwrap : k.heap.heapCurr.toNat + size.toNat < 2 ^ 32) (hready : k.TablesReady size)
    (h : k.Sbrk size k' r) : k.SbrkOk size k' r := by
  have hnb : (k.heap.heapCurr + size).toNat = k.heap.heapCurr.toNat + size.toNat :=
    BitVec.toNat_add_of_lt hwrap
  have hmax := hok.heapMax_toNat
  refine ⟨fun _ => ?_, fun hneg => by omega⟩
  obtain ⟨n, h⟩ := h
  rcases ksbrk_cases_of_pos hpos h with ⟨-, rfl, rfl⟩ | ⟨-, -, rfl, rfl⟩ |
    ⟨hlt, hle, m, k₁, runner, rfl, hpages, hcase⟩
  · exact Or.inr ⟨rfl, hnb⟩
  · exact Or.inl ⟨rfl, rfl, rfl⟩
  · have hlt := BitVec.lt_def.mp hlt
    have hle := BitVec.le_def.mp hle
    have hsame : k₁.heap.bounds = k.heap.bounds := by
      rcases hready with hm | hfull | htables
      · omega
      · refine (allocatePages_invariant (fun k₂ _ => k₂.heap.bounds = k.heap.bounds) rfl
          hok.aligned (by omega) (fun k₂ k₃ i _ _ _ hb hk => ?_) hpages).1
        obtain ⟨-, hbe, hbc, hbm, -⟩ := Heap.bounds_eq_iff.mp hb
        rcases heap_allocatePage hk with he | ⟨k₄, table, hs, he⟩
        · rw [he, hb]
        · rw [he, bounds_kmallocAWith_of_full (hok.of_bounds hb) (by rwa [hbm, hbc])
            (by rw [hbe]; omega) hs, hb]
      · rw [heap_allocatePages_of_tables hok.aligned (by omega)
          (fun a h1 h2 => htables a h1 (by omega)) hpages]
    -- the break is where it was, so the call does not start again
    rcases hcase with ⟨hmoved, -⟩ | ⟨-, rfl, rfl⟩
    · exact absurd (Heap.bounds_eq_iff.mp hsame).2.2.1.symm hmoved
    · exact Or.inr ⟨rfl, hnb⟩

/-- Where the break goes when subtracting the negative size passes the top of the address
space. -/
theorem shrinkBoundary_of_wrap {size : U32} (hok : k.heap.BreakOk) (hneg : size.toInt < 0)
    (hwrap : 2 ^ 32 ≤ k.heap.heapCurr.toNat + (-size).toNat) :
    (k.shrinkBoundary size).toNat = 0xC0800000 := by
  have hmin : (k.heap.heapStart + kheapMinSize).toNat = 0xC0800000 := by rw [hok.start]; rfl
  have hcurr := hok.curr_le
  have hend := hok.end_le
  have hneg : 2 ^ 32 ≤ 2 * size.toNat := BitVec.toInt_neg_iff.mp hneg
  have hsize : (-size).toNat = 2 ^ 32 - size.toNat := by
    rw [BitVec.toNat_neg, Nat.mod_eq_of_lt (by omega)]
  have hlow : (k.heap.heapCurr - size).toNat < 0xC0800000 := by
    rw [BitVec.toNat_sub]
    omega
  unfold shrinkBoundary
  rw [if_pos (BitVec.lt_def.mpr (by rw [hmin]; exact hlow)), hmin]

/-- A safe call of either sign keeps the bounds in order and does what it owes. -/
theorem sbrk_of_safeCall {size r : U32} (hok : k.heap.BreakOk) (hsafe : k.SafeCall size)
    (h : k.Sbrk size k' r) : k'.heap.BreakOk ∧ k.SbrkOk size k' r := by
  rcases Int.lt_trichotomy size.toInt 0 with hneg | hzero | hpos
  · -- the difference wraps to an address below the minimum, so the break ends up there
    obtain ⟨hwrap, hmin⟩ := hsafe.2 hneg
    have hb := shrinkBoundary_of_wrap hok hneg hwrap
    obtain ⟨n, h⟩ := h
    cases n with
    | zero => simp [ksbrk] at h
    | succ n =>
      obtain ⟨v, e, hs, -, heal, hemin, hele, -⟩ :=
        ksbrkShrink_spec size hok.toLimits (fun _ _ => True) trivial fun _ _ _ _ _ _ => trivial
      rw [ksbrk_of_neg hneg, hs] at h
      cases h
      have hend := hok.end_le
      rw [hok.start, kheapStart_toNat, kheapMinSize_toNat] at hmin
      refine ⟨⟨⟨hok.start, hok.max, hemin, by dsimp only; omega, heal⟩, ?_, ?_⟩,
        fun hpos => by omega, fun _ => ?_⟩
      · rw [kheapStart_toNat, hb]
        omega
      · rw [hb]
        exact hemin
      · rw [hb]
        exact hmin
  · obtain ⟨n, h⟩ := h
    cases n with
    | zero => simp [ksbrk] at h
    | succ n =>
      rw [ksbrk, ksbrkWith, if_pos (BitVec.toInt_inj.mp (by simpa using hzero))] at h
      cases h
      exact ⟨hok, fun hpos => by omega, fun hneg => by omega⟩
  · obtain ⟨hwrap, hready⟩ := hsafe.1 hpos
    obtain ⟨n, hn⟩ := h
    exact ⟨(ksbrk_grown n hok hpos hwrap hn).1.ok,
      sbrkOk_of_tablesReady hok hpos hwrap hready ⟨n, hn⟩⟩

/--
**Break bounds.** In every run of safe calls from `kheap_init` the break stays in the heap,
and every safe call does what it owes.
-/
theorem sbrkOk_of_safe_run {k₀ k : Kernel} {sizes : List U32}
    (h : Run SafeStep k₀.kheapInit sizes k) :
    k.InHeap ∧ ∀ size k' r, k.SafeCall size → k.Sbrk size k' r → k.SbrkOk size k' r := by
  have hok : k.heap.BreakOk := h.invariant (fun k => k.heap.BreakOk)
    (fun _ _ _ hok hstep => by
      obtain ⟨hsafe, r, hs⟩ := hstep
      exact (sbrk_of_safeCall hok hsafe hs).1) (breakOk_kheapInit k₀)
  refine ⟨⟨?_, hok.curr_le⟩, fun size k' r hsafe hs => (sbrk_of_safeCall hok hsafe hs).2⟩
  rw [hok.start]
  exact hok.start_le

/-- `bare` after `kheap_init` and `ksbrk(16)`. -/
def bareGrown : Kernel :=
  { bare.kheapInit with heap := { bare.kheapInit.heap with heapCurr := kheapStart + 16 } }

theorem sbrkOk_of_safe_run_bare :
    Run SafeStep bare.kheapInit ([] ++ [16]) bareGrown ∧ bareGrown.InHeap := by
  have hsafe : bare.kheapInit.SafeCall 16 := by
    refine ⟨fun _ => ⟨by decide, Or.inr (Or.inr fun a h1 h2 => ?_)⟩, fun h => absurd h (by decide)⟩
    have h1 : 0xC0C00000 ≤ a.toNat := h1
    have h2 : a.toNat < 0xC0400010 := h2
    omega
  have hrun : Run SafeStep bare.kheapInit ([] ++ [16]) bareGrown :=
    .snoc (.nil _) ⟨hsafe, _, 1, rfl⟩
  exact ⟨hrun, (sbrkOk_of_safe_run hrun).1⟩

/-- `ksbrk(-16)` after `kheap_init` moves the break up by 4 MB. -/
theorem not_sbrkOk_of_neg : ¬ ∀ (k₀ k : Kernel) (sizes : List U32),
    Run SbrkStep k₀.kheapInit sizes k →
      k.InHeap ∧ ∀ size k' r, k.Sbrk size k' r → k.SbrkOk size k' r := by
  intro h
  obtain ⟨v, e, hs, -⟩ := ksbrkShrink_spec (-16) (breakOk_kheapInit bare).toLimits
    (fun _ _ => True) trivial fun _ _ _ _ _ _ => trivial
  have hneg : (-16 : U32).toInt < 0 := by decide
  have hsbrk := (h bare bare.kheapInit [] (.nil _)).2 (-16) _ _ ⟨1, (ksbrk_of_neg hneg).trans hs⟩
  have hle : (bare.kheapInit.shrinkBoundary (-16)).toNat ≤ bare.kheapInit.heap.heapCurr.toNat :=
    hsbrk.2 hneg
  exact absurd hle (by decide)

end Kernel

end PiggyOS
