import PiggyOS.Kheap.Header

/-!
# The size of what is handed out

The size word of the block that `malloc` hands out is `roundedSize`, or up to 23 more. All sizes
are computed in 32 bits: `roundedSize` is 0 for a request above `2^32 - 16`, and so is what
`kcalloc` multiplies and `kmalloc_a` adds up.

* `size_malloc` — the size word
* `capacity_iff` — the block is large enough exactly when none of these wraps around
-/

namespace PiggyOS

open Infra

/-- Whatever the links are, `bestfit` answers with a block that fits. -/
theorem Heap.doesItFit_of_bestfit {h : Heap} {size best : U32} (hbest : h.bestfit size = some best)
    (hne : best ≠ 0) : h.doesItFit best size = true := by
  obtain ⟨⟨curr, currBest⟩, hloop, rfl⟩ := Option.map_eq_some_iff.mp hbest
  refine ((loop_invariant (fun s : U32 × U32 => s.2 = 0 ∨ h.doesItFit s.2 size = true) ?_ _ _ _
    (Or.inl rfl) hloop).1).resolve_left hne
  rintro ⟨curr, currBest⟩ s' hs - heq
  obtain rfl := Option.some.inj heq
  dsimp only
  split
  · next htake => exact Or.inr (Bool.and_eq_true_iff.mp htake).1
  · exact hs

/-- A block that fits is as large as `malloc` wants it. -/
theorem Heap.roundedSize_le_of_doesItFit {h : Heap} {size best : U32}
    (hfit : h.doesItFit best (roundedSize size) = true) :
    (roundedSize size).toNat ≤ (getRealSize (h.size best)).toNat := by
  unfold Heap.doesItFit at hfit
  rw [Bool.and_eq_true, decide_eq_true_eq, ge_iff_le, BitVec.le_def,
    getRealSize_roundedSize] at hfit
  have hround := roundedSize_toNat size
  rw [getRealSize_toNat]
  omega

namespace Kernel

variable {k k' : Kernel} {n : Nat} {size num sz : U32} {r : Handed}

/-- The block that `malloc` takes from the free list, if it does, keeps its header. -/
def HeaderKept (k : Kernel) (size : U32) : Prop :=
  ∀ best, k.heap.bestfit (roundedSize size) = some best → best ≠ 0 → k.heap.KeepsHeader best size

/-- The free list is in order. -/
theorem headerKept_of_freeBlocks {L : List U32} (hF : k.heap.FreeBlocks L) (size : U32) :
    k.HeaderKept size := by
  intro best hbest hne
  obtain ⟨best', hbest', hspec⟩ := hF.list.bestfit_spec (roundedSize size)
  obtain rfl : best = best' := Option.some.inj (hbest.symm.trans hbest')
  obtain ⟨hmem, hfit, -⟩ := hspec.resolve_left fun hc => hne hc.1
  exact hF.keepsHeader hmem (Heap.roundedSize_le_of_doesItFit hfit)

/-- The size word of what `malloc` hands out. -/
theorem size_malloc (hkept : k.HeaderKept size) (hm : k.malloc n size = some (k', r))
    (hne : r.ptr ≠ 0) : (roundedSize size).toNat ≤ (k'.heap.size r.block).toNat ∧
      (k'.heap.size r.block).toNat < (roundedSize size).toNat + 24 ∧
      r.ptr = wordsAfter r.block sizeofBlock := by
  rcases mallocWith_cases hm with ⟨-, -, rfl⟩ | ⟨-, best, hbest, hb, rfl, rfl⟩ |
    ⟨-, -, k₁, ret, -, rfl, rfl⟩
  · exact absurd rfl hne
  · obtain ⟨h1, h2⟩ := Heap.size_mallocBest hb
      (Heap.roundedSize_le_of_doesItFit (Heap.doesItFit_of_bestfit hbest hb)) (hkept best hbest hb)
    exact ⟨h1, h2, rfl⟩
  · refine ⟨?_, ?_, rfl⟩
    · exact (congrArg BitVec.toNat (Heap.size_mallocTail k₁.heap ret size)).ge
    · have hword := congrArg BitVec.toNat (Heap.size_mallocTail k₁.heap ret size)
      exact lt_of_eq_of_lt hword (by omega)

/-! ## The requests that wrap around -/

theorem le_size_iff (hkept : k.HeaderKept size) (hm : k.malloc n size = some (k', r))
    (hne : r.ptr ≠ 0) : size ≤ k'.heap.size r.block ↔ size.toNat ≤ 2 ^ 32 - 16 := by
  obtain ⟨hle, hlt, -⟩ := size_malloc hkept hm hne
  have hround := roundedSize_toNat size
  rw [BitVec.le_def]
  omega

theorem kcalloc_of_malloc (hm : k.malloc n (num * size) = some (k', r)) :
    k.kcalloc n num size =
      some (⟨k'.vmm, { k'.heap with mem := k'.heap.mem.fill r.ptr 0 (num * size).toNat }⟩, r) :=
  congrArg (Option.map _) hm

/-- `kcalloc` clears more than the block when the last 16 bytes of the address space are asked
for, and the size word with it. -/
theorem mul_le_size_iff (hkept : k.HeaderKept (num * size))
    (hm : k.kcalloc n num size = some (k', r)) (hne : r.ptr ≠ 0) :
    num.toNat * size.toNat ≤ (k'.heap.size r.block).toNat ↔
      num.toNat * size.toNat ≤ 2 ^ 32 - 48 := by
  obtain ⟨⟨k₁, r₁⟩, hmalloc, he⟩ := Option.map_eq_some_iff.mp hm
  obtain ⟨rfl, rfl⟩ := Prod.mk.inj he
  obtain ⟨hle, hlt, hptr⟩ := size_malloc hkept hmalloc hne
  have hmul : (num * size).toNat = num.toNat * size.toNat % 2 ^ 32 := BitVec.toNat_mul ..
  have hN := (num * size).isLt
  have hround := roundedSize_toNat (num * size)
  have hword := ((k₁.heap.mem.fill r₁.ptr 0 (num * size).toNat).read32 r₁.block).isLt
  show _ ≤ ((k₁.heap.mem.fill r₁.ptr 0 (num * size).toNat).read32 r₁.block).toNat ↔ _
  by_cases hclear : (num * size).toNat ≤ 2 ^ 32 - 48
  · -- what is cleared starts behind the header
    have hread : (k₁.heap.mem.fill r₁.ptr 0 (num * size).toNat).read32 r₁.block =
        k₁.heap.size r₁.block :=
      (Mem.within_fill hN subset_rfl).read32 fun x hx hin => by
        unfold bytes wordsAfter sizeofBlock at *
        rw [Set.mem_ofPred_eq] at hx hin
        bv_omega
    rw [hread]
    omega
  · -- the lowest byte of the size word is cleared
    have hbyte : (k₁.heap.mem.fill r₁.ptr 0 (num * size).toNat) r₁.block = 0 := by
      rw [Mem.fill_apply hN, if_pos]
      unfold wordsAfter sizeofBlock at hptr
      bv_omega
    have hmod : ((k₁.heap.mem.fill r₁.ptr 0 (num * size).toNat).read32 r₁.block).toNat % 256 = 0 :=
      (Mem.toNat_read32_mod _ r₁.block).trans (congrArg BitVec.toNat hbyte)
    omega

/-- `kmalloc_a` leaves at most one page in front of what it returns. -/
theorem aligned_le_size_iff (hheap : k.heap.heapStart ≠ 0) (hkept : k.HeaderKept (sz + 4096))
    (hm : k.malloc n (sz + 4096) = some (k', r)) (hne : r.ptr ≠ 0) :
    ∃ q, k.kmallocA n sz = some (k', q) ∧ q.toNat % 4096 = 0 ∧
      ((q - r.ptr).toNat + sz.toNat ≤ (k'.heap.size r.block).toNat ↔
        sz.toNat ≤ 2 ^ 32 - 4112) := by
  obtain ⟨hle, hlt, -⟩ := size_malloc hkept hm hne
  have hround := roundedSize_toNat (sz + 4096)
  have hsz : (sz + 4096).toNat = (sz.toNat + 4096) % 2 ^ 32 := BitVec.toNat_add ..
  have hmask := toNat_and_pageMask r.ptr
  refine ⟨(r.ptr &&& 0xFFFFF000) + 0x1000, ?_, ?_, ?_⟩
  · unfold kmallocA kmallocAWith kmallocIntWith
    rw [if_pos hheap]
    exact congrArg (Option.map _) hm
  · bv_omega
  · have hgap : ((r.ptr &&& 0xFFFFF000) + 0x1000 - r.ptr).toNat = 4096 - r.ptr.toNat % 4096 := by
      bv_omega
    omega

/-- **What is handed out is large enough unless the 32-bit arithmetic wraps around.** -/
theorem capacity_iff (n : Nat) (k : Kernel) :
    (∀ size k' r, k.HeaderKept size → k.malloc n size = some (k', r) → r.ptr ≠ 0 →
      (size ≤ k'.heap.size r.block ↔ size.toNat ≤ 2 ^ 32 - 16)) ∧
    (∀ num size k' r, k.HeaderKept (num * size) → k.kcalloc n num size = some (k', r) →
      r.ptr ≠ 0 → (num.toNat * size.toNat ≤ (k'.heap.size r.block).toNat ↔
        num.toNat * size.toNat ≤ 2 ^ 32 - 48)) ∧
    (∀ sz k' r, k.heap.heapStart ≠ 0 → k.HeaderKept (sz + 4096) →
      k.malloc n (sz + 4096) = some (k', r) → r.ptr ≠ 0 →
      ∃ q, k.kmallocA n sz = some (k', q) ∧ q.toNat % 4096 = 0 ∧
        ((q - r.ptr).toNat + sz.toNat ≤ (k'.heap.size r.block).toNat ↔
          sz.toNat ≤ 2 ^ 32 - 4112)) :=
  ⟨fun _ _ _ => le_size_iff, fun _ _ _ _ => mul_le_size_iff, fun _ _ _ => aligned_le_size_iff⟩

/-- 16 bytes from the free list, and a page table's worth of them behind the break. -/
theorem capacity_threeHeap :
    (∃ k' r, malloc 0 ⟨bare.vmm, Heap.threeHeap⟩ 16 = some (k', r) ∧ 16 ≤ k'.heap.size r.block) ∧
      (∃ k' r, kcalloc 0 ⟨bare.vmm, Heap.threeHeap⟩ 2 8 = some (k', r) ∧
        16 ≤ (k'.heap.size r.block).toNat) ∧
      ∃ k' r q, bare.kheapInit.malloc 1 (64 + 4096) = some (k', r) ∧
        bare.kheapInit.kmallocA 1 64 = some (k', q) ∧
        (q - r.ptr).toNat + 64 ≤ (k'.heap.size r.block).toNat := by
  obtain ⟨hmalloc, hkcalloc, -⟩ := capacity_iff 0 ⟨bare.vmm, Heap.threeHeap⟩
  obtain ⟨-, -, haligned⟩ := capacity_iff 1 bare.kheapInit
  have hkept : HeaderKept ⟨bare.vmm, Heap.threeHeap⟩ 16 :=
    headerKept_of_freeBlocks Heap.layout_threeHeap.freeBlocks 16
  have h16 : malloc 0 ⟨bare.vmm, Heap.threeHeap⟩ 16 = some _ :=
    malloc_of_best (k := ⟨bare.vmm, Heap.threeHeap⟩) (by decide) bestfit_threeHeap (by decide)
  have h4160 : bare.kheapInit.malloc 1 (64 + 4096) = some _ :=
    malloc_of_room (by simp) rfl (by decide) (by decide)
  refine ⟨⟨_, _, h16, (hmalloc 16 _ _ hkept h16 (by decide)).mpr (by simp)⟩, ?_, ?_⟩
  · have h28 : kcalloc 0 ⟨bare.vmm, Heap.threeHeap⟩ 2 8 = some _ := kcalloc_of_malloc h16
    exact ⟨_, _, h28, (hkcalloc 2 8 _ _ hkept h28 (by decide)).mpr (by simp)⟩
  · have hempty : bare.kheapInit.HeaderKept (64 + 4096) := fun best hbest hne =>
      absurd (Option.some.inj ((Heap.bestfit_of_empty rfl _).symm.trans hbest)).symm hne
    obtain ⟨q, hq, -, hfits⟩ := haligned 64 _ _ (by decide) hempty h4160 (by decide)
    exact ⟨_, _, q, h4160, hq, hfits.mpr (by simp)⟩

/-- First requests that wrap around: `malloc(0xFFFFFFFF)` gets a block of size 0,
`kcalloc(0x10000, 0x10001)` asks for 64 kB and `kmalloc_a(0xFFFFF010)` for 16 bytes. -/
theorem not_capacity_kheapInit :
    (∃ k' r, bare.kheapInit.malloc 1 0xFFFFFFFF = some (k', r) ∧ r.ptr ≠ 0 ∧
      k'.heap.size r.block = 0) ∧
    (∃ k' r, bare.kheapInit.kcalloc 1 0x10000 0x10001 = some (k', r) ∧ r.ptr ≠ 0 ∧
      (k'.heap.size r.block).toNat < 0x10000 * 0x10001) ∧
    ∃ k' r, bare.kheapInit.malloc 1 (0xFFFFF010 + 4096) = some (k', r) ∧ r.ptr ≠ 0 ∧
      k'.heap.size r.block = 16 := by
  have hroom : ∀ size : U32, size ≠ 0 → 0 < (blockSize size).toInt →
      bare.kheapInit.heap.heapCurr + blockSize size ≤ bare.kheapInit.heap.heapEnd →
      bare.kheapInit.malloc 1 size = some _ := fun _ hs => malloc_of_room hs rfl
  refine ⟨⟨_, _, hroom _ (by simp) (by decide) (by decide), by decide, ?_⟩,
    ⟨_, _, kcalloc_of_malloc (hroom _ (by simp) (by decide) (by decide)), by decide, ?_⟩,
    ⟨_, _, hroom _ (by simp) (by decide) (by decide), by decide, ?_⟩⟩
  · exact Heap.size_mallocTail _ _ _
  · exact lt_of_lt_of_le (BitVec.isLt _) (by simp)
  · exact Heap.size_mallocTail _ _ _

end Kernel

end PiggyOS
