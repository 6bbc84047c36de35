import PiggyOS.Kheap.Isolation

/-!
# Walking the blocks

`getNextBlock` and `getPrevBlock` step over a block by `OVERHEAD` and its size in words;
`malloc` moves the break by the same number in bytes. The two agree on no block.

* `heapCurr_of_ksbrk` — a growing call that does not fail leaves the break `size` bytes above
  the address it returns, restarts included
* `blockEnd_mallocTail` — stepping over the new tail leads four times as far
* `walkOk_iff` — so the walk is right only while there are no blocks
-/

namespace PiggyOS

open Infra

/-! ## The walk -/

namespace Heap

variable (h : Heap)

/-- Following `getNextBlock` from `b` visits the blocks `bs` and nothing else. -/
def Visits : U32 → List U32 → Prop
  | b, [] => b = 0
  | b, c :: cs => b = c ∧ b ≠ 0 ∧ Visits (h.getNextBlock b) cs

/-- The end of the block `b`, as `getNextBlock` computes it. -/
def blockEnd (b : U32) : U32 := wordsAfter (wordsAfter b overhead) (getRealSize (h.size b))

/-- The walk from `head` visits the blocks in the order of their creation and stops at `tail`,
`getPrevBlock` undoes `getNextBlock`, and the last block ends at the break. -/
structure WalkOk : Prop where
  visits : h.Visits h.head h.blocks
  stops : h.blocks.getLast? = if h.tail = 0 then none else some h.tail
  prev : ∀ b ∈ h.blocks, b ≠ h.tail → h.getPrevBlock (h.getNextBlock b) = b
  ends : h.blocks ≠ [] → h.blockEnd h.tail = h.heapCurr

end Heap

/-! ## Sizes -/

/-- Clearing bit 0 is what `getRealSize` does. -/
theorem getRealSize_eq (x : U32) : getRealSize x = x &&& 0xFFFFFFFE := by
  apply BitVec.eq_of_getLsbD_eq
  intro i hi
  unfold getRealSize
  rw [show (0xFFFFFFFE : U32) = ~~~1#32 from rfl, BitVec.getLsbD_and, BitVec.getLsbD_not,
    BitVec.getLsbD_shiftLeft, BitVec.getLsbD_ushiftRight, BitVec.getLsbD_one]
  cases i with
  | zero => simp
  | succ i => simp [hi, Nat.add_comm]

theorem getRealSize_toNat (x : U32) : (getRealSize x).toNat = x.toNat / 2 * 2 := by
  unfold getRealSize
  rw [BitVec.toNat_shiftLeft, BitVec.toNat_ushiftRight, Nat.shiftRight_eq_div_pow,
    Nat.shiftLeft_eq, Nat.mod_eq_of_lt]
  have := x.isLt
  omega

theorem getRealSize_roundedSize (size : U32) :
    getRealSize (roundedSize size) = roundedSize size := by
  apply BitVec.eq_of_toNat_eq
  rw [getRealSize_toNat, roundedSize_toNat]
  omega

/-- No other size is four times itself: 3 has an inverse modulo 2^32. -/
theorem eq_zero_of_four_mul {x : U32} (h : 4 * x = x) : x = 0 := by
  have h3 : 3 * x = 0 :=
    calc 3 * x = 3 * x + x - x := (BitVec.add_sub_cancel ..).symm
      _ = 4 * x - x := by rw [show (4 : U32) = 3 + 1#32 from rfl, BitVec.add_mul, BitVec.one_mul]
      _ = 0 := by rw [h]; exact BitVec.sub_self x
  calc x = (0xAAAAAAAB * 3) * x := (BitVec.one_mul x).symm
    _ = 0xAAAAAAAB * (3 * x) := BitVec.mul_assoc ..
    _ = 0 := by rw [h3]; rfl

namespace Kernel

/-! ## The break -/

theorem heapCurr_of_ksbrk (n : Nat) {k k' : Kernel} {size r : U32} (hpos : 0 < size.toInt)
    (h : ksbrk n k size = some (k', r)) (hr : r ≠ 0) : k'.heap.heapCurr = r + size := by
  induction n generalizing k with
  | zero => simp [ksbrk] at h
  | succ n ih =>
    rcases ksbrk_cases_of_pos hpos h with ⟨-, rfl, rfl⟩ | ⟨-, -, -, rfl⟩ |
      ⟨-, -, m, k₁, runner, hm, -, ⟨-, hrestart⟩ | ⟨-, rfl, rfl⟩⟩
    · rfl
    · exact absurd rfl hr
    · -- a restart is a call of the same size
      cases hm
      exact ih hrestart
    · rfl

end Kernel

/-! ## The new tail -/

namespace Heap

variable (h : Heap)

@[simp] theorem size_store_self (a v : U32) : (h.store a v).size a = v :=
  Mem.read32_write32 _ _ _

theorem size_store_of_apart {a b v : U32} (hab : Apart a b) : (h.store a v).size b = h.size b :=
  Mem.read32_write32_of_apart hab

@[simp] theorem tail_mallocTail (ret bs : U32) : (h.mallocTail ret bs).1.tail = ret := by
  unfold mallocTail setFree
  rfl

@[simp] theorem blocks_mallocTail (ret bs : U32) :
    (h.mallocTail ret bs).1.blocks = h.blocks ++ [ret] := by
  unfold mallocTail
  by_cases h0 : h.head = 0
  · rw [if_pos h0]
    rfl
  · rw [if_neg h0]
    rfl

/-- The size word of a new tail; the trailing size, written last, does not reach it. -/
theorem size_mallocTail (ret size : U32) :
    (h.mallocTail ret (blockSize size)).1.size ret = roundedSize size := by
  have hround := roundedSize_toNat size
  have hapart : Apart (wordsBefore (wordsAfter ret (blockSize size)) 4) ret := by
    have hb : (blockSize size).toNat % 16 = 0 := by
      have : (blockSize size).toNat = ((roundedSize size).toNat + 16) % 2 ^ 32 :=
        BitVec.toNat_add ..
      omega
    unfold wordsBefore wordsAfter
    constructor <;> bv_omega
  have hbs : blockSize size - overhead = roundedSize size := BitVec.add_sub_cancel ..
  have hclear : roundedSize size &&& 0xFFFFFFFE = roundedSize size := by
    rw [← getRealSize_eq, getRealSize_roundedSize]
  show (store _ _ _).size ret = _
  rw [size_store_of_apart _ hapart]
  unfold setFree setSize
  rw [if_neg (by decide), size_store_self, size_store_self, hbs, hclear]

/-- **Stepping over the new tail leads to four times its size behind it.** -/
theorem blockEnd_mallocTail (ret size : U32) :
    (h.mallocTail ret (blockSize size)).1.blockEnd ret = ret + 4 * blockSize size := by
  unfold blockEnd wordsAfter
  rw [size_mallocTail, getRealSize_roundedSize, blockSize, BitVec.mul_add, BitVec.add_assoc,
    BitVec.add_comm (4 * overhead)]

end Heap

namespace Kernel

/-! ## Runs -/

/-- A `malloc` served by extending the heap, with success. -/
def Extends (k : Kernel) (size : U32) (k' : Kernel) : Prop :=
  size ≠ 0 ∧ k.heap.bestfit (roundedSize size) = some 0 ∧ 0 < (blockSize size).toInt ∧
    ∃ n r, k.malloc n size = some (k', r) ∧ r.block ≠ 0

/-- The tail of a heap that was just extended does not end at the break. -/
theorem blockEnd_ne_of_extends {k k' : Kernel} {size : U32} (h : k.Extends size k') :
    k'.heap.blocks ≠ [] ∧ k'.heap.blockEnd k'.heap.tail ≠ k'.heap.heapCurr := by
  obtain ⟨hs, hbest, hpos, n, r, hm, hr⟩ := h
  rcases mallocWith_cases hm with ⟨h0, -, -⟩ | ⟨-, best, hb, hne, -, -⟩ |
    ⟨-, -, k₁, ret, hbrk, rfl, rfl⟩
  · exact absurd h0 hs
  · rw [hbest] at hb
    exact absurd (Option.some.inj hb).symm hne
  · have hcurr := heapCurr_of_ksbrk n hpos hbrk hr
    obtain ⟨-, -, hsame, -, -⟩ :=
      Heap.bounds_eq_iff.mp (Heap.bounds_mallocTail k₁.heap ret (blockSize size))
    dsimp only
    rw [Heap.blocks_mallocTail, Heap.tail_mallocTail, Heap.blockEnd_mallocTail, hsame, hcurr]
    refine ⟨List.append_ne_nil_of_right_ne_nil _ (List.cons_ne_nil _ _), fun hc => ?_⟩
    have hzero := eq_zero_of_four_mul ((BitVec.add_right_inj ret).mp hc)
    rw [hzero] at hpos
    exact absurd hpos (by decide)

/--
**The block walk.** After any sequence of calls of `malloc` from `kheap_init`, each served by
extending the heap, the walk over the blocks is right exactly when there was no call.
-/
theorem walkOk_iff {k₀ k : Kernel} {sizes : List U32} (hhead : k₀.heap.head = 0)
    (htail : k₀.heap.tail = 0) (hblocks : k₀.heap.blocks = [])
    (h : Run Extends k₀.kheapInit sizes k) : k.heap.WalkOk ↔ sizes = [] := by
  constructor
  · intro hwalk
    cases h with
    | nil => rfl
    | snoc _ hstep =>
      obtain ⟨hne, hend⟩ := blockEnd_ne_of_extends hstep
      exact absurd (hwalk.ends hne) hend
  · rintro rfl
    rw [h.eq_of_nil]
    have hb : k₀.kheapInit.heap.blocks = [] := hblocks
    refine ⟨?_, ?_, ?_, ?_⟩
    · rw [hb]
      exact hhead
    · rw [hb, if_pos (show k₀.kheapInit.heap.tail = 0 from htail)]
      rfl
    · rw [hb]
      exact fun _ hmem => nomatch hmem
    · exact fun hc => absurd hb hc

/-- The kernel after a `malloc` that finds no free block and room below the end of the heap. -/
def extended (k : Kernel) (size : U32) : Kernel :=
  { k with
    heap := (Heap.mallocTail { k.heap with heapCurr := k.heap.heapCurr + blockSize size }
      k.heap.heapCurr (blockSize size)).1 }

theorem extends_extended {k : Kernel} {size : U32} (hs : size ≠ 0) (hempty : k.heap.freelist = 0)
    (hpos : 0 < (blockSize size).toInt) (hcurr : k.heap.heapCurr ≠ 0)
    (hroom : k.heap.heapCurr + blockSize size ≤ k.heap.heapEnd) :
    k.Extends size (k.extended size) :=
  ⟨hs, Heap.bestfit_of_empty hempty _, hpos, 1, _, malloc_of_room hs hempty hpos hroom, hcurr⟩

theorem walkOk_iff_malloc :
    Run Extends bare.kheapInit ([] ++ [16]) (bare.kheapInit.extended 16) ∧
      ¬ (bare.kheapInit.extended 16).heap.WalkOk := by
  have hrun : Run Extends bare.kheapInit ([] ++ [16]) (bare.kheapInit.extended 16) :=
    .snoc (.nil _) (extends_extended (by decide) rfl (by decide) (by decide) (by decide))
  exact ⟨hrun, fun hwalk => absurd ((walkOk_iff rfl rfl rfl hrun).mp hwalk) (by decide)⟩

/-- After two calls of `malloc(16)` the blocks are 32 bytes apart, and the walk goes from the
first to 128 bytes behind it. -/
theorem not_visits_of_two_mallocs :
    ∃ k, Run Extends bare.kheapInit ([] ++ [16] ++ [16]) k ∧
      k.heap.blocks = [kheapStart, kheapStart + 32] ∧
      k.heap.getNextBlock k.heap.head = kheapStart + 128 ∧ ¬ k.heap.WalkOk := by
  have h₁ : bare.kheapInit.Extends 16 (bare.kheapInit.extended 16) :=
    extends_extended (by decide) rfl (by decide) (by decide) (by decide)
  have h₂ : (bare.kheapInit.extended 16).Extends 16 ((bare.kheapInit.extended 16).extended 16) :=
    extends_extended (by decide) rfl (by decide) (by decide) (by decide)
  have hblocks : ((bare.kheapInit.extended 16).extended 16).heap.blocks =
      [kheapStart, kheapStart + 32] := by decide
  have hnext : ((bare.kheapInit.extended 16).extended 16).heap.getNextBlock
      ((bare.kheapInit.extended 16).extended 16).heap.head = kheapStart + 128 := by decide
  refine ⟨_, .snoc (.snoc (.nil _) h₁) h₂, hblocks, hnext, fun hwalk => ?_⟩
  have hvisits := hwalk.visits
  rw [hblocks] at hvisits
  have hnext' := hvisits.2.2.1
  rw [hnext] at hnext'
  exact absurd hnext' (by decide)

end Kernel

end PiggyOS
