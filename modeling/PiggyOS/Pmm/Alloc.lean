import PiggyOS.Pmm.Basic

/-!
# What one call of the physical memory manager does

`pmmAllocBlock_cases` lists the three outcomes of an allocation; everything else about the
allocator follows from it. `PrefixUsed p n` describes the states of a start-up, in which
exactly the blocks below `n` are handed out: there the blocks come out in order.
-/

namespace PiggyOS.Pmm

open Infra

variable {p : Pmm} {words : Nat → U32} {b n : Nat}

/-! ## The scan -/

theorem and_one_shiftLeft_eq_zero_iff {w : U32} {j : Nat} (hj : j < 32) :
    w &&& (1#32 <<< j) = 0 ↔ w.getLsbD j = false := by
  constructor
  · intro h
    have hbit := congrArg (BitVec.getLsbD · j) h
    simpa [Bitmap.getLsbD_one_shiftLeft hj hj, hj] using hbit
  · intro h
    apply BitVec.eq_of_getLsbD_eq
    intro i hi
    rw [BitVec.getLsbD_and, Bitmap.getLsbD_one_shiftLeft hj hi]
    by_cases he : i = j
    · subst he; simp [h]
    · simp [he]

theorem firstFreeBit_eq_some {w : U32} {j : Nat} (h : firstFreeBit w = some j) :
    j < 32 ∧ w.getLsbD j = false ∧ ∀ i < j, w.getLsbD i = true := by
  unfold firstFreeBit at h
  rw [List.find?_range_eq_some] at h
  obtain ⟨hp, hmem, hmin⟩ := h
  have hj : j < 32 := List.mem_range.mp hmem
  refine ⟨hj, (and_one_shiftLeft_eq_zero_iff hj).mp (by simpa using hp), ?_⟩
  intro i hi
  have hne := hmin i hi
  cases hb : w.getLsbD i with
  | true => rfl
  | false =>
    rw [decide_eq_true ((and_one_shiftLeft_eq_zero_iff (by omega)).mpr hb)] at hne
    simp at hne

theorem eq_allOnes_of_firstFreeBit {w : U32} (h : firstFreeBit w = none) :
    ∀ j < 32, w.getLsbD j = true := by
  intro j hj
  unfold firstFreeBit at h
  rw [List.find?_eq_none] at h
  cases hb : w.getLsbD j with
  | true => rfl
  | false =>
    exact absurd (decide_eq_true ((and_one_shiftLeft_eq_zero_iff hj).mpr hb))
      (h j (List.mem_range.mpr hj))

theorem bit_word (words : Nat → U32) {i j : Nat} (hj : j < 32) :
    Bitmap.bit words (i * 32 + j) = (words i).getLsbD j := by
  unfold Bitmap.bit
  rw [show (i * 32 + j) / 32 = i by omega, show (i * 32 + j) % 32 = j by omega]

/-- What the scan answers: the lowest clear bit, or that there is none. -/
theorem scanWords_spec (words : Nat → U32) : ∀ n : Nat,
    match scanWords words n with
    | some b => b < 32 * n ∧ Bitmap.bit words b = false ∧ ∀ c < b, Bitmap.bit words c = true
    | none => ∀ b < 32 * n, Bitmap.bit words b = true := by
  intro n
  induction n with
  | zero => simp [scanWords]
  | succ n ih =>
    unfold scanWords at ih ⊢
    rw [List.range_succ, List.findSome?_append]
    split at ih
    · next b hb =>
      rw [hb]
      exact ⟨by omega, ih.2⟩
    · next hnone =>
      rw [hnone, Option.none_or, List.findSome?_singleton]
      -- every bit of a word between the old words and the end of this one
      have hword : ∀ c, (∀ j < 32, c = n * 32 + j → Bitmap.bit words c = true) →
          c < 32 * (n + 1) → Bitmap.bit words c = true := by
        intro c hc hlt
        by_cases hold : c < 32 * n
        · exact ih c hold
        · exact hc (c - n * 32) (by omega) (by omega)
      by_cases hfull : words n = 0xffffffff#32
      · rw [if_neg (by simp [hfull])]
        intro c hc
        refine hword c (fun j hj he => ?_) hc
        rw [he, bit_word words hj, hfull, show (0xffffffff#32) = BitVec.allOnes 32 from rfl,
          BitVec.getLsbD_allOnes]
        simpa using hj
      · rw [if_pos hfull]
        cases hf : firstFreeBit (words n) with
        | none =>
          intro c hc
          refine hword c (fun j hj he => ?_) hc
          rw [he, bit_word words hj]
          exact eq_allOnes_of_firstFreeBit hf j hj
        | some j =>
          obtain ⟨hj, hclear, hmin⟩ := firstFreeBit_eq_some hf
          show n * 32 + j < 32 * (n + 1) ∧ Bitmap.bit words (n * 32 + j) = false ∧
            ∀ c < n * 32 + j, Bitmap.bit words c = true
          refine ⟨by omega, by rw [bit_word words hj]; exact hclear, ?_⟩
          intro c hc
          refine hword c (fun i hi he => ?_) (by omega)
          rw [he, bit_word words hi]
          exact hmin i (by omega)

/-! ## One allocation -/

/-- The number of blocks the scan looks at: whole words only. -/
def scanned (p : Pmm) : Nat := 32 * (p.maxBlocks.toNat / 32)

theorem scanned_congr {p q : Pmm} (h : p.maxBlocks = q.maxBlocks) : p.scanned = q.scanned := by
  unfold scanned; rw [h]

theorem scanned_le (p : Pmm) : p.scanned ≤ p.maxBlocks.toNat := by unfold scanned; omega

theorem scanned_lt (p : Pmm) : p.scanned < 2 ^ 32 :=
  Nat.lt_of_le_of_lt p.scanned_le p.maxBlocks.isLt

/-- The block the scan picks: the lowest free one, or block 0 when there is none. -/
theorem firstFreeBlock_cases (p : Pmm) :
    (∃ b, b < p.scanned ∧ p.used b = false ∧ (∀ c < b, p.used c = true) ∧
        p.firstFreeBlock = BitVec.ofNat 32 b) ∨
      ((∀ b < p.scanned, p.used b = true) ∧ p.firstFreeBlock = 0) := by
  have hspec := scanWords_spec p.words (p.maxBlocks / 32).toNat
  have hdiv : (p.maxBlocks / 32).toNat = p.maxBlocks.toNat / 32 := BitVec.toNat_udiv
  unfold firstFreeBlock
  cases hb : scanWords p.words (p.maxBlocks / 32).toNat with
  | some b =>
    rw [hb] at hspec
    obtain ⟨hlt, hclear, hbelow⟩ := hspec
    refine Or.inl ⟨b, ?_, hclear, hbelow, rfl⟩
    rw [hdiv] at hlt
    exact hlt
  | none =>
    rw [hb] at hspec
    refine Or.inr ⟨?_, rfl⟩
    rw [hdiv] at hspec
    exact hspec

/-- **The outcomes of an allocation**: the counter is at its limit, the lowest free block is
taken, or the scan fails and block 0 is marked again. -/
theorem pmmAllocBlock_cases (p : Pmm) :
    (p.maxBlocks = p.usedBlocks ∧ p.pmmAllocBlock = (p, 0)) ∨
      (p.maxBlocks ≠ p.usedBlocks ∧ ∃ b, b < p.scanned ∧ p.used b = false ∧
        (∀ c < b, p.used c = true) ∧ p.firstFreeBlock = BitVec.ofNat 32 b ∧
        p.pmmAllocBlock
          = (p.pmmBitmapSet (BitVec.ofNat 32 b), BitVec.ofNat 32 b * pageSize)) ∨
      (p.maxBlocks ≠ p.usedBlocks ∧ (∀ b < p.scanned, p.used b = true) ∧
        p.firstFreeBlock = 0 ∧ p.pmmAllocBlock = (p.pmmBitmapSet 0, 0)) := by
  have hfull : p.maxBlocks - p.usedBlocks ≤ 0 ↔ p.maxBlocks = p.usedBlocks := by
    constructor <;> intro h <;> bv_omega
  unfold pmmAllocBlock
  by_cases h : p.maxBlocks = p.usedBlocks
  · exact Or.inl ⟨h, by rw [if_pos (hfull.mpr h)]⟩
  · rw [if_neg (fun hc => h (hfull.mp hc))]
    rcases p.firstFreeBlock_cases with ⟨b, hb, hclear, hmin, he⟩ | ⟨hall, he⟩
    · exact Or.inr (Or.inl ⟨h, b, hb, hclear, hmin, he, by rw [he]⟩)
    · refine Or.inr (Or.inr ⟨h, hall, he, ?_⟩)
      rw [he]
      rfl

@[simp] theorem maxBlocks_pmmAllocBlock (p : Pmm) :
    p.pmmAllocBlock.1.maxBlocks = p.maxBlocks := by
  unfold pmmAllocBlock
  split <;> rfl

/-- The block of the address that stands for no block. -/
theorem toNat_zero_block : ((0 : U32) / pageSize).toNat = 0 := by simp

/-- The block of an address that an allocation returns. -/
theorem toNat_block {b : Nat} (hb : b < 2 ^ 20) :
    (BitVec.ofNat 32 b * pageSize / pageSize).toNat = b := by
  rw [BitVec.toNat_udiv, BitVec.toNat_mul, BitVec.toNat_ofNat, pageSize_toNat]
  omega

/-- There is no block to allocate: the answer is 0 and no bit is set. -/
def NoneLeft (p : Pmm) : Prop :=
  p.maxBlocks = p.usedBlocks ∨ p.used 0 = true ∧ ∀ b < p.scanned, p.used b = true

theorem words_pmmAllocBlock_iff : p.pmmAllocBlock.1.words = p.words ↔ p.NoneLeft := by
  rcases p.pmmAllocBlock_cases with ⟨he, halloc⟩ | ⟨hne, b, hb, hfree, -, -, halloc⟩ |
    ⟨hne, hall, -, halloc⟩
  · rw [halloc]
    exact iff_of_true rfl (Or.inl he)
  · have hlt := p.scanned_lt
    have hblock : (BitVec.ofNat 32 b).toNat = b := by
      rw [BitVec.toNat_ofNat, Nat.mod_eq_of_lt (by omega)]
    rw [halloc]
    refine iff_of_false (fun hc => ?_) ?_
    · have hset := Bitmap.setBit_eq_self_iff.mp hc
      rw [hblock] at hset
      exact absurd (hset.symm.trans hfree) (by simp)
    · rintro (he | ⟨-, hall⟩)
      · exact hne he
      · exact absurd ((hall b hb).symm.trans hfree) (by simp)
  · rw [halloc]
    refine Bitmap.setBit_eq_self_iff.trans ⟨fun h0 => Or.inr ⟨h0, hall⟩, ?_⟩
    exact fun h => (h.resolve_left hne).1

theorem NoneLeft.block_eq (h : p.NoneLeft) : p.pmmAllocBlock.2 = 0 := by
  rcases p.pmmAllocBlock_cases with ⟨-, halloc⟩ | ⟨hne, b, hb, hfree, -⟩ | ⟨-, -, -, halloc⟩
  · rw [halloc]
  · exact absurd (((h.resolve_left hne).2 b hb).symm.trans hfree) (by simp)
  · rw [halloc]

/-! ## Handing out the blocks in order -/

/-- Exactly the scanned blocks below `n` are handed out, and the counter says so. -/
structure PrefixUsed (p : Pmm) (n : Nat) : Prop where
  counter : p.usedBlocks.toNat = n
  below : ∀ b < n, p.used b = true
  above : ∀ b, n ≤ b → b < p.scanned → p.used b = false

theorem used_pmmBitmapSet (p : Pmm) (bit : U32) (b : Nat) :
    (p.pmmBitmapSet bit).used b = (decide (b = bit.toNat) || p.used b) :=
  Bitmap.bit_setBit _ _ _

theorem used_pmmBitmapUnset (p : Pmm) (bit : U32) (b : Nat) :
    (p.pmmBitmapUnset bit).used b = (!decide (b = bit.toNat) && p.used b) :=
  Bitmap.bit_clearBit _ _ _

theorem pmmBitmapUnset_pmmBitmapSet {bit : U32} (h : p.used bit.toNat = false) :
    (p.pmmBitmapSet bit).pmmBitmapUnset bit = p := by
  unfold pmmBitmapUnset pmmBitmapSet
  simp only [Bitmap.clearBit_setBit h, BitVec.add_sub_cancel]

/-- The lowest clear block is the one that is allocated. -/
theorem pmmAllocBlock_of_lowest (hne : p.maxBlocks ≠ p.usedBlocks) (hn : n < p.scanned)
    (hclear : p.used n = false) (hbelow : ∀ b < n, p.used b = true) :
    p.pmmAllocBlock = (p.pmmBitmapSet (BitVec.ofNat 32 n), BitVec.ofNat 32 n * pageSize) := by
  rcases p.pmmAllocBlock_cases with ⟨he, -⟩ | ⟨-, b, -, hb, hmin, -, hres⟩ | ⟨-, hall, -⟩
  · exact absurd he hne
  · have hbn : b = n := by
      have h1 : ¬ b < n := fun hc => by rw [hbelow b hc] at hb; cases hb
      have h2 : ¬ n < b := fun hc => by rw [hmin n hc] at hclear; cases hclear
      omega
    rw [hres, hbn]
  · rw [hall n hn] at hclear
    cases hclear

/-- A block below the free ones that is given back is the next one to be handed out. -/
theorem pmmAllocBlock_pmmFreeBlock {addr : U32} (hne : p.maxBlocks ≠ p.usedBlocks - 1)
    (hb : b < p.scanned) (hbelow : ∀ c < b, p.used c = true)
    (haddr : (addr / pageSize).toNat = b) : (p.pmmFreeBlock addr).pmmAllocBlock =
      ((p.pmmFreeBlock addr).pmmBitmapSet (BitVec.ofNat 32 b), BitVec.ofNat 32 b * pageSize) := by
  have hused : ∀ c, (p.pmmFreeBlock addr).used c = (!decide (c = b) && p.used c) := fun c => by
    rw [pmmFreeBlock, used_pmmBitmapUnset, haddr]
  refine pmmAllocBlock_of_lowest hne hb ?_ fun c hc => ?_
  · rw [hused]
    simp
  · rw [hused, hbelow c hc, decide_eq_false (by omega)]
    rfl

/-- **The next block is the next one in order.** -/
theorem PrefixUsed.alloc (h : PrefixUsed p n) (hn : n < p.scanned) :
    p.pmmAllocBlock = (p.pmmBitmapSet (BitVec.ofNat 32 n), BitVec.ofNat 32 n * pageSize) ∧
      PrefixUsed (p.pmmBitmapSet (BitVec.ofNat 32 n)) (n + 1) := by
  have hmax := p.scanned_le
  have hlt := p.scanned_lt
  have hne : p.maxBlocks ≠ p.usedBlocks := by
    intro he
    have := congrArg BitVec.toNat he
    rw [h.counter] at this
    omega
  have hn32 : (BitVec.ofNat 32 n).toNat = n := by
    rw [BitVec.toNat_ofNat, Nat.mod_eq_of_lt (by omega)]
  constructor
  · exact pmmAllocBlock_of_lowest hne hn (h.above n (Nat.le_refl _) hn) h.below
  · refine ⟨?_, ?_, ?_⟩
    · show (p.usedBlocks + 1).toNat = n + 1
      rw [BitVec.toNat_add, h.counter]
      show (n + 1) % 2 ^ 32 = n + 1
      exact Nat.mod_eq_of_lt (by omega)
    · intro b hb
      rw [used_pmmBitmapSet, hn32]
      by_cases he : b = n
      · simp [he]
      · simp [h.below b (by omega)]
    · intro b hb hbs
      rw [used_pmmBitmapSet, hn32]
      simp [show b ≠ n by omega, h.above b (by omega) hbs]

/-- `n` allocations in a row. -/
def allocs (p : Pmm) : Nat → Pmm
  | 0 => p
  | n + 1 => (allocs p n).pmmAllocBlock.1

/-- While whole words have a clear block, allocating takes the blocks in order. -/
theorem PrefixUsed.allocs {m : Nat} (h : PrefixUsed p m) (hn : m + n ≤ p.scanned) :
    PrefixUsed (p.allocs n) (m + n) ∧ (p.allocs n).maxBlocks = p.maxBlocks := by
  induction n with
  | zero => exact ⟨h, rfl⟩
  | succ n ih =>
    obtain ⟨hpre, hmax⟩ := ih (by omega)
    obtain ⟨hres, hnext⟩ := hpre.alloc (by rw [scanned_congr hmax]; omega)
    rw [Pmm.allocs, hres]
    exact ⟨hnext, hmax⟩

/-- A block that is given back is the next one to be handed out. -/
theorem PrefixUsed.realloc (h : PrefixUsed p n) (hb : b < n) (hn : n ≤ p.scanned) {addr : U32}
    (haddr : (addr / pageSize).toNat = b) : (p.pmmFreeBlock addr).pmmAllocBlock =
      ((p.pmmFreeBlock addr).pmmBitmapSet (BitVec.ofNat 32 b), BitVec.ofNat 32 b * pageSize) := by
  have hle := p.scanned_le
  refine pmmAllocBlock_pmmFreeBlock (fun he => ?_) (by omega) (fun c hc => h.below c (by omega))
    haddr
  have hcounter : (p.usedBlocks - 1).toNat = n - 1 := by
    rw [BitVec.toNat_sub_of_le (BitVec.le_def.mpr (by rw [h.counter]; show 1 ≤ n; omega)),
      h.counter]
    rfl
  have := congrArg BitVec.toNat he
  omega

/-! ## The lowest free block -/

/-- The address of a block. -/
theorem toNat_blockAddr (hb : b < 2 ^ 20) : (BitVec.ofNat 32 b * pageSize).toNat = 4096 * b := by
  rw [BitVec.toNat_mul, BitVec.toNat_ofNat, pageSize_toNat]
  omega

theorem blockAddr_div (hb : b < 2 ^ 20) :
    BitVec.ofNat 32 b * pageSize / pageSize = BitVec.ofNat 32 b := by
  apply BitVec.eq_of_toNat_eq
  rw [toNat_block hb, BitVec.toNat_ofNat, Nat.mod_eq_of_lt (by omega)]

theorem pmmFreeBlock_pmmBitmapSet (hb : b < 2 ^ 20) (hfree : p.used b = false) :
    (p.pmmBitmapSet (BitVec.ofNat 32 b)).pmmFreeBlock (BitVec.ofNat 32 b * pageSize) = p := by
  have hblock : (BitVec.ofNat 32 b).toNat = b := by
    rw [BitVec.toNat_ofNat, Nat.mod_eq_of_lt (by omega)]
  unfold pmmFreeBlock
  rw [blockAddr_div hb]
  exact pmmBitmapUnset_pmmBitmapSet (by rw [hblock]; exact hfree)

/-- What `pmm_alloc_block` does when it hands out the block `k`. -/
structure HandsOut (p : Pmm) (k : Nat) : Prop where
  addr : p.pmmAllocBlock.2.toNat = 4096 * k
  used : ∀ b, p.pmmAllocBlock.1.used b = (decide (b = k) || p.used b)
  counter : p.pmmAllocBlock.1.usedBlocks.toNat = p.usedBlocks.toNat + 1
  undo : p.pmmAllocBlock.1.pmmFreeBlock p.pmmAllocBlock.2 = p

/-- **The lowest free block is handed out**, freeing it takes this back, and a block below it that
is freed before or after the call is the next one. -/
theorem pmmAllocBlock_lowest (p : Pmm) (hmax : p.maxBlocks.toNat ≤ 2 ^ 20)
    (hused : p.usedBlocks.toNat < p.maxBlocks.toNat)
    (hclear : ∃ b < 32 * (p.maxBlocks.toNat / 32), p.used b = false) :
    ∃ k < 32 * (p.maxBlocks.toNat / 32), p.used k = false ∧ (∀ b < k, p.used b = true) ∧
      p.HandsOut k ∧
      ∀ j < k, ∀ addr : U32, addr.toNat / 4096 = j →
        (p.pmmFreeBlock addr).pmmAllocBlock.2.toNat = 4096 * j ∧
        (p.pmmAllocBlock.1.pmmFreeBlock addr).pmmAllocBlock.2.toNat = 4096 * j := by
  rcases p.pmmAllocBlock_cases with ⟨he, -⟩ | ⟨-, k, hk, hfree, hbelow, -, halloc⟩ | ⟨-, hall, -⟩
  · rw [he] at hused
    exact absurd hused (Nat.lt_irrefl _)
  · have hle := p.scanned_le
    have hlt : k < 2 ^ 20 := by omega
    have hk32 : (BitVec.ofNat 32 k).toNat = k := by
      rw [BitVec.toNat_ofNat, Nat.mod_eq_of_lt (by omega)]
    -- the bits of the bitmap after the call
    have hset : ∀ b, p.pmmAllocBlock.1.used b = (decide (b = k) || p.used b) := by
      intro b
      rw [halloc, used_pmmBitmapSet, hk32]
    have hcounter : p.pmmAllocBlock.1.usedBlocks = p.usedBlocks + 1 := by
      rw [halloc]
      rfl
    refine ⟨k, hk, hfree, hbelow, ⟨?_, hset, ?_, ?_⟩, fun j hj addr haddr => ⟨?_, ?_⟩⟩
    · rw [halloc]
      exact toNat_blockAddr hlt
    · rw [hcounter]
      bv_omega
    · rw [halloc]
      exact pmmFreeBlock_pmmBitmapSet hlt hfree
    · have hblock : (addr / pageSize).toNat = j := by
        rw [BitVec.toNat_udiv, pageSize_toNat, haddr]
      rw [pmmAllocBlock_pmmFreeBlock (by bv_omega) (by omega)
        (fun c hc => hbelow c (by omega)) hblock]
      exact toNat_blockAddr (by omega)
    · have hblock : (addr / pageSize).toNat = j := by
        rw [BitVec.toNat_udiv, pageSize_toNat, haddr]
      have hscanned : p.pmmAllocBlock.1.scanned = p.scanned :=
        scanned_congr p.maxBlocks_pmmAllocBlock
      rw [pmmAllocBlock_pmmFreeBlock (by rw [maxBlocks_pmmAllocBlock, hcounter]; bv_omega)
        (by omega) (fun c hc => by rw [hset, hbelow c (by omega), Bool.or_true]) hblock]
      exact toNat_blockAddr (by omega)
  · -- a bit is clear, so the scan does not fail
    obtain ⟨b, hb, hfree⟩ := hclear
    rw [hall b hb] at hfree
    cases hfree

/-- Sixty-four blocks, the first two of them in use. -/
def twoUsed : Pmm := ⟨64, 2, 0, 8, fun i => if i = 0 then 3 else 0⟩

theorem pmmAllocBlock_lowest_twoUsed : ∃ k < 64, twoUsed.used k = false ∧ twoUsed.HandsOut k := by
  obtain ⟨k, hk, hfree, -, hout, -⟩ :=
    pmmAllocBlock_lowest twoUsed (by decide) (by decide) ⟨2, by decide, by decide⟩
  exact ⟨k, hk, hfree, hout⟩

/-! ## After `pmm_init` -/

theorem pmmInit_eq_some {raw : Nat → U32} {kernelEndPhys : U32} {tags : List Mboot2Tag}
    (h : pmmInit raw kernelEndPhys tags = some p) :
    p.maxBlocks.toNat < 2 ^ 20 ∧ p.usedBlocks = 0 ∧
      p.pmmBitmapSize = p.maxBlocks / 8 ∧
      p.pmmBitmap = alignTo (bootEnd kernelEndPhys tags + kernBase) 4 ∧
      p.words = Bitmap.zeroBytes raw (p.maxBlocks.toNat / 8) := by
  unfold pmmInit at h
  split at h
  · cases h
  · split at h
    · cases h
    · next memLower memUpper _ =>
      simp only [Option.some.injEq] at h
      subst h
      refine ⟨?_, rfl, rfl, by dsimp only, by rw [BitVec.toNat_udiv]; rfl⟩
      have hlt := ((memLower + memUpper) * kib).isLt
      rw [BitVec.toNat_udiv, pageSize_toNat]
      omega

/-- Right after `pmm_init` no block is handed out. -/
theorem prefixUsed_pmmInit {raw : Nat → U32} {kernelEndPhys : U32} {tags : List Mboot2Tag}
    (h : pmmInit raw kernelEndPhys tags = some p) : PrefixUsed p 0 := by
  obtain ⟨-, hused, -, -, hwords⟩ := pmmInit_eq_some h
  refine ⟨by rw [hused]; rfl, fun b hb => absurd hb (Nat.not_lt_zero _), ?_⟩
  intro b _ hb
  unfold scanned at hb
  rw [used, hwords, Bitmap.bit_zeroBytes, decide_eq_false (by omega), Bool.false_and]

end PiggyOS.Pmm
