import Mathlib.Data.Finset.Card
import PiggyOS.Infra.Bytes

/-!
# Bitmaps

An array of 32-bit words read as a set of natural numbers: bit `b` is bit `b % 32` of word
`b / 32`. Setting and clearing a bit is done with masks on the word; `count` is the number of
set bits below a bound.
-/

namespace PiggyOS.Infra.Bitmap

variable {w : Nat → U32} {b c n : Nat}

/-- Bit `b` of the array `w`. -/
def bit (w : Nat → U32) (b : Nat) : Bool := (w (b / 32)).getLsbD (b % 32)

/-- `w[b / 32] |= (1 << (b % 32))` -/
def setBit (w : Nat → U32) (b : Nat) : Nat → U32 :=
  fun i => if i = b / 32 then w i ||| (1#32 <<< (b % 32)) else w i

/-- `w[b / 32] &= ~(1 << (b % 32))` -/
def clearBit (w : Nat → U32) (b : Nat) : Nat → U32 :=
  fun i => if i = b / 32 then w i &&& ~~~(1#32 <<< (b % 32)) else w i

theorem getLsbD_one_shiftLeft {i j : Nat} (hi : i < 32) (hj : j < 32) :
    (1#32 <<< i).getLsbD j = decide (j = i) := by
  rw [BitVec.getLsbD_shiftLeft, BitVec.getLsbD_one]
  by_cases h : j = i
  · subst h; simp [hj]
  · rw [decide_eq_false h]
    by_cases hlt : j < i
    · simp [hlt]
    · simp [show ¬ j - i = 0 by omega]

@[simp] theorem bit_setBit (w : Nat → U32) (b c : Nat) :
    bit (setBit w b) c = (decide (c = b) || bit w c) := by
  unfold bit setBit
  by_cases h : c / 32 = b / 32
  · rw [if_pos h, BitVec.getLsbD_or,
      getLsbD_one_shiftLeft (Nat.mod_lt _ (by omega)) (Nat.mod_lt _ (by omega)), Bool.or_comm]
    congr 1
    exact decide_eq_decide.mpr (by omega)
  · rw [if_neg h, decide_eq_false (by rintro rfl; exact h rfl), Bool.false_or]

@[simp] theorem bit_clearBit (w : Nat → U32) (b c : Nat) :
    bit (clearBit w b) c = (!decide (c = b) && bit w c) := by
  unfold bit clearBit
  by_cases h : c / 32 = b / 32
  · rw [if_pos h, BitVec.getLsbD_and, BitVec.getLsbD_not,
      getLsbD_one_shiftLeft (Nat.mod_lt _ (by omega)) (Nat.mod_lt _ (by omega)), Bool.and_comm]
    have hlt : c % 32 < 32 := Nat.mod_lt _ (by omega)
    rw [decide_eq_true hlt, Bool.true_and]
    congr 2
    exact decide_eq_decide.mpr (by omega)
  · rw [if_neg h, decide_eq_false (by rintro rfl; exact h rfl), Bool.not_false, Bool.true_and]

/-- An array is the set of its bits. -/
theorem eq_of_bit_eq {v : Nat → U32} (h : ∀ b, bit v b = bit w b) : v = w := by
  funext i
  apply BitVec.eq_of_getLsbD_eq
  intro j hj
  have hbit := h (32 * i + j)
  unfold bit at hbit
  rwa [show (32 * i + j) / 32 = i by omega, show (32 * i + j) % 32 = j by omega] at hbit

theorem setBit_eq_self_iff : setBit w b = w ↔ bit w b = true := by
  constructor
  · intro h
    rw [← h, bit_setBit]
    simp
  · intro h
    refine eq_of_bit_eq fun c => ?_
    by_cases hc : c = b
    · simp [hc, h]
    · simp [hc]

theorem clearBit_setBit (h : bit w b = false) : clearBit (setBit w b) b = w := by
  refine eq_of_bit_eq fun c => ?_
  by_cases hc : c = b
  · simp [hc, h]
  · simp [hc]

/-- `memset(w, 0, n)` on the bytes of the array, lowest byte of a word first. -/
def zeroBytes (w : Nat → U32) (n : Nat) : Nat → U32 :=
  fun i => (w i >>> (8 * (n - 4 * i))) <<< (8 * (n - 4 * i))

theorem bit_zeroBytes (w : Nat → U32) (n b : Nat) :
    bit (zeroBytes w n) b = (decide (8 * n ≤ b) && bit w b) := by
  unfold bit zeroBytes
  have hb : b % 32 < 32 := Nat.mod_lt _ (by omega)
  rw [BitVec.getLsbD_shiftLeft, BitVec.getLsbD_ushiftRight]
  by_cases h : 8 * n ≤ b
  · have hlt : ¬ b % 32 < 8 * (n - 4 * (b / 32)) := by omega
    simp [h, hlt, hb, show 8 * (n - 4 * (b / 32)) + (b % 32 - 8 * (n - 4 * (b / 32))) = b % 32
      by omega]
  · have hlt : b % 32 < 8 * (n - 4 * (b / 32)) := by omega
    simp [h, hlt]

theorem zeroBytes_of_le {i : Nat} (h : 4 * i + 4 ≤ n) : zeroBytes w n i = 0 :=
  BitVec.shiftLeft_eq_zero (by omega)

/-- `zeroBytes` is `memset` on the array in memory. -/
theorem words_fill {m : Mem} {a : U32} {i : Nat} (hi : i < 2 ^ 30) (hn : n < 2 ^ 32) :
    (m.fill a 0 n).words a i = zeroBytes (m.words a) n i := by
  apply BitVec.eq_of_getLsbD_eq
  intro j hj
  have hbit := bit_zeroBytes (m.words a) n (32 * i + j)
  unfold bit at hbit
  rw [show (32 * i + j) / 32 = i by omega, show (32 * i + j) % 32 = j by omega] at hbit
  rw [hbit, Mem.getLsbD_words hj, Mem.getLsbD_words hj, Mem.fill_apply hn,
    Mem.toNat_offset (by omega)]
  by_cases hlt : 4 * i + j / 8 < n
  · rw [if_pos hlt, decide_eq_false (by omega)]
    simp
  · rw [if_neg hlt, decide_eq_true (by omega), Bool.true_and]

/-! ## Counting the set bits -/

/-- The number of set bits among the first `n`. -/
def count (w : Nat → U32) (n : Nat) : Nat := ((Finset.range n).filter (bit w · = true)).card

theorem count_congr {v : Nat → U32} (h : ∀ b < n, bit v b = bit w b) : count v n = count w n := by
  unfold count
  congr 1
  ext b
  simp only [Finset.mem_filter, Finset.mem_range]
  exact and_congr_right fun hb => by rw [h b hb]

theorem count_setBit (hb : b < n) (hclear : bit w b = false) :
    count (setBit w b) n = count w n + 1 := by
  have hins : (Finset.range n).filter (bit (setBit w b) · = true)
      = insert b ((Finset.range n).filter (bit w · = true)) := by
    ext c
    by_cases h : c = b
    · subst h; simp [hb]
    · simp [h]
  unfold count
  rw [hins, Finset.card_insert_of_notMem (by simp [hclear])]

theorem count_clearBit (hb : b < n) (hset : bit w b = true) :
    count (clearBit w b) n + 1 = count w n := by
  have hback : count (setBit (clearBit w b) b) n = count (clearBit w b) n + 1 :=
    count_setBit hb (by simp)
  rw [← hback]
  refine count_congr fun c _ => ?_
  by_cases h : c = b
  · subst h; simp [hset]
  · simp [h]

theorem count_le (w : Nat → U32) (n : Nat) : count w n ≤ n := by
  calc count w n ≤ (Finset.range n).card := Finset.card_filter_le _ _
    _ = n := Finset.card_range n

theorem exists_clear_of_count_lt (h : count w n < n) : ∃ b < n, bit w b = false := by
  by_contra hall
  have hset : ∀ b < n, bit w b = true := by
    intro b hb
    cases hbit : bit w b with
    | true => rfl
    | false => exact absurd ⟨b, hb, hbit⟩ hall
  have : count w n = n := by
    unfold count
    rw [Finset.filter_true_of_mem fun b hb => hset b (Finset.mem_range.mp hb), Finset.card_range]
  omega

theorem bit_of_count_eq (h : count w n = n) (hb : b < n) : bit w b = true := by
  have hall : (Finset.range n).filter (bit w · = true) = Finset.range n :=
    Finset.eq_of_subset_of_card_le (Finset.filter_subset _ _)
      (by rw [Finset.card_range]; exact h.ge)
  have hmem : b ∈ (Finset.range n).filter (bit w · = true) := by
    rw [hall]; exact Finset.mem_range.mpr hb
  exact (Finset.mem_filter.mp hmem).2

theorem count_eq_zero (h : ∀ b < n, bit w b = false) : count w n = 0 := by
  unfold count
  rw [Finset.card_eq_zero, Finset.filter_eq_empty_iff]
  intro b hb
  simp [h b (Finset.mem_range.mp hb)]

end PiggyOS.Infra.Bitmap
