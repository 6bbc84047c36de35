import Mathlib.Data.List.Basic
import PiggyOS.Infra.Memory

/-!
# Byte strings in memory

`m.Holds a bs` says that the bytes `bs` lie in memory from the address `a` on. The predicate is cut
and joined along the list of bytes, so that the fields of a record are found from the list of its
fields. A forward copy moves what it says when its destination does not start inside of what is
left of its source.
-/

namespace PiggyOS.Infra

namespace Mem

variable {m : Mem} {a x dst src : U32} {bs xs ys : List (BitVec 8)} {n : Nat}

def Holds (m : Mem) (a : U32) (bs : List (BitVec 8)) : Prop :=
  ∀ i (h : i < bs.length), m (a + BitVec.ofNat 32 i) = bs[i]

/-- The concatenation of two strings. -/
theorem holds_append : m.Holds a (xs ++ ys) ↔
    m.Holds a xs ∧ m.Holds (a + BitVec.ofNat 32 xs.length) ys := by
  constructor
  · intro h
    refine ⟨fun i hi => ?_, fun i hi => ?_⟩
    · rw [h i (by simp; omega), List.getElem_append_left hi]
    · rw [BitVec.add_assoc, BitVec.ofNat_add_ofNat, h _ (by simp; omega),
        List.getElem_append_right (by omega)]
      simp
  · rintro ⟨hx, hy⟩ i hi
    by_cases hlt : i < xs.length
    · rw [hx i hlt, List.getElem_append_left hlt]
    · obtain ⟨j, rfl⟩ := Nat.exists_eq_add_of_le (Nat.le_of_not_lt hlt)
      have hj : j < ys.length := by simpa using hi
      rw [BitVec.ofNat_add, ← BitVec.add_assoc, hy j hj, List.getElem_append_right (by omega)]
      simp

theorem holds_cons {b : BitVec 8} : m.Holds a (b :: bs) ↔ m a = b ∧ m.Holds (a + 1) bs := by
  rw [← List.singleton_append, holds_append]
  refine and_congr ⟨fun h => ?_, fun h i hi => ?_⟩ Iff.rfl
  · simpa using h 0 (by simp)
  · obtain rfl : i = 0 := by simpa using hi
    simpa using h

/-- The `i`-th byte of a string, seen from its address. -/
theorem toNat_offset {i : Nat} (hi : i < 2 ^ 32) : (a + BitVec.ofNat 32 i - a).toNat = i := by
  rw [BitVec.add_comm, BitVec.add_sub_cancel, BitVec.toNat_ofNat, Nat.mod_eq_of_lt hi]

theorem add_ofNat_succ (a : U32) (i : Nat) :
    a + BitVec.ofNat 32 (i + 1) = a + 1 + BitVec.ofNat 32 i := by
  rw [Nat.add_comm, BitVec.ofNat_add, ← BitVec.add_assoc]
  rfl

/-- A memory with the bytes `bs` at `a` and zeros elsewhere. -/
def ofBytes (a : U32) (bs : List (BitVec 8)) : Mem := fun x => bs.getD (x - a).toNat 0

theorem holds_ofBytes (h : bs.length ≤ 2 ^ 32) : (ofBytes a bs).Holds a bs := by
  intro i hi
  rw [ofBytes, toNat_offset (by omega), List.getD_eq_getElem?_getD, List.getElem?_eq_getElem hi]
  rfl

/-- What a forward copy leaves in memory, when it does not run into what it has yet to read. -/
theorem copy_apply (hn : n ≤ (dst - src).toNat) :
    m.copy dst src n x = if (x - dst).toNat < n then m (src + (x - dst)) else m x := by
  induction n generalizing m dst src with
  | zero => simp [copy]
  | succ n ih =>
    have hdiff : dst + 1 - (src + 1) = dst - src := by bv_omega
    have hfrom : src + 1 + (x - (dst + 1)) = src + (x - dst) := by bv_omega
    rw [copy, ih (by rw [hdiff]; omega), hfrom]
    by_cases hx : x = dst
    · subst hx
      rw [if_neg (by bv_omega), if_pos rfl, if_pos (by simp)]
      simp
    · have hpos : (x - dst).toNat ≠ 0 := by bv_omega
      have hsucc : (x - (dst + 1)).toNat < n ↔ (x - dst).toNat < n + 1 := by bv_omega
      by_cases hlt : (x - dst).toNat < n + 1
      · rw [if_pos (hsucc.mpr hlt), if_pos hlt, if_neg]
        intro heq
        bv_omega
      · rw [if_neg (mt hsucc.mp hlt), if_neg hlt, if_neg hx]

/-- A string is copied. -/
theorem Holds.copy (h : m.Holds src bs) (hn : bs.length ≤ (dst - src).toNat) :
    (m.copy dst src bs.length).Holds dst bs := by
  intro i hi
  have hoff : (dst + BitVec.ofNat 32 i - dst).toNat = i := toNat_offset (by omega)
  rw [copy_apply hn, if_pos (by rw [hoff]; exact hi), BitVec.add_comm dst, BitVec.add_sub_cancel]
  exact h i hi

/-- A copy writes to its destination only, whatever it overlaps with. -/
theorem copy_of_le (hx : n ≤ (x - dst).toNat) : m.copy dst src n x = m x := by
  induction n generalizing m dst src with
  | zero => rfl
  | succ n ih =>
    rw [copy, ih (by bv_omega), if_neg]
    rintro rfl
    bv_omega

/-- A destination that is not in the string. -/
theorem le_toNat_sub (h : ∀ i < n, dst ≠ src + BitVec.ofNat 32 i) : n ≤ (dst - src).toNat := by
  by_contra hlt
  refine h (dst - src).toNat (by omega) ?_
  rw [BitVec.ofNat_toNat, BitVec.setWidth_eq, BitVec.add_comm, BitVec.sub_add_cancel]

/-- Stores the byte `v` to `n` addresses from `dst` on, one at a time. -/
def fill (m : Mem) (dst : U32) (v : BitVec 8) : Nat → Mem
  | 0 => m
  | n + 1 => fill (fun x => if x = dst then v else m x) (dst + 1) v n

theorem fill_apply {v : BitVec 8} (hn : n < 2 ^ 32) :
    m.fill dst v n x = if (x - dst).toNat < n then v else m x := by
  induction n generalizing m dst with
  | zero => simp [fill]
  | succ n ih =>
    rw [fill, ih (by omega)]
    by_cases hx : x = dst
    · subst hx
      rw [if_neg (by bv_omega), if_pos rfl, if_pos (by simp)]
    · have hpos : (x - dst).toNat ≠ 0 := by bv_omega
      have hsucc : (x - (dst + 1)).toNat < n ↔ (x - dst).toNat < n + 1 := by bv_omega
      rw [if_neg hx]
      simp only [hsucc]

/-- The memory with the bytes `bs` at `a`. -/
def write (m : Mem) (a : U32) (bs : List (BitVec 8)) : Mem :=
  fun x => if (x - a).toNat < bs.length then bs.getD (x - a).toNat 0 else m x

/-- The `n` bytes from the address `a` on. -/
def slice (m : Mem) (a : U32) (n : Nat) : List (BitVec 8) :=
  (List.range n).map fun i => m (a + BitVec.ofNat 32 i)

@[simp] theorem length_slice : (m.slice a n).length = n := by simp [slice]

theorem slice_congr {m' : Mem} {b : U32}
    (h : ∀ i < n, m' (b + BitVec.ofNat 32 i) = m (a + BitVec.ofNat 32 i)) :
    m'.slice b n = m.slice a n :=
  List.map_congr_left fun i hi => h i (List.mem_range.mp hi)

theorem Holds.slice (h : m.Holds a bs) : m.slice a bs.length = bs := by
  apply List.ext_getElem length_slice
  intro i hi hi'
  rw [← h i hi']
  simp [Mem.slice]

/-- The bytes at an address lie there. -/
theorem holds_slice : m.Holds a (m.slice a n) := by
  intro i hi
  simp [Mem.slice]

/-- A memory that is the same there. -/
theorem Holds.of_same {m' : Mem} (h : m.Holds a bs)
    (hsame : ∀ x : U32, (x - a).toNat < bs.length → m' x = m x) : m'.Holds a bs := by
  intro i hi
  rw [hsame _ ?_, h i hi]
  rw [BitVec.add_comm, BitVec.add_sub_cancel, BitVec.toNat_ofNat]
  exact Nat.lt_of_le_of_lt (Nat.mod_le i _) hi

/-- A store elsewhere. -/
theorem Holds.update {v : BitVec 8} (h : m.Holds a bs) (hx : ¬ (x - a).toNat < bs.length) :
    Mem.Holds (Function.update m x v) a bs :=
  h.of_same fun y hy => Function.update_of_ne (fun heq : y = x => hx (by rwa [heq] at hy)) ..

theorem take_slice {k : Nat} (hk : k ≤ n) : (m.slice a n).take k = m.slice a k := by
  rw [slice, ← List.map_take, List.take_range, Nat.min_eq_left hk]
  rfl

/-- What a copy puts into its destination. -/
theorem slice_copy (hn : n ≤ (dst - src).toNat) : (m.copy dst src n).slice dst n = m.slice src n :=
  slice_congr fun i hi => by
    have hoff : (dst + BitVec.ofNat 32 i - dst).toNat = i := toNat_offset (by omega)
    rw [copy_apply hn, hoff, if_pos hi, BitVec.add_comm dst, BitVec.add_sub_cancel]

/-! ## One string at two addresses -/

section

variable {m' : Mem} {a' k : U32}

theorem holds_write (h : bs.length ≤ 2 ^ 32) : (m.write a bs).Holds a bs := by
  intro i hi
  rw [write, toNat_offset (by omega), if_pos hi, List.getD_eq_getElem?_getD,
    List.getElem?_eq_getElem hi]
  rfl

theorem Holds.byte_eq (h : m.Holds a bs) (h' : m'.Holds a' bs) (hk : k.toNat < bs.length) :
    m (a + k) = m' (a' + k) := by
  have hbyte := (h k.toNat hk).trans (h' k.toNat hk).symm
  rwa [BitVec.ofNat_toNat, BitVec.setWidth_eq] at hbyte

theorem Holds.read16_eq (h : m.Holds a bs) (h' : m'.Holds a' bs) (hk : k.toNat + 2 ≤ bs.length) :
    m.read16 (a + k) = m'.read16 (a' + k) := by
  have hnext : (k + 1).toNat < bs.length := by bv_omega
  unfold read16
  rw [BitVec.add_assoc, BitVec.add_assoc, h.byte_eq h' hnext,
    h.byte_eq h' (show k.toNat < bs.length by omega)]

theorem Holds.read32_eq (h : m.Holds a bs) (h' : m'.Holds a' bs) (hk : k.toNat + 4 ≤ bs.length) :
    m.read32 (a + k) = m'.read32 (a' + k) := by
  have hnext {j : U32} (hj : j.toNat < 4) : (k + j).toNat < bs.length := by bv_omega
  unfold read32
  simp only [BitVec.add_assoc]
  rw [h.byte_eq h' (hnext (j := 3) (by decide)), h.byte_eq h' (hnext (j := 2) (by decide)),
    h.byte_eq h' (hnext (j := 1) (by decide)), h.byte_eq h' (show k.toNat < bs.length by omega)]

end

/-! ## Arrays of words -/

/-- The array of 32-bit words at `a`. -/
def words (m : Mem) (a : U32) (i : Nat) : U32 := m.read32 (a + BitVec.ofNat 32 (4 * i))

/-- The bits of a word are those of its bytes. -/
theorem getLsbD_read32 {j : Nat} (hj : j < 32) :
    (m.read32 a).getLsbD j = (m (a + BitVec.ofNat 32 (j / 8))).getLsbD (j % 8) := by
  unfold read32
  simp only [BitVec.getLsbD_append]
  by_cases h8 : j < 8
  · simp [h8, Nat.mod_eq_of_lt, show j / 8 = 0 by omega]
  · by_cases h16 : j < 16
    · rw [show j / 8 = 1 by omega, show j % 8 = j - 8 by omega]
      simp [h8, show j - 8 < 8 by omega]
    · by_cases h24 : j < 24
      · rw [show j / 8 = 2 by omega, show j % 8 = j - 8 - 8 by omega]
        simp [h8, show ¬ j - 8 < 8 by omega, show j - 8 - 8 < 8 by omega]
      · rw [show j / 8 = 3 by omega, show j % 8 = j - 8 - 8 - 8 by omega]
        simp [h8, show ¬ j - 8 < 8 by omega, show ¬ j - 8 - 8 < 8 by omega]

/-- A bit of a word of an array lies in a byte of the array. -/
theorem getLsbD_words {i j : Nat} (hj : j < 32) :
    (m.words a i).getLsbD j = (m (a + BitVec.ofNat 32 (4 * i + j / 8))).getLsbD (j % 8) := by
  rw [words, getLsbD_read32 hj, BitVec.add_assoc, BitVec.ofNat_add_ofNat]

end Mem

end PiggyOS.Infra
