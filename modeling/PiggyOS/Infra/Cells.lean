import PiggyOS.Infra.Bytes

/-!
# Arrays of 16-bit cells

The cell number `i` of the array at `base` is the word at `base + 2 * i`. As long as the array is
not larger than the address space, its cells do not overlap, and a forward copy inside of the array
moves cells.
-/

namespace PiggyOS.Infra

namespace Mem

variable {m : Mem} {base a x : U32} {v : BitVec 16} {i j k d : Nat}

/-- Stores the 16-bit word `v` at `a`. -/
def write16 (m : Mem) (a : U32) (v : BitVec 16) : Mem := fun x =>
  if x = a then v.extractLsb' 0 8 else if x = a + 1 then v.extractLsb' 8 8 else m x

/-- The address of the cell number `i`. -/
def cellAddr (base : U32) (i : Nat) : U32 := base + BitVec.ofNat 32 (2 * i)

def cell (m : Mem) (base : U32) (i : Nat) : BitVec 16 := m.read16 (cellAddr base i)

theorem read16_write16 : (m.write16 a v).read16 a = v := by
  have h0 : m.write16 a v a = v.extractLsb' 0 8 := if_pos rfl
  have h1 : m.write16 a v (a + 1) = v.extractLsb' 8 8 := by
    unfold write16
    rw [if_neg (by bv_omega), if_pos rfl]
  rw [read16, h0, h1]
  apply BitVec.eq_of_getLsbD_eq
  intro i hi
  simp only [BitVec.getLsbD_append, BitVec.getLsbD_extractLsb']
  by_cases h8 : i < 8
  · simp [h8]
  · simp [h8, show i - 8 < 8 by omega, show 8 + (i - 8) = i by omega]

theorem write16_of_le (h : 2 ≤ (x - a).toNat) : m.write16 a v x = m x := by
  unfold write16
  rw [if_neg (by bv_omega), if_neg (by bv_omega)]

/-- Cells are two bytes apart. -/
theorem toNat_cellAddr_sub (base : U32) (hi : i < 2 ^ 31) (hj : j < 2 ^ 31) (h : i ≠ j) :
    2 ≤ (cellAddr base i - cellAddr base j).toNat ∧
      2 ≤ (cellAddr base i + 1 - cellAddr base j).toNat := by
  unfold cellAddr
  have hi' : (BitVec.ofNat 32 (2 * i)).toNat = 2 * i := by
    rw [BitVec.toNat_ofNat, Nat.mod_eq_of_lt (by omega)]
  have hj' : (BitVec.ofNat 32 (2 * j)).toNat = 2 * j := by
    rw [BitVec.toNat_ofNat, Nat.mod_eq_of_lt (by omega)]
  generalize BitVec.ofNat 32 (2 * i) = bi at *
  generalize BitVec.ofNat 32 (2 * j) = bj at *
  constructor <;> bv_omega

/-- A store to one cell. -/
theorem cell_write16 (hi : i < 2 ^ 31) (hj : j < 2 ^ 31) :
    (m.write16 (cellAddr base j) v).cell base i = if i = j then v else m.cell base i := by
  by_cases h : i = j
  · rw [if_pos h, h]
    exact read16_write16
  · obtain ⟨hlow, hhigh⟩ := toNat_cellAddr_sub base hi hj h
    rw [if_neg h, cell, read16, write16_of_le hlow, write16_of_le hhigh]
    rfl

theorem cellAddr_add (i d : Nat) : cellAddr (cellAddr base d) i = cellAddr base (i + d) := by
  unfold cellAddr
  rw [BitVec.add_assoc, BitVec.ofNat_add_ofNat, ← Nat.mul_add, Nat.add_comm d i]

/-- A copy of `k` cells from the cell number `d` on to the beginning of the array. -/
theorem cell_copy (hd : 0 < d) (hk : d + k < 2 ^ 31) (hi : i < 2 ^ 31) :
    (m.copy base (cellAddr base d) (2 * k)).cell base i =
      if i < k then m.cell base (i + d) else m.cell base i := by
  have hi' : (BitVec.ofNat 32 (2 * i)).toNat = 2 * i := by
    rw [BitVec.toNat_ofNat, Nat.mod_eq_of_lt (by omega)]
  have hd' : (BitVec.ofNat 32 (2 * d)).toNat = 2 * d := by
    rw [BitVec.toNat_ofNat, Nat.mod_eq_of_lt (by omega)]
  have hroom : 2 * k ≤ (base - cellAddr base d).toNat := by
    unfold cellAddr
    generalize BitVec.ofNat 32 (2 * d) = bd at *
    bv_omega
  have hlow : cellAddr base i - base = BitVec.ofNat 32 (2 * i) := by
    unfold cellAddr
    rw [BitVec.add_comm, BitVec.add_sub_cancel]
  have hhigh : cellAddr base i + 1 - base = BitVec.ofNat 32 (2 * i) + 1 := by
    unfold cellAddr
    generalize BitVec.ofNat 32 (2 * i) = bi
    bv_omega
  have hhigh' : (BitVec.ofNat 32 (2 * i) + 1).toNat = 2 * i + 1 := by
    rw [BitVec.toNat_add, hi']
    show (2 * i + 1) % 2 ^ 32 = 2 * i + 1
    omega
  unfold cell
  rw [← cellAddr_add, read16, copy_apply hroom, copy_apply hroom, hlow, hhigh, hi', hhigh']
  by_cases h : i < k
  · rw [if_pos (by omega), if_pos (by omega), if_pos h, ← BitVec.add_assoc]
    rfl
  · rw [if_neg (by omega), if_neg (by omega), if_neg h]
    rfl

end Mem

end PiggyOS.Infra
