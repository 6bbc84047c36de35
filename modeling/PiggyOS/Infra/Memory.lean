import Mathlib.Algebra.Group.Nat.Defs

/-!
# Byte memory of a 32-bit machine

Addresses are 32-bit words and wrap around; a word occupies four bytes, lowest byte first.
Two word accesses do not meet when their addresses are at least four apart in both
directions around the address space (`Apart`).
-/

namespace PiggyOS.Infra

/-- `uint32_t`, and a pointer on i686. -/
abbrev U32 := BitVec 32

/-- The contents of the address space. -/
abbrev Mem := U32 → BitVec 8

/-- The words at `a` and at `b` share no byte. -/
def Apart (a b : U32) : Prop := 4 ≤ (a - b).toNat ∧ 4 ≤ (b - a).toNat

namespace Mem

/-- The 16-bit word at `a`. -/
def read16 (m : Mem) (a : U32) : BitVec 16 := (m (a + 1) ++ m a : BitVec (8 + 8))

/-- The 32-bit word at `a`. -/
def read32 (m : Mem) (a : U32) : U32 :=
  (m (a + 3) ++ m (a + 2) ++ m (a + 1) ++ m a : BitVec (8 + 8 + 8 + 8))

/-- Stores the 32-bit word `v` at `a`. -/
def write32 (m : Mem) (a v : U32) : Mem := fun x =>
  if x = a then v.extractLsb' 0 8
  else if x = a + 1 then v.extractLsb' 8 8
  else if x = a + 2 then v.extractLsb' 16 8
  else if x = a + 3 then v.extractLsb' 24 8
  else m x

/-- `rep movsb`: copies `n` bytes upwards, one at a time. -/
def copy (m : Mem) (dst src : U32) : Nat → Mem
  | 0 => m
  | n + 1 => copy (fun x => if x = dst then m src else m x) (dst + 1) (src + 1) n

theorem write32_of_apart_byte {m : Mem} {a v x : U32} (h : 4 ≤ (x - a).toNat) :
    m.write32 a v x = m x := by
  unfold write32
  rw [if_neg (by bv_omega), if_neg (by bv_omega), if_neg (by bv_omega), if_neg (by bv_omega)]

theorem read32_write32 (m : Mem) (a v : U32) : (m.write32 a v).read32 a = v := by
  have h0 : m.write32 a v a = v.extractLsb' 0 8 := by simp [write32]
  have h1 : m.write32 a v (a + 1) = v.extractLsb' 8 8 := by
    unfold write32
    rw [if_neg (by bv_omega), if_pos rfl]
  have h2 : m.write32 a v (a + 2) = v.extractLsb' 16 8 := by
    unfold write32
    rw [if_neg (by bv_omega), if_neg (by bv_omega), if_pos rfl]
  have h3 : m.write32 a v (a + 3) = v.extractLsb' 24 8 := by
    unfold write32
    rw [if_neg (by bv_omega), if_neg (by bv_omega), if_neg (by bv_omega), if_pos rfl]
  rw [read32, h0, h1, h2, h3]
  apply BitVec.eq_of_getLsbD_eq
  intro i hi
  simp only [BitVec.getLsbD_append, BitVec.getLsbD_extractLsb']
  by_cases h8 : i < 8
  · simp [h8]
  · by_cases h16 : i < 16
    · simp [h8, show i - 8 < 8 by omega, show 8 + (i - 8) = i by omega]
    · by_cases h24 : i < 24
      · simp [h8, show ¬ i - 8 < 8 by omega, show i - 8 - 8 < 8 by omega,
          show 16 + (i - 8 - 8) = i by omega]
      · simp [h8, show ¬ i - 8 < 8 by omega, show ¬ i - 8 - 8 < 8 by omega,
          show i - 8 - 8 - 8 < 8 by omega, show 24 + (i - 8 - 8 - 8) = i by omega]

theorem read32_write32_of_apart {m : Mem} {a b v : U32} (h : Apart a b) :
    (m.write32 a v).read32 b = m.read32 b := by
  obtain ⟨h1, h2⟩ := h
  unfold read32
  rw [write32_of_apart_byte (by bv_omega), write32_of_apart_byte (by bv_omega),
    write32_of_apart_byte (by bv_omega), write32_of_apart_byte (by bv_omega)]

end Mem

end PiggyOS.Infra
