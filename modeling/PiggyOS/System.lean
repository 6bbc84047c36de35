import PiggyOS.Infra.Memory

/-!
# Constants and helpers of `system.h`
-/

namespace PiggyOS

open Infra

/-- `KERN_BASE`: where the kernel half of every address space starts. -/
def kernBase : U32 := 0xc0000000#32

@[simp] theorem kernBase_toNat : kernBase.toNat = 0xc0000000 := rfl

/-- `PAGE_SIZE`, and `PMM_BLOCK_SIZE` too. -/
def pageSize : U32 := 4096#32

@[simp] theorem pageSize_toNat : pageSize.toNat = 4096 := rfl

theorem toNat_add_pageSize {a : U32} (h : a.toNat + 4096 < 2 ^ 32) :
    (a + pageSize).toNat = a.toNat + 4096 := by
  rw [BitVec.toNat_add, pageSize_toNat, Nat.mod_eq_of_lt h]

theorem toNat_sub_pageSize {a : U32} (h : 4096 ≤ a.toNat) :
    (a - pageSize).toNat = a.toNat - 4096 := by
  rw [BitVec.toNat_sub_of_le (show pageSize ≤ a from h), pageSize_toNat]

/-- `K` -/
def kib : U32 := 1024#32

/-- `M` -/
def mib : U32 := kib * kib

@[simp] theorem mib_toNat : mib.toNat = 1048576 := rfl

/-- `align_to` -/
def alignTo (n align : U32) : U32 :=
  if n % align = 0 then n else n + (align - n % align)

/-- `align_to` rounds up to a multiple, if there is one. -/
theorem alignTo_spec {n align : U32} (hpos : 0 < align.toNat)
    (hfits : n.toNat + align.toNat ≤ 2 ^ 32) :
    n.toNat ≤ (alignTo n align).toNat ∧ (alignTo n align).toNat % align.toNat = 0 := by
  have hzero : n % align = 0 ↔ n.toNat % align.toNat = 0 := by
    rw [← BitVec.toNat_inj, BitVec.toNat_umod]
    rfl
  unfold alignTo
  by_cases h : n % align = 0
  · rw [if_pos h]
    exact ⟨Nat.le_refl _, hzero.mp h⟩
  · rw [if_neg h]
    have hlt := Nat.mod_lt n.toNat hpos
    have hne : n.toNat % align.toNat ≠ 0 := mt hzero.mpr h
    have hrest : (align - n % align).toNat = align.toNat - n.toNat % align.toNat := by
      rw [BitVec.toNat_sub_of_le (BitVec.le_def.mpr (by rw [BitVec.toNat_umod]; omega)),
        BitVec.toNat_umod]
    rw [BitVec.toNat_add, hrest, Nat.mod_eq_of_lt (by omega)]
    refine ⟨Nat.le_add_right _ _, ?_⟩
    have hdiv := Nat.div_add_mod n.toNat align.toNat
    have hsum : n.toNat + (align.toNat - n.toNat % align.toNat) =
        align.toNat * (n.toNat / align.toNat + 1) := by
      rw [Nat.mul_add, Nat.mul_one]
      omega
    rw [hsum, Nat.mul_mod_right]

end PiggyOS
