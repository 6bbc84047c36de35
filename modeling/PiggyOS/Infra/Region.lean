import PiggyOS.Infra.Memory

/-!
# Regions of memory

A region is an interval of addresses that does not wrap around. What is written in one region
does not show in a region that is disjoint from it.
-/

namespace PiggyOS.Infra

structure Region where
  base : U32
  size : Nat
  fits : base.toNat + size ≤ 2 ^ 32

namespace Region

/-- The `n` bytes from the address `a` on lie in the region. -/
def Covers (r : Region) (a n : Nat) : Prop := r.base.toNat ≤ a ∧ a + n ≤ r.base.toNat + r.size

instance (r : Region) (a n : Nat) : Decidable (r.Covers a n) := inferInstanceAs (Decidable (_ ∧ _))

def Disjoint (r r' : Region) : Prop :=
  r.base.toNat + r.size ≤ r'.base.toNat ∨ r'.base.toNat + r'.size ≤ r.base.toNat

/-- A part of what lies in the region. -/
theorem Covers.add {r : Region} {a k : U32} {n l : Nat} (h : r.Covers a.toNat n)
    (hk : k.toNat + l ≤ n) (hl : 0 < l) : r.Covers (a + k).toNat l := by
  obtain ⟨hlo, hhi⟩ := h
  have hfits := r.fits
  have hadd : (a + k).toNat = a.toNat + k.toNat := by
    rw [BitVec.toNat_add, Nat.mod_eq_of_lt (by omega)]
  exact ⟨by omega, by omega⟩

theorem Disjoint.symm {r r' : Region} (h : r.Disjoint r') : r'.Disjoint r := Or.symm h

end Region

namespace Mem

/-- The two memories agree on the bytes of the region. -/
def SameOn (r : Region) (m m' : Mem) : Prop := ∀ x : U32, r.Covers x.toNat 1 → m' x = m x

variable {r r' : Region} {m m' m'' : Mem} {a v : U32}

theorem SameOn.refl (r : Region) (m : Mem) : SameOn r m m := fun _ _ => rfl

theorem SameOn.trans (h : SameOn r m m') (h' : SameOn r m' m'') : SameOn r m m'' :=
  fun x hx => (h' x hx).trans (h x hx)

theorem SameOn.read32 (h : SameOn r m m') (ha : r.Covers a.toNat 4) : m'.read32 a = m.read32 a := by
  obtain ⟨hlo, hhi⟩ := ha
  have hfits := r.fits
  have hbyte : ∀ b : U32, (b - a).toNat < 4 → m' b = m b := by
    intro b hb
    exact h b ⟨by bv_omega, by bv_omega⟩
  unfold Mem.read32
  rw [hbyte a (by bv_omega), hbyte (a + 1) (by bv_omega), hbyte (a + 2) (by bv_omega),
    hbyte (a + 3) (by bv_omega)]

theorem SameOn.read16 (h : SameOn r m m') (ha : r.Covers a.toNat 2) : m'.read16 a = m.read16 a := by
  have hlow : r.Covers a.toNat 1 := ⟨ha.1, by have := ha.2; omega⟩
  have hhigh : r.Covers (a + 1).toNat 1 := ha.add (by decide) (by decide)
  unfold Mem.read16
  rw [h _ hlow, h _ hhigh]

/-- A write in one region does not show in another. -/
theorem sameOn_write32 (hdisj : r.Disjoint r') (ha : r.Covers a.toNat 4) (m : Mem) (v : U32) :
    SameOn r' m (m.write32 a v) := by
  intro x hx
  obtain ⟨hlo, hhi⟩ := ha
  obtain ⟨hlo', hhi'⟩ := hx
  have hfits := r.fits
  have hfits' := r'.fits
  refine write32_of_apart_byte ?_
  rcases hdisj with h | h <;> bv_omega

end Mem

end PiggyOS.Infra
