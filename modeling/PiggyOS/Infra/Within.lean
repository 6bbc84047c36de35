import Mathlib.Data.Set.Function
import PiggyOS.Infra.Bytes

/-!
# What a piece of code leaves alone

`Within s m m'` says that two memories differ in the bytes of `s` at most. What a sequence of
stores leaves alone is found from the stores one by one, and a word outside of `s` is read back
as it was. `Moved src dst n m m'` says that `n` bytes have gone from `src` to `dst`.
-/

namespace PiggyOS.Infra

/-- The `n` bytes from the address `a` on. -/
def bytes (a : U32) (n : Nat) : Set U32 := {x | (x - a).toNat < n}

variable {a b x v dst src : U32} {n k : Nat} {s t : Set U32} {m m' m'' : Mem}

theorem mem_bytes_iff (hfits : a.toNat + n ≤ 2 ^ 32) :
    x ∈ bytes a n ↔ a.toNat ≤ x.toNat ∧ x.toNat < a.toNat + n := by
  unfold bytes
  rw [Set.mem_ofPred_eq]
  bv_omega

theorem add_mem_bytes (h : b.toNat < n) : a + b ∈ bytes a n := by
  unfold bytes
  rw [Set.mem_ofPred_eq, BitVec.add_comm, BitVec.add_sub_cancel]
  exact h

theorem self_mem_bytes (h : 0 < n) : a ∈ bytes a n := by
  unfold bytes
  rw [Set.mem_ofPred_eq, BitVec.sub_self]
  exact h

namespace Mem

/-- The memories agree outside of `s`. -/
def Within (s : Set U32) (m m' : Mem) : Prop := Set.EqOn m' m sᶜ

theorem Within.refl (s : Set U32) (m : Mem) : Within s m m := Set.eqOn_refl m sᶜ

theorem Within.trans (h : Within s m m') (h' : Within s m' m'') : Within s m m'' :=
  Set.EqOn.trans h' h

theorem Within.mono (h : Within s m m') (hst : s ⊆ t) : Within t m m' :=
  Set.EqOn.mono (Set.compl_subset_compl.mpr hst) h

theorem within_write32 (h : bytes a 4 ⊆ s) : Within s m (m.write32 a v) := by
  intro x hx
  exact write32_of_apart_byte (Nat.not_lt.mp fun hlt => hx (h hlt))

theorem within_copy (h : bytes dst n ⊆ s) : Within s m (m.copy dst src n) := by
  intro x hx
  exact copy_of_le (Nat.not_lt.mp fun hlt => hx (h hlt))

theorem within_fill {w : BitVec 8} (hn : n < 2 ^ 32) (h : bytes dst n ⊆ s) :
    Within s m (m.fill dst w n) := by
  intro x hx
  rw [fill_apply hn]
  exact if_neg fun hlt => hx (h hlt)

/-- The lowest byte of a word comes first. -/
theorem toNat_read32_mod (m : Mem) (a : U32) : (m.read32 a).toNat % 256 = (m a).toNat := by
  have hlow : (m.read32 a).setWidth 8 = m a := BitVec.setWidth_append_eq_right
  rw [← hlow, BitVec.toNat_setWidth]

theorem Within.read32 (h : Within s m m') (ha : ∀ x ∈ bytes a 4, x ∉ s) :
    m'.read32 a = m.read32 a := by
  have hbyte : ∀ x : U32, (x - a).toNat < 4 → m' x = m x := fun x hx => h (ha x hx)
  unfold Mem.read32
  rw [hbyte a (by bv_omega), hbyte (a + 1) (by bv_omega), hbyte (a + 2) (by bv_omega),
    hbyte (a + 3) (by bv_omega)]

/-- A second store to the same place. -/
theorem write32_write32 (m : Mem) (a v w : U32) :
    (m.write32 a v).write32 a w = m.write32 a w := by
  funext x
  by_cases hx : (x - a).toNat < 4
  · have hcase : x = a ∨ x = a + 1 ∨ x = a + 2 ∨ x = a + 3 := by bv_omega
    unfold write32
    rcases hcase with rfl | rfl | rfl | rfl <;> simp
  · rw [write32_of_apart_byte (by omega), write32_of_apart_byte (by omega),
      write32_of_apart_byte (by omega)]

/-! ## Bytes that move -/

/-- The `n` bytes at `src` in `m` are at `dst` in `m'`. -/
def Moved (src dst : U32) (n : Nat) (m m' : Mem) : Prop :=
  ∀ i : U32, i.toNat < n → m' (dst + i) = m (src + i)

theorem Moved.mono (h : Moved src dst n m m') (hk : k ≤ n) : Moved src dst k m m' :=
  fun i hi => h i (by omega)

/-- What is written elsewhere afterwards. -/
theorem Moved.within (h : Moved src dst n m m') (hw : Within s m' m'')
    (hs : ∀ x ∈ bytes dst n, x ∉ s) : Moved src dst n m m'' :=
  fun i hi => (hw (hs _ (add_mem_bytes hi))).trans (h i hi)

/-- A copy moves the bytes unless it runs over what it has yet to read. -/
theorem moved_copy (hn : n ≤ (dst - src).toNat) : Moved src dst n m (m.copy dst src n) := by
  intro i hi
  rw [copy_apply hn, BitVec.add_comm dst, BitVec.add_sub_cancel, if_pos hi]

end Mem

end PiggyOS.Infra
