import PiggyOS.Infra.Region

/-!
# Words on a stack that grows downwards

`pushWords` stores words one below the other, `popWords` reads words upwards. What was pushed is
read back in the opposite order, and nothing else changes in memory.
-/

namespace PiggyOS.Infra.Mem

/-- The memory after `push` of each word, the first one first; the stack pointer was `top`. -/
def pushWords (m : Mem) (top : U32) : List U32 → Mem
  | [] => m
  | v :: vs => pushWords (m.write32 (top - 4) v) (top - 4) vs

/-- `n` words from `a` upwards. -/
def popWords (m : Mem) (a : U32) : Nat → List U32
  | 0 => []
  | n + 1 => m.read32 a :: m.popWords (a + 4) n

/-- Where the stack pointer is after `n` pushes. -/
def below (top : U32) (n : Nat) : U32 := top - BitVec.ofNat 32 (4 * n)

variable {m m' : Mem} {top a b : U32} {n : Nat}

@[simp] theorem pushWords_nil (m : Mem) (top : U32) : m.pushWords top [] = m := rfl

@[simp] theorem popWords_zero (m : Mem) (a : U32) : m.popWords a 0 = [] := rfl

@[simp] theorem below_zero (top : U32) : below top 0 = top := by simp [below]

theorem below_succ (top : U32) (n : Nat) : below top (n + 1) = below (top - 4) n := by
  unfold below
  rw [show 4 * (n + 1) = 4 + 4 * n by omega, BitVec.ofNat_add]
  bv_omega

theorem toNat_below {top : U32} {n : Nat} (h : 4 * n ≤ top.toNat) :
    (below top n).toNat = top.toNat - 4 * n := by
  have hlt := top.isLt
  rw [below, BitVec.toNat_sub, BitVec.toNat_ofNat, Nat.mod_eq_of_lt (show 4 * n < 2 ^ 32 by omega)]
  omega

theorem pushWords_append (m : Mem) (top : U32) (vs ws : List U32) :
    m.pushWords top (vs ++ ws) = (m.pushWords top vs).pushWords (below top vs.length) ws := by
  induction vs generalizing m top with
  | nil => simp
  | cons v vs ih =>
    rw [List.cons_append, pushWords, ih, List.length_cons, below_succ]
    rfl

theorem below_add (top : U32) (n k : Nat) : below (below top n) k = below top (n + k) := by
  unfold below
  rw [Nat.mul_add, BitVec.ofNat_add]
  bv_omega

/-! ## What changes -/

/-- A word outside of the words that were pushed. -/
theorem read32_pushWords_of_apart {vs : List U32}
    (h : ∀ i < vs.length, Apart (below top (i + 1)) a) :
    (m.pushWords top vs).read32 a = m.read32 a := by
  induction vs generalizing m top with
  | nil => rfl
  | cons v vs ih =>
    rw [pushWords, ih]
    · refine read32_write32_of_apart ?_
      simpa [below_succ] using h 0 (by simp)
    · intro i hi
      rw [← below_succ]
      exact h (i + 1) (by simpa using hi)

/-- The words lie in one region, and another region stays as it is. -/
theorem sameOn_pushWords {r r' : Region} {vs : List U32} (hdisj : r.Disjoint r')
    (hlow : r.base.toNat + 4 * vs.length ≤ top.toNat) (hhigh : top.toNat ≤ r.base.toNat + r.size) :
    SameOn r' m (m.pushWords top vs) := by
  induction vs generalizing m top with
  | nil => exact .refl _ _
  | cons v vs ih =>
    rw [List.length_cons] at hlow
    have htop : (top - 4).toNat = top.toNat - 4 := by bv_omega
    exact (sameOn_write32 hdisj ⟨by omega, by omega⟩ m v).trans
      (ih (by omega) (by omega))

/-! ## What is read back -/

theorem popWords_add (m : Mem) (a : U32) (n k : Nat) :
    m.popWords a (n + k) = m.popWords a n ++ m.popWords (a + BitVec.ofNat 32 (4 * n)) k := by
  induction n generalizing a with
  | zero => simp
  | succ n ih =>
    rw [Nat.add_right_comm, popWords, ih, popWords, List.cons_append]
    congr 3
    rw [BitVec.add_assoc, show 4 * (n + 1) = 4 + 4 * n by omega, BitVec.ofNat_add]
    rfl

/-- The words of the stack above the last one. -/
theorem popWords_below_succ (m : Mem) (top : U32) (n : Nat) :
    m.popWords (below top (n + 1)) (n + 1) =
      m.popWords (below (top - 4) n) n ++ [m.read32 (top - 4)] := by
  have hend : below (top - 4) n + BitVec.ofNat 32 (4 * n) = top - 4 := BitVec.sub_add_cancel ..
  rw [below_succ, popWords_add, hend]
  rfl

theorem popWords_pushWords {vs : List U32} (h : 4 * vs.length ≤ top.toNat) :
    (m.pushWords top vs).popWords (below top vs.length) vs.length = vs.reverse := by
  induction vs generalizing m top with
  | nil => rfl
  | cons v vs ih =>
    rw [List.length_cons] at h
    have htop : (top - 4).toNat = top.toNat - 4 := by bv_omega
    have hkeep : ((m.write32 (top - 4) v).pushWords (top - 4) vs).read32 (top - 4) = v := by
      rw [read32_pushWords_of_apart, read32_write32]
      intro i hi
      have hi' := @toNat_below (top - 4) (i + 1) (by omega)
      exact ⟨by bv_omega, by bv_omega⟩
    rw [pushWords, List.length_cons, popWords_below_succ, ih (by omega), hkeep, List.reverse_cons]

/-- Words in a region that stays as it is. -/
theorem SameOn.popWords {r : Region} (h : SameOn r m m') (ha : r.Covers a.toNat (4 * n)) :
    m'.popWords a n = m.popWords a n := by
  induction n generalizing a with
  | zero => rfl
  | succ n ih =>
    obtain ⟨hlo, hhi⟩ := ha
    have hfits := r.fits
    rw [Mem.popWords, Mem.popWords, h.read32 ⟨hlo, by omega⟩]
    cases n with
    | zero => rfl
    | succ n => rw [ih ⟨by bv_omega, by bv_omega⟩]

/-- What lies above is not touched by pushes. -/
theorem popWords_pushWords_above {vs : List U32} (hlow : 4 * vs.length ≤ top.toNat)
    (hhigh : top.toNat + 4 * n ≤ 2 ^ 32) :
    (m.pushWords top vs).popWords top n = m.popWords top n := by
  have hlt := top.isLt
  have hbase := toNat_below hlow
  have hsame : SameOn ⟨top, 4 * n, hhigh⟩ m (m.pushWords top vs) := by
    refine sameOn_pushWords (r := ⟨below top vs.length, 4 * vs.length, by omega⟩) (Or.inl ?_) ?_ ?_
    · show (below top vs.length).toNat + 4 * vs.length ≤ top.toNat
      omega
    · show (below top vs.length).toNat + 4 * vs.length ≤ top.toNat
      omega
    · show top.toNat ≤ (below top vs.length).toNat + 4 * vs.length
      omega
  exact hsame.popWords ⟨Nat.le_refl _, Nat.le_refl _⟩

end PiggyOS.Infra.Mem
