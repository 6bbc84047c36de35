import PiggyOS.Infra.Bytes

/-!
# C strings (`string.c`)

A `char*` is given by the bytes from there on. The loops of `string.c` come back within as many
rounds as there are addresses or never, so that this number bounds them.
-/

namespace PiggyOS

open Infra

/-- The bytes that a `char*` leads to. -/
abbrev Chars := Nat → BitVec 8

/-- The `char*` to the address `a`. -/
def charsAt (m : Mem) (a : U32) : Chars := fun i => m (a + BitVec.ofNat 32 i)

/-- The number of addresses. -/
def addresses : Nat := 2 ^ 32

/-- The loop of `strlen`, from `str[i]` on. -/
def strlenFrom (str : Chars) : Nat → Nat → Option Nat
  | 0, _ => none
  | n + 1, i => if str i = 0 then some i else strlenFrom str n (i + 1)

/-- `strlen` -/
def strlen (str : Chars) : Option Nat := strlenFrom str addresses 0

/-- The loop of `strcmp`, from `str1[i]` and `str2[i]` on. -/
def strcmpFrom (str1 str2 : Chars) : Nat → Nat → Option Int
  | 0, _ => none
  | n + 1, i =>
    if str1 i = str2 i then
      if str1 i = 0 then some 0 else strcmpFrom str1 str2 n (i + 1)
    else some (if str1 i < str2 i then -1 else 1)

/-- `strcmp` -/
def strcmp (str1 str2 : Chars) : Option Int := strcmpFrom str1 str2 addresses 0

/-- `strcpy`; what `str1` leads to afterwards. -/
def strcpy (str1 str2 : Chars) : Option Chars :=
  (strlen str2).map fun len i => if i < len + 1 then str2 i else str1 i

/-- The `char*` leads to the NUL-terminated string `cs`. -/
structure IsString (str : Chars) (cs : List (BitVec 8)) : Prop where
  chars : ∀ i (h : i < cs.length), str i = cs[i]
  nul : str cs.length = 0
  ne_nul : 0 ∉ cs
  fits : cs.length < addresses

section

variable {str str1 str2 : Chars} {cs : List (BitVec 8)} {n i : Nat}

namespace IsString

theorem ne_zero (h : IsString str cs) (hi : i < cs.length) : str i ≠ 0 := by
  rw [h.chars i hi]
  intro h0
  exact h.ne_nul (h0 ▸ List.getElem_mem hi)

/-- A string ends at its first NUL. -/
theorem eq_length_iff (h : IsString str cs) (hi : i ≤ cs.length) : str i = 0 ↔ i = cs.length := by
  constructor
  · intro h0
    by_contra hne
    exact h.ne_zero (by omega) h0
  · rintro rfl
    exact h.nul

/-- Strings with the same bytes up to the NUL. -/
theorem congr (h : IsString str1 cs) (heq : ∀ i ≤ cs.length, str2 i = str1 i) :
    IsString str2 cs where
  chars := fun i hi => (heq i (Nat.le_of_lt hi)).trans (h.chars i hi)
  nul := (heq _ (Nat.le_refl _)).trans h.nul
  ne_nul := h.ne_nul
  fits := h.fits

theorem strlenFrom (h : IsString str cs) (hi : i ≤ cs.length) (hn : cs.length < n + i) :
    strlenFrom str n i = some cs.length := by
  induction n generalizing i with
  | zero => omega
  | succ n ih =>
    rw [PiggyOS.strlenFrom]
    by_cases h0 : str i = 0
    · rw [if_pos h0, (h.eq_length_iff hi).mp h0]
    · rw [if_neg h0]
      have hne : i ≠ cs.length := mt (h.eq_length_iff hi).mpr h0
      exact ih (by omega) (by omega)

theorem strlen (h : IsString str cs) : strlen str = some cs.length :=
  h.strlenFrom (Nat.zero_le _) h.fits

/-- The copy is the same string. -/
theorem strcpy (h : IsString str2 cs) (str1 : Chars) :
    ∃ str, strcpy str1 str2 = some str ∧ IsString str cs := by
  refine ⟨_, congrArg _ h.strlen, h.congr fun i hi => ?_⟩
  exact if_pos (Nat.lt_succ_of_le hi)

end IsString

/-- The bytes of a string and a NUL in memory. -/
theorem isString_charsAt {m : Mem} {a : U32} (h : m.Holds a (cs ++ [0])) (h0 : 0 ∉ cs)
    (hfits : cs.length < addresses) : IsString (charsAt m a) cs where
  chars := fun i hi => by
    have hb := h i (by simp; omega)
    rwa [List.getElem_append_left hi] at hb
  nul := by
    have hb := h cs.length (by simp)
    rwa [List.getElem_append_right (Nat.le_refl _), List.getElem_singleton] at hb
  ne_nul := h0
  fits := hfits

/-- A string in a field that has a NUL. -/
theorem isString_takeWhile {m : Mem} {a : U32} {bs : List (BitVec 8)} (h : m.Holds a bs)
    (h0 : 0 ∈ bs) (hfits : bs.length < addresses) :
    IsString (charsAt m a) (bs.takeWhile (· ≠ 0)) := by
  obtain ⟨cs, rest, rfl, hcs⟩ := List.eq_append_cons_of_mem h0
  have htake : (cs ++ 0 :: rest).takeWhile (· ≠ 0) = cs := by
    rw [List.takeWhile_append_of_pos, List.takeWhile_cons_of_neg (by simp), List.append_nil]
    intro b hb
    exact decide_eq_true (fun hb0 => hcs (hb0 ▸ hb))
  rw [List.length_append] at hfits
  rw [htake]
  refine isString_charsAt ?_ hcs (by omega)
  rw [← List.singleton_append, ← List.append_assoc] at h
  exact (Mem.holds_append.mp h).1

end

end PiggyOS
