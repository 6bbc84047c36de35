import Mathlib.Data.List.Lex
import PiggyOS.Utils.String

/-!
# The order of `strcmp` (`string.c`)

The loop compares plain characters for being the same and answers by the unsigned bytes at the first
difference, where the NUL of the shorter string counts as a byte. This is the lexicographic order of
the strings, with the bytes as numbers.
-/

namespace PiggyOS

open Infra

/-- The bytes of a string as unsigned numbers. -/
def codes (cs : List (BitVec 8)) : List Nat := cs.map BitVec.toNat

/-- How two strings compare in the lexicographic order. -/
def lexSign (cs1 cs2 : List (BitVec 8)) : Int :=
  if codes cs1 < codes cs2 then -1 else if codes cs2 < codes cs1 then 1 else 0

/-- The offsets that the loop of `strcmp` reads in the two strings, from `i` on. -/
def strcmpReadsFrom (str1 str2 : Chars) : Nat → Nat → List Nat
  | 0, _ => []
  | n + 1, i =>
    i :: if str1 i = str2 i ∧ str1 i ≠ 0 then strcmpReadsFrom str1 str2 n (i + 1) else []

/-- The offsets that `strcmp` reads in the two strings. -/
def strcmpReads (str1 str2 : Chars) : List Nat := strcmpReadsFrom str1 str2 addresses 0

section

variable {str1 str2 str3 str1' str2' : Chars} {cs1 cs2 cs3 : List (BitVec 8)} {a b : BitVec 8}
  {n i : Nat}

/-- The bytes that are read decide. -/
theorem strcmpFrom_congr (h : ∀ j ∈ strcmpReadsFrom str1 str2 n i,
    str1' j = str1 j ∧ str2' j = str2 j) :
    strcmpFrom str1' str2' n i = strcmpFrom str1 str2 n i := by
  induction n generalizing i with
  | zero => rfl
  | succ n ih =>
    obtain ⟨h1, h2⟩ := h i List.mem_cons_self
    rw [strcmpFrom, strcmpFrom, h1, h2]
    by_cases heq : str1 i = str2 i
    · rw [if_pos heq, if_pos heq]
      by_cases h0 : str1 i = 0
      · rw [if_pos h0, if_pos h0]
      · rw [if_neg h0, if_neg h0]
        refine ih fun j hj => h j (List.mem_cons_of_mem i ?_)
        rwa [if_pos ⟨heq, h0⟩]
    · rw [if_neg heq, if_neg heq]

/-! ## The order -/

theorem codes_inj : codes cs1 = codes cs2 ↔ cs1 = cs2 :=
  List.map_inj_right fun _ _ => BitVec.eq_of_toNat_eq

theorem lexSign_self (cs : List (BitVec 8)) : lexSign cs cs = 0 := by
  unfold lexSign
  rw [if_neg (lt_irrefl _), if_neg (lt_irrefl _)]

theorem lexSign_nil_cons : lexSign [] (b :: cs2) = -1 := if_pos (List.nil_lt_cons _ _)

theorem lexSign_cons_nil : lexSign (a :: cs1) [] = 1 := by
  have hlt : codes [] < codes (a :: cs1) := List.nil_lt_cons _ _
  unfold lexSign
  rw [if_neg hlt.not_gt, if_pos hlt]

/-- The first byte decides, and where it is the same, the rest. -/
theorem lexSign_cons : lexSign (a :: cs1) (b :: cs2) =
    if a = b then lexSign cs1 cs2 else if a < b then -1 else 1 := by
  unfold lexSign codes
  simp only [List.map_cons, List.cons_lt_cons_iff]
  by_cases heq : a = b
  · simp only [heq, lt_irrefl, false_or, true_and, if_true]
  · have hne : a.toNat ≠ b.toNat := fun hc => heq (BitVec.eq_of_toNat_eq hc)
    simp only [heq, hne, hne.symm, false_and, or_false, if_false, BitVec.lt_def]
    by_cases hlt : a.toNat < b.toNat
    · rw [if_pos hlt, if_pos hlt]
    · rw [if_neg hlt, if_neg hlt, if_pos (by omega)]

theorem lexSign_eq_zero_iff : lexSign cs1 cs2 = 0 ↔ cs1 = cs2 := by
  rw [← codes_inj]
  unfold lexSign
  rcases lt_trichotomy (codes cs1) (codes cs2) with h | h | h
  · simp [h, h.ne]
  · simp [h]
  · simp [h, h.ne', h.not_gt]

theorem lexSign_eq_neg_one_iff : lexSign cs1 cs2 = -1 ↔ codes cs1 < codes cs2 := by
  unfold lexSign
  split_ifs with h1 h2
  all_goals simp [h1]

theorem lexSign_eq_one_iff : lexSign cs1 cs2 = 1 ↔ codes cs2 < codes cs1 := by
  unfold lexSign
  split_ifs with h1 h2
  · simp [h1.not_gt]
  · simp [h2]
  · simp [h2]

theorem lexSign_swap : lexSign cs2 cs1 = -lexSign cs1 cs2 := by
  unfold lexSign
  rcases lt_trichotomy (codes cs1) (codes cs2) with h | h | h
  · simp [h, h.not_gt]
  · simp [h]
  · simp [h, h.not_gt]

theorem lexSign_le_zero_iff : lexSign cs1 cs2 ≤ 0 ↔ codes cs1 ≤ codes cs2 := by
  have hle : codes cs1 ≤ codes cs2 ↔ ¬ codes cs2 < codes cs1 := not_lt.symm
  rw [hle, ← lexSign_eq_one_iff]
  unfold lexSign
  split_ifs <;> decide

/-! ## The loop -/

/-- What is left of the strings decides. -/
theorem IsString.strcmpFrom_eq (h1 : IsString str1 cs1) (h2 : IsString str2 cs2)
    (hi1 : i ≤ cs1.length) (hi2 : i ≤ cs2.length) (hn : cs1.length < n + i) :
    PiggyOS.strcmpFrom str1 str2 n i = some (lexSign (cs1.drop i) (cs2.drop i)) := by
  induction n generalizing i with
  | zero => omega
  | succ n ih =>
    rw [PiggyOS.strcmpFrom]
    rcases Nat.lt_or_eq_of_le hi1 with hlt1 | rfl
    · have hne1 := h1.ne_zero hlt1
      rcases Nat.lt_or_eq_of_le hi2 with hlt2 | rfl
      · rw [List.drop_eq_getElem_cons hlt1, List.drop_eq_getElem_cons hlt2, lexSign_cons,
          ← h1.chars i hlt1, ← h2.chars i hlt2]
        by_cases heq : str1 i = str2 i
        · rw [if_pos heq, if_neg hne1, if_pos heq]
          exact ih hlt1 hlt2 (by omega)
        · rw [if_neg heq, if_neg heq]
      · -- the second string ends first
        have hnot : ¬ str1 cs2.length < 0 := BitVec.not_lt_zero
        rw [List.drop_length, List.drop_eq_getElem_cons hlt1, lexSign_cons_nil, h2.nul,
          if_neg hne1, if_neg hnot]
    · rcases Nat.lt_or_eq_of_le hi2 with hlt2 | heq2
      · -- the first string ends first
        have hne2 := h2.ne_zero hlt2
        have hpos : (0 : BitVec 8) < str2 cs1.length := by bv_omega
        rw [List.drop_length, List.drop_eq_getElem_cons hlt2, lexSign_nil_cons, h1.nul,
          if_neg hne2.symm, if_pos hpos]
      · have hnul2 : str2 cs1.length = 0 := by rw [heq2]; exact h2.nul
        rw [h1.nul, hnul2, if_pos rfl, if_pos rfl, List.drop_length, heq2, List.drop_length,
          lexSign_self]

/-- The loop goes on behind a character that neither string ends with. -/
theorem IsString.le_of_mem_strcmpReadsFrom {j : Nat} (h1 : IsString str1 cs1)
    (h2 : IsString str2 cs2) (hi1 : i ≤ cs1.length) (hi2 : i ≤ cs2.length)
    (hj : j ∈ strcmpReadsFrom str1 str2 n i) : j ≤ cs1.length ∧ j ≤ cs2.length := by
  induction n generalizing i with
  | zero => exact absurd hj List.not_mem_nil
  | succ n ih =>
    rcases List.mem_cons.mp hj with rfl | hj
    · exact ⟨hi1, hi2⟩
    · split at hj
      · next hgo =>
        obtain ⟨heq, hne⟩ := hgo
        have hne1 := mt (h1.eq_length_iff hi1).mpr hne
        have hne2 := mt (h2.eq_length_iff hi2).mpr (heq ▸ hne)
        exact ih (by omega) (by omega) hj
      · exact absurd hj List.not_mem_nil

end

/-- What `strcmp` is to do with the strings `cs1` and `cs2`, and with any third string `cs3`. -/
structure OrdersStrings (str1 str2 str3 : Chars) (cs1 cs2 cs3 : List (BitVec 8)) : Prop where
  reads : ∀ i ∈ strcmpReads str1 str2, i ≤ cs1.length ∧ i ≤ cs2.length
  answers : ∃ r, strcmp str1 str2 = some r ∧ (r = 0 ∨ r = -1 ∨ r = 1) ∧ (r = 0 ↔ cs1 = cs2) ∧
    (r = -1 ↔ codes cs1 < codes cs2) ∧ (r = 1 ↔ codes cs2 < codes cs1)
  antisymm : ∀ r, strcmp str1 str2 = some r → strcmp str2 str1 = some (-r)
  trans : ∀ r r', strcmp str1 str2 = some r → strcmp str2 str3 = some r' → r ≤ 0 → r' ≤ 0 →
    ∃ r'', strcmp str1 str3 = some r'' ∧ r'' ≤ 0

section

variable {str1 str2 str3 : Chars} {cs1 cs2 cs3 : List (BitVec 8)}

theorem IsString.strcmp_eq (h1 : IsString str1 cs1) (h2 : IsString str2 cs2) :
    PiggyOS.strcmp str1 str2 = some (lexSign cs1 cs2) :=
  h1.strcmpFrom_eq h2 (Nat.zero_le _) (Nat.zero_le _) h1.fits

/-- `strcmp` answers 0 for equal strings only. -/
theorem IsString.strcmp (h1 : IsString str1 cs1) (h2 : IsString str2 cs2) :
    ∃ r, PiggyOS.strcmp str1 str2 = some r ∧ (r = 0 ↔ cs1 = cs2) :=
  ⟨_, h1.strcmp_eq h2, lexSign_eq_zero_iff⟩

/-- **`strcmp` orders the strings**: it comes back on any two of them, reads neither behind its
terminator, and answers by the lexicographic order of the unsigned bytes. -/
theorem strcmp_orders_strings (h1 : IsString str1 cs1) (h2 : IsString str2 cs2)
    (h3 : IsString str3 cs3) : OrdersStrings str1 str2 str3 cs1 cs2 cs3 where
  reads := fun _ hi => h1.le_of_mem_strcmpReadsFrom h2 (Nat.zero_le _) (Nat.zero_le _) hi
  answers := by
    refine ⟨_, h1.strcmp_eq h2, ?_, lexSign_eq_zero_iff, lexSign_eq_neg_one_iff,
      lexSign_eq_one_iff⟩
    unfold lexSign
    split_ifs <;> simp
  antisymm := by
    intro r hr
    obtain rfl : lexSign cs1 cs2 = r := Option.some.inj ((h1.strcmp_eq h2).symm.trans hr)
    rw [h2.strcmp_eq h1, lexSign_swap]
  trans := by
    intro r r' hr hr' hle hle'
    obtain rfl : lexSign cs1 cs2 = r := Option.some.inj ((h1.strcmp_eq h2).symm.trans hr)
    obtain rfl : lexSign cs2 cs3 = r' := Option.some.inj ((h2.strcmp_eq h3).symm.trans hr')
    refine ⟨_, h1.strcmp_eq h3, lexSign_le_zero_iff.mpr ?_⟩
    exact (lexSign_le_zero_iff.mp hle).trans (lexSign_le_zero_iff.mp hle')

/-- `a`, the byte 128, and `ab`, each in a buffer of its own. -/
theorem strcmp_orders_strings_high : OrdersStrings (fun i => [0x61].getD i 0)
    (fun i => [0x80].getD i 0) (fun i => [0x61, 0x62].getD i 0) [0x61] [0x80] [0x61, 0x62] := by
  refine strcmp_orders_strings ⟨fun i hi => ?_, rfl, by decide, by decide⟩
    ⟨fun i hi => ?_, rfl, by decide, by decide⟩ ⟨fun i hi => ?_, rfl, by decide, by decide⟩
  all_goals rw [List.getD_eq_getElem?_getD, List.getElem?_eq_getElem hi]; rfl

end

end PiggyOS
