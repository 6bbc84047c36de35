import Mathlib.Data.Nat.Digits.Lemmas
import PiggyOS.Infra.Loop
import PiggyOS.Utils.String

/-!
# Numerals (`display.c`)

`__itoa` takes the digits off the end of a number, puts them into the scratch buffer `tbuf` and
copies them out backwards. What a numeral denotes is defined by reading it from the left, apart
from how it is written.
-/

namespace PiggyOS

open Infra

/-- `bchars` -/
def bchars : List (BitVec 8) :=
  [0x30, 0x31, 0x32, 0x33, 0x34, 0x35, 0x36, 0x37, 0x38, 0x39, 0x41, 0x42, 0x43, 0x44, 0x45, 0x46]

/-- The variables of `__itoa`, `tbuf`, and the indices at which it has been accessed so far. -/
structure Itoa where
  i : U32
  pos : Int
  opos : Nat
  tbuf : Int → BitVec 8
  used : List Int
  buf : Chars

/-- One round of the loop that takes the number apart; it divides by `base`. -/
def itoaDigit (base : U32) (s : Itoa) : Option Itoa :=
  if base = 0 then none
  else some { s with
    tbuf := fun k => if k = s.pos then bchars.getD (s.i % base).toNat 0 else s.tbuf k
    used := s.pos :: s.used
    pos := s.pos + 1
    i := s.i / base }

/-- One round of the loop that copies the digits. -/
def itoaCopy (s : Itoa) : Option Itoa :=
  some { s with
    buf := fun k => if k = s.opos then s.tbuf s.pos else s.buf k
    used := s.pos :: s.used
    pos := s.pos - 1
    opos := s.opos + 1 }

/-- How often the loops of `__itoa` test their conditions at most when they end at all: a number
has at most 32 digits. -/
def itoaTests : Nat := 33

/-- `__itoa` -/
def itoa (i base : U32) (tbuf : Int → BitVec 8) (buf : Chars) : Option Itoa :=
  if i = 0 ∨ 16#32 < base then
    some { i, pos := 0, opos := 0, tbuf, used := []
           buf := fun k => if k = 0 then 0x30 else if k = 1 then 0 else buf k }
  else do
    let s ← loop (fun s => s.i != 0) (itoaDigit base) itoaTests
      { i, pos := 0, opos := 0, tbuf, used := [], buf }
    let top := s.pos
    let s ← loop (fun s => s.opos < top) itoaCopy itoaTests { s with pos := s.pos - 1 }
    return { s with buf := fun k => if k = s.opos then 0 else s.buf k }

/-- `__itoa_s` -/
def itoaS (i base : U32) (tbuf : Int → BitVec 8) (buf : Chars) : Option Itoa :=
  if 16#32 < base then some { i, pos := 0, opos := 0, tbuf, used := [], buf }
  else if i.toInt < 0 then do
    let s ← itoa (i * -1) base tbuf (fun k => buf (k + 1))
    return { s with buf := fun k => if k = 0 then 0x2d else s.buf (k - 1) }
  else itoa i base tbuf buf

/-! ## What a numeral denotes -/

/-- The value of a digit in a base. -/
def digitValue (base : Nat) (c : BitVec 8) : Option Nat :=
  let v := if 0x30 ≤ c.toNat ∧ c.toNat ≤ 0x39 then c.toNat - 0x30
    else if 0x41 ≤ c.toNat ∧ c.toNat ≤ 0x46 then c.toNat - 0x41 + 10
    else base
  if v < base then some v else none

/-- Reads digits from the left. -/
def readDigits (base : Nat) (acc : Nat) : List (BitVec 8) → Option Nat
  | [] => some acc
  | c :: cs => do
    let v ← digitValue base c
    readDigits base (acc * base + v) cs

/-- The digits of a numeral, without the sign. -/
def unsignedPart (cs : List (BitVec 8)) : List (BitVec 8) :=
  if cs.head? = some 0x2d then cs.tail else cs

/-- Reads a numeral with an optional leading `-`. -/
def readNumeral (base : Nat) (cs : List (BitVec 8)) : Option Int :=
  if unsignedPart cs = [] then none
  else if cs.head? = some 0x2d then
    (readDigits base 0 (unsignedPart cs)).map fun n : Nat => -(n : Int)
  else (readDigits base 0 (unsignedPart cs)).map fun n : Nat => (n : Int)

/-- A numeral for `v` as it is to be written. -/
structure Numeral (base : Nat) (v : Int) (cs : List (BitVec 8)) : Prop where
  denotes : readNumeral base cs = some v
  signed : cs.head? = some 0x2d ↔ v < 0
  no_leading_zero : (unsignedPart cs).head? = some 0x30 → unsignedPart cs = [0x30]
  at_most : (unsignedPart cs).length ≤ 32

/-- What a call leaves behind: the string `cs` in the buffer and nothing behind it. -/
structure Written (buf : Chars) (s : Itoa) (cs : List (BitVec 8)) : Prop where
  string : IsString s.buf cs
  behind : ∀ k, cs.length < k → s.buf k = buf k
  used : ∀ k ∈ s.used, 0 ≤ k ∧ k ≤ 31

section

variable {base i : U32} {n v : Nat} {b : Nat} {ds : List Nat} {tbuf : Int → BitVec 8} {buf : Chars}
  {s : Itoa}

/-! ## Digits -/

/-- The character of a digit. -/
def digitChar (d : Nat) : BitVec 8 := bchars.getD d 0

/-- Characters of digits are told apart by their values, and are neither NUL nor `-`. -/
theorem digitChar_spec (hv : v < 16) :
    (v < b → digitValue b (digitChar v) = some v) ∧ digitChar v ≠ 0 ∧ digitChar v ≠ 0x2d ∧
      (digitChar v = 0x30 → v = 0) := by
  interval_cases v <;> simp +contextual [digitChar, bchars, digitValue]

theorem digitValue_digitChar (hb : b ≤ 16) (hv : v < b) : digitValue b (digitChar v) = some v :=
  (digitChar_spec (by omega)).1 hv

theorem readDigits_append (acc : Nat) (xs ys : List (BitVec 8)) :
    readDigits b acc (xs ++ ys) = (readDigits b acc xs).bind fun a => readDigits b a ys := by
  induction xs generalizing acc with
  | nil => rfl
  | cons x xs ih =>
    rw [List.cons_append, readDigits, readDigits]
    cases hx : digitValue b x with
    | none => rfl
    | some v => exact ih _

/-- Digits that are written backwards are read back. -/
theorem readDigits_reverse (hb : b ≤ 16) (hds : ∀ d ∈ ds, d < b) :
    readDigits b 0 (ds.map digitChar).reverse = some (Nat.ofDigits b ds) := by
  induction ds with
  | nil => rfl
  | cons d ds ih =>
    rw [List.map_cons, List.reverse_cons, readDigits_append,
      ih fun x hx => hds x (List.mem_cons_of_mem _ hx), Option.bind_some, readDigits,
      digitValue_digitChar hb (hds d List.mem_cons_self), Nat.ofDigits_cons]
    show some _ = some _
    congr 1
    rw [Nat.mul_comm, Nat.add_comm]

/-- A 32-bit number has at most 32 digits. -/
theorem length_digits_le (hb : 2 ≤ b) (hn : n < 2 ^ 32) : (Nat.digits b n).length ≤ 32 :=
  (Nat.digits_length_le_iff (by omega) n).mpr
    (Nat.lt_of_lt_of_le hn (Nat.pow_le_pow_left hb 32))

/-! ## The loops -/

/-- `ds` have been taken off `n` and stand in `tbuf`. -/
structure DigitsTaken (b n : Nat) (buf : Chars) (ds : List Nat) (s : Itoa) : Prop where
  digits : Nat.digits b n = ds ++ Nat.digits b s.i.toNat
  pos : s.pos = ds.length
  tbuf : ∀ k (h : k < ds.length), s.tbuf k = digitChar ds[k]
  used : ∀ k ∈ s.used, 0 ≤ k ∧ k ≤ 31
  opos : s.opos = 0
  buf : s.buf = buf

/-- One more digit is taken off. -/
theorem DigitsTaken.digit (h : DigitsTaken base.toNat n buf ds s) (hb : 2 ≤ base.toNat)
    (hn : n < 2 ^ 32) (hi : s.i ≠ 0) :
    ∃ s', itoaDigit base s = some s' ∧
      DigitsTaken base.toNat n buf (ds ++ [s.i.toNat % base.toNat]) s' ∧
      (Nat.digits base.toNat s'.i.toNat).length < (Nat.digits base.toNat s.i.toNat).length := by
  have hpos : 0 < s.i.toNat := by
    have := mt BitVec.toNat_inj.mp hi
    simp at this
    omega
  have hcons : Nat.digits base.toNat s.i.toNat =
      s.i.toNat % base.toNat :: Nat.digits base.toNat (s.i.toNat / base.toNat) :=
    Nat.digits_def' (by omega) hpos
  -- a number has at most 32 digits, and one of them is still to come
  have hlen : ds.length ≤ 31 := by
    have hall := length_digits_le hb hn
    rw [h.digits, hcons, List.length_append, List.length_cons] at hall
    omega
  have hne : base ≠ 0 := by
    rintro rfl
    simp at hb
  refine ⟨_, if_neg hne, ⟨?_, ?_, ?_, ?_, h.opos, h.buf⟩, ?_⟩
  · rw [h.digits, hcons, List.append_assoc, List.singleton_append, BitVec.toNat_udiv]
  · show s.pos + 1 = _
    rw [h.pos, List.length_append, List.length_singleton, Int.natCast_add]
    rfl
  · intro k hk
    show (if (k : Int) = s.pos then _ else _) = _
    rw [h.pos]
    by_cases hlast : k = ds.length
    · subst hlast
      rw [if_pos rfl, List.getElem_append_right (Nat.le_refl _), BitVec.toNat_umod]
      simp [digitChar]
    · have hlt : k < ds.length := by
        rw [List.length_append, List.length_singleton] at hk
        omega
      rw [if_neg (by omega), h.tbuf k hlt, List.getElem_append_left hlt]
  · intro k hk
    rcases List.mem_cons.mp hk with rfl | hk
    · rw [h.pos]
      omega
    · exact h.used k hk
  · rw [hcons, List.length_cons, BitVec.toNat_udiv]
    exact Nat.lt_succ_self _

/-- The first loop leaves all the digits of the number in `tbuf`, the last one first. -/
theorem loop_itoaDigit (hb : 2 ≤ base.toNat) (i : U32) (tbuf : Int → BitVec 8) (buf : Chars) :
    ∃ s, loop (fun s => s.i != 0) (itoaDigit base) itoaTests
        { i, pos := 0, opos := 0, tbuf, used := [], buf } = some s ∧
      DigitsTaken base.toNat i.toNat buf (Nat.digits base.toNat i.toNat) s := by
  have hstart : DigitsTaken base.toNat i.toNat buf []
      { i, pos := 0, opos := 0, tbuf, used := [], buf } :=
    ⟨rfl, rfl, by simp, by simp, rfl, rfl⟩
  have hround : ∀ s : Itoa, (∃ ds, DigitsTaken base.toNat i.toNat buf ds s) → (s.i != 0) = true →
      ∃ s', itoaDigit base s = some s' ∧ (∃ ds, DigitsTaken base.toNat i.toNat buf ds s') ∧
        (Nat.digits base.toNat s'.i.toNat).length < (Nat.digits base.toNat s.i.toNat).length := by
    rintro s ⟨ds, hds⟩ hi
    obtain ⟨s', hs', hds', hless⟩ := hds.digit hb i.isLt (by simpa using hi)
    exact ⟨s', hs', ⟨_, hds'⟩, hless⟩
  obtain ⟨s, hs, ⟨ds, hds⟩, hexit⟩ := loop_total _ _ hround itoaTests _ ⟨[], hstart⟩
    (Nat.lt_succ_of_le (length_digits_le hb i.isLt))
  have hzero : s.i = 0 := by simpa using hexit
  have hall : Nat.digits base.toNat i.toNat = ds := by
    rw [hds.digits, hzero]
    simp
  exact ⟨s, hs, hall ▸ hds⟩

/-- The first `opos` characters of the numeral have been copied out of `tbuf`. -/
structure DigitsCopied (buf : Chars) (ds : List Nat) (s : Itoa) : Prop where
  pos : s.pos = ds.length - 1 - s.opos
  opos_le : s.opos ≤ ds.length
  tbuf : ∀ k (h : k < ds.length), s.tbuf k = digitChar ds[k]
  used : ∀ k ∈ s.used, 0 ≤ k ∧ k ≤ 31
  copied : ∀ k < s.opos, s.buf k = (ds.map digitChar).reverse.getD k 0
  rest : ∀ k, s.opos ≤ k → s.buf k = buf k

/-- One more character is copied. -/
theorem DigitsCopied.copy (h : DigitsCopied buf ds s) (hlen : ds.length ≤ 32)
    (hlt : s.opos < ds.length) :
    ∃ s', itoaCopy s = some s' ∧ DigitsCopied buf ds s' ∧ s'.opos = s.opos + 1 := by
  have hpos : s.pos = (ds.length - 1 - s.opos : Nat) := by
    rw [h.pos]
    omega
  refine ⟨_, rfl, ⟨?_, hlt, h.tbuf, ?_, ?_, ?_⟩, rfl⟩
  · show s.pos - 1 = (ds.length : Int) - 1 - (s.opos + 1 : Nat)
    rw [h.pos]
    omega
  · intro k hk
    rcases List.mem_cons.mp hk with rfl | hk
    · omega
    · exact h.used k hk
  · intro k hk
    show (if k = s.opos then _ else _) = _
    by_cases hlast : k = s.opos
    · subst hlast
      rw [if_pos rfl, hpos, h.tbuf _ (by omega), List.getD_eq_getElem?_getD,
        List.getElem?_reverse (by simpa using hlt), List.getElem?_map,
        List.getElem?_eq_getElem (by simp; omega)]
      simp
    · have hk' : k < s.opos + 1 := hk
      rw [if_neg hlast]
      exact h.copied k (by omega)
  · intro k hk
    have hk' : s.opos + 1 ≤ k := hk
    show (if k = s.opos then _ else _) = _
    rw [if_neg (by omega)]
    exact h.rest k (by omega)

/-- The second loop copies all of them. -/
theorem loop_itoaCopy (h : DigitsTaken b n buf ds s) (hlen : ds.length ≤ 32) :
    ∃ t, loop (fun t => t.opos < s.pos) itoaCopy itoaTests { s with pos := s.pos - 1 } = some t ∧
      DigitsCopied buf ds t ∧ t.opos = ds.length := by
  have hopos : s.opos = 0 := h.opos
  have hstart : DigitsCopied buf ds { s with pos := s.pos - 1 } := by
    refine ⟨?_, ?_, h.tbuf, h.used, ?_, ?_⟩
    · show s.pos - 1 = _
      rw [h.pos, hopos]
      omega
    · show s.opos ≤ _
      omega
    · intro k hk
      exact absurd (show k < s.opos from hk) (by omega)
    · intro k _
      rw [← h.buf]
  have hround : ∀ t, DigitsCopied buf ds t → decide (t.opos < s.pos) = true →
      ∃ t', itoaCopy t = some t' ∧ DigitsCopied buf ds t' ∧
        ds.length - t'.opos < ds.length - t.opos := by
    intro t ht hlt
    have hlt' : t.opos < ds.length := by
      have := h.pos
      have := of_decide_eq_true hlt
      omega
    obtain ⟨t', ht', hcopied', hnext⟩ := ht.copy hlen hlt'
    exact ⟨t', ht', hcopied', by omega⟩
  obtain ⟨t, ht, hcopied, hexit⟩ := loop_total _ _ hround itoaTests _ hstart
    (show ds.length - s.opos < 33 by omega)
  refine ⟨t, ht, hcopied, ?_⟩
  have hge : ¬ (t.opos : Int) < s.pos := by simpa using hexit
  have := hcopied.opos_le
  have := h.pos
  omega

/-! ## The numeral of a number -/

/-- The characters that `__itoa` is to write for `n`. -/
def numeralChars (b n : Nat) : List (BitVec 8) :=
  if n = 0 then [0x30] else ((Nat.digits b n).map digitChar).reverse

theorem numeralChars_of_ne (hn : n ≠ 0) :
    numeralChars b n = ((Nat.digits b n).map digitChar).reverse := if_neg hn

theorem numeralChars_ne_nil (b n : Nat) : numeralChars b n ≠ [] := by
  unfold numeralChars
  split
  · simp
  · next hn => simpa [Nat.digits_eq_nil_iff_eq_zero] using hn

/-- Every character is that of a digit. -/
theorem exists_of_mem_numeralChars {c : BitVec 8} (hb2 : 2 ≤ b) (hb : b ≤ 16)
    (hc : c ∈ numeralChars b n) : ∃ d < 16, c = digitChar d := by
  unfold numeralChars at hc
  split at hc
  · rw [List.mem_singleton] at hc
    exact ⟨0, by omega, hc⟩
  · obtain ⟨d, hd, rfl⟩ := List.mem_map.mp (List.mem_reverse.mp hc)
    have := Nat.digits_lt_base (by omega) hd
    exact ⟨d, by omega, rfl⟩

theorem head_numeralChars_ne_minus (hb2 : 2 ≤ b) (hb : b ≤ 16) :
    (numeralChars b n).head? ≠ some 0x2d := by
  intro h
  obtain ⟨d, hd, hc⟩ := exists_of_mem_numeralChars hb2 hb (List.mem_of_mem_head? h)
  exact (digitChar_spec (b := b) hd).2.2.1 hc.symm

/-- The first digit of a number other than 0 is not 0. -/
theorem numeralChars_eq_of_head (hb2 : 2 ≤ b) (hb : b ≤ 16)
    (h : (numeralChars b n).head? = some 0x30) : n = 0 := by
  by_contra hn
  rw [numeralChars_of_ne hn, List.head?_reverse, List.getLast?_map] at h
  obtain ⟨d, hd, hc⟩ := Option.map_eq_some_iff.mp h
  have hne : Nat.digits b n ≠ [] := Nat.digits_ne_nil_iff_ne_zero.mpr hn
  rw [List.getLast?_eq_some_getLast hne, Option.some.injEq] at hd
  subst hd
  have hlt := Nat.digits_lt_base (by omega) (List.getLast_mem hne)
  exact Nat.getLast_digit_ne_zero b hn ((digitChar_spec (b := b) (by omega)).2.2.2 hc)

theorem readDigits_numeralChars (hb2 : 2 ≤ b) (hb : b ≤ 16) :
    readDigits b 0 (numeralChars b n) = some n := by
  by_cases hn : n = 0
  · subst hn
    have hzero := digitValue_digitChar hb (show 0 < b by omega)
    rw [numeralChars, if_pos rfl, readDigits, show digitValue b 0x30 = some 0 from hzero]
    simp [readDigits]
  · rw [numeralChars_of_ne hn, readDigits_reverse hb fun d => Nat.digits_lt_base (by omega),
      Nat.ofDigits_digits]

theorem length_numeralChars_le (hb2 : 2 ≤ b) (hn : n < 2 ^ 32) :
    (numeralChars b n).length ≤ 32 := by
  unfold numeralChars
  split
  · simp
  · simpa using length_digits_le hb2 hn

theorem numeral_numeralChars (hb2 : 2 ≤ b) (hb : b ≤ 16) (hn : n < 2 ^ 32) :
    Numeral b n (numeralChars b n) := by
  have hminus := head_numeralChars_ne_minus (n := n) hb2 hb
  have hpart : unsignedPart (numeralChars b n) = numeralChars b n := if_neg hminus
  exact {
    denotes := by
      rw [readNumeral, hpart, if_neg (numeralChars_ne_nil b n), if_neg hminus,
        readDigits_numeralChars hb2 hb]
      rfl
    signed := ⟨fun h => absurd h hminus, fun h => by omega⟩
    no_leading_zero := fun h => by
      rw [hpart] at h ⊢
      rw [numeralChars_eq_of_head hb2 hb h, numeralChars, if_pos rfl]
    at_most := by
      rw [hpart]
      exact length_numeralChars_le hb2 hn }

/-- The numeral with a `-` in front. -/
theorem numeral_minus (hb2 : 2 ≤ b) (hb : b ≤ 16) (hn : n < 2 ^ 32) (hpos : n ≠ 0) :
    Numeral b (-(n : Int)) (0x2d :: numeralChars b n) := by
  have hpart : unsignedPart (0x2d :: numeralChars b n) = numeralChars b n := if_pos rfl
  exact {
    denotes := by
      rw [readNumeral, hpart, if_neg (numeralChars_ne_nil b n), List.head?_cons, if_pos rfl,
        readDigits_numeralChars hb2 hb]
      rfl
    signed := ⟨fun _ => by omega, fun _ => rfl⟩
    no_leading_zero := fun h => by
      rw [hpart] at h
      exact absurd (numeralChars_eq_of_head hb2 hb h) hpos
    at_most := by
      rw [hpart]
      exact length_numeralChars_le hb2 hn }

/-! ## What the calls leave behind -/

theorem written_itoa (h2 : 2 ≤ base.toNat) (h16 : base.toNat ≤ 16) (i : U32)
    (tbuf : Int → BitVec 8) (buf : Chars) :
    ∃ s, itoa i base tbuf buf = some s ∧ Written buf s (numeralChars base.toNat i.toNat) := by
  have hbase : ¬ 16#32 < base := by
    rw [BitVec.lt_def]
    exact Nat.not_lt.mpr h16
  have hnul : (0 : BitVec 8) ∉ numeralChars base.toNat i.toNat := by
    intro h
    obtain ⟨d, hd, hc⟩ := exists_of_mem_numeralChars h2 h16 h
    exact (digitChar_spec (b := base.toNat) hd).2.1 hc.symm
  by_cases hi : i = 0
  · subst hi
    -- the numeral `0` is written without the loops
    refine ⟨_, if_pos (Or.inl rfl), ⟨⟨?_, rfl, hnul, ?_⟩, ?_, by simp⟩⟩
    · intro k hk
      obtain rfl : k = 0 := by
        have : k < 1 := hk
        omega
      rfl
    · show 1 < addresses
      simp [addresses]
    · intro k hk
      have hk' : 1 < k := hk
      show (if k = 0 then _ else if k = 1 then _ else _) = _
      rw [if_neg (by omega), if_neg (by omega)]
  · have hne : i.toNat ≠ 0 := fun h => hi (BitVec.eq_of_toNat_eq h)
    have hlen := length_digits_le h2 i.isLt
    -- the first loop takes the digits off, the second one turns them around
    obtain ⟨s, hs, hextracted⟩ := loop_itoaDigit h2 i tbuf buf
    obtain ⟨t, ht, hcopied, hopos⟩ := loop_itoaCopy hextracted hlen
    have hchars := numeralChars_of_ne (b := base.toNat) hne
    have hcs : (numeralChars base.toNat i.toNat).length = t.opos := by
      rw [hchars, hopos]
      simp
    have hcall : itoa i base tbuf buf =
        some { t with buf := fun k => if k = t.opos then 0 else t.buf k } := by
      rw [itoa, if_neg (not_or.mpr ⟨hi, hbase⟩)]
      simp only [hs, ht, Option.bind_eq_bind, Option.bind_some]
      rfl
    refine ⟨_, hcall, ⟨⟨?_, ?_, hnul, ?_⟩, ?_, hcopied.used⟩⟩
    · intro k hk
      show (if k = t.opos then _ else _) = _
      rw [if_neg (by omega), hcopied.copied k (by omega), ← hchars,
        List.getD_eq_getElem?_getD, List.getElem?_eq_getElem hk]
      rfl
    · show (if _ = t.opos then _ else _) = _
      rw [if_pos hcs]
    · have := length_numeralChars_le h2 i.isLt
      unfold addresses
      omega
    · intro k hk
      show (if k = t.opos then _ else _) = _
      rw [if_neg (by omega)]
      exact hcopied.rest k (by omega)

/-- The buffer with a `-` in front. -/
theorem written_minus {cs : List (BitVec 8)} (h : Written (fun k => buf (k + 1)) s cs)
    (hfits : cs.length + 1 < addresses) :
    Written buf { s with buf := fun k => if k = 0 then 0x2d else s.buf (k - 1) } (0x2d :: cs) where
  string := {
    chars := fun k hk => by
      cases k with
      | zero => rfl
      | succ k => exact h.string.chars k (by simpa using hk)
    nul := h.string.nul
    ne_nul := by simpa using h.string.ne_nul
    fits := hfits }
  behind := fun k hk => by
    have hk' : cs.length + 1 < k := hk
    show (if k = 0 then _ else _) = _
    rw [if_neg (by omega), h.behind (k - 1) (by omega), Nat.sub_add_cancel (by omega)]
  used := h.used

/-- Numerals are written so that they read back as the number. -/
theorem itoaS_itoa_numeral (i base : U32) (tbuf : Int → BitVec 8) (buf : Chars)
    (h2 : 2 ≤ base.toNat) (h16 : base.toNat ≤ 16) :
    (∃ s cs, itoaS i base tbuf buf = some s ∧ Written buf s cs ∧
      Numeral base.toNat i.toInt cs) ∧
    ∃ s cs, itoa i base tbuf buf = some s ∧ Written buf s cs ∧ Numeral base.toNat i.toNat cs := by
  have hbase : ¬ 16#32 < base := by
    rw [BitVec.lt_def]
    exact Nat.not_lt.mpr h16
  obtain ⟨s, hs, hw⟩ := written_itoa h2 h16 i tbuf buf
  have hnum := numeral_numeralChars h2 h16 i.isLt
  refine ⟨?_, s, _, hs, hw, hnum⟩
  rw [itoaS, if_neg hbase]
  by_cases hneg : i.toInt < 0
  · -- the number is negated in 32 bits
    have hminus : -((i * -1).toNat : Int) = i.toInt ∧ (i * -1).toNat ≠ 0 := by
      rw [BitVec.toInt_eq_toNat_cond] at hneg ⊢
      have hmul : i * -1 = -i := (BitVec.mul_neg i 1).trans (congrArg _ (BitVec.mul_one i))
      rw [hmul]
      split at hneg <;> split <;> bv_omega
    obtain ⟨t, ht, hw⟩ := written_itoa h2 h16 (i * -1) tbuf (fun k => buf (k + 1))
    have hnum := numeral_minus h2 h16 (i * -1).isLt hminus.2
    rw [hminus.1] at hnum
    refine ⟨{ t with buf := fun k => if k = 0 then 0x2d else t.buf (k - 1) }, _, ?_, ?_, hnum⟩
    · rw [if_pos hneg, ht]
      rfl
    · refine written_minus hw ?_
      have := length_numeralChars_le (b := base.toNat) h2 (i * -1).isLt
      unfold addresses
      omega
  · rw [if_neg hneg]
    have hnonneg : (i.toNat : Int) = i.toInt := by
      rw [BitVec.toInt_eq_toNat_cond] at hneg ⊢
      split at hneg <;> split <;> omega
    exact ⟨s, _, hs, hw, hnonneg ▸ hnum⟩

/-- `-0x80000000` in base 2: the most negative number with the most digits. -/
theorem itoaS_itoa_numeral_min :
    (2 ≤ (2#32).toNat ∧ (2#32).toNat ≤ 16) ∧
    (∃ s cs, itoaS 0x80000000#32 2 (fun _ => 0) (fun _ => 0) = some s ∧
      Written (fun _ => 0) s cs ∧ Numeral 2 (0x80000000#32).toInt cs) ∧
    ∃ s cs, itoa 0x80000000#32 2 (fun _ => 0) (fun _ => 0) = some s ∧
      Written (fun _ => 0) s cs ∧ Numeral 2 (0x80000000#32).toNat cs :=
  ⟨by simp, itoaS_itoa_numeral 0x80000000#32 2 (fun _ => 0) (fun _ => 0) (by simp) (by simp)⟩

end

end PiggyOS
