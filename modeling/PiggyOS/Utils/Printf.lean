import PiggyOS.Drivers.Vga
import PiggyOS.Utils.Display

/-!
# Formatted output (`display.c`)

`kprintf` walks over the format string and fetches an argument for each directive; all output goes
to the serial line and, where the kernel is built for text mode, to the console as well. What a
format means is defined by taking it apart into pieces first: `%s`, `%d`, `%x`, `%c`, and characters
that stand for themselves. A `%` before anything else is dropped.
-/

namespace PiggyOS

open Infra

/-- The loop of `vga_puts` and of `serial_puts`, from `str[i]` on; `putc` takes one character. -/
def putsFrom {σ : Type} (putc : σ → BitVec 8 → σ) (str : Chars) : Nat → Nat → σ → Option σ
  | 0, _, _ => none
  | n + 1, i, s => if str i = 0 then some s else putsFrom putc str n (i + 1) (putc s (str i))

/-- `vga_puts` -/
def vgaPuts (string : Chars) (s : Vga) : Option Vga := putsFrom Vga.putc string addresses 0 s

/-- `serial_putc`; the line is given by the bytes that have been sent. -/
def serialPutc (line : List (BitVec 8)) (c : BitVec 8) : List (BitVec 8) := line ++ [c]

/-- `serial_puts` -/
def serialPuts (str : Chars) (line : List (BitVec 8)) : Option (List (BitVec 8)) :=
  putsFrom serialPutc str addresses 0 line

/-- Where the output goes. -/
structure Output where
  vga : Vga
  serial : List (BitVec 8)

/-- The output and the scratch buffer of `__itoa`. -/
structure Display extends Output where
  tbuf : Int → BitVec 8

namespace Output

variable (textmode : Bool) (o : Output)

/-- `vga_putc(c); serial_putc(c);`, the first of them under `TEXTMODE`. -/
def putc (c : BitVec 8) : Output :=
  ⟨if textmode then o.vga.putc c else o.vga, serialPutc o.serial c⟩

/-- `vga_puts(str); serial_puts(str);`, the first of them under `TEXTMODE`. -/
def puts (str : Chars) : Option Output := do
  let vga ← if textmode then vgaPuts str o.vga else some o.vga
  let serial ← serialPuts str o.serial
  return ⟨vga, serial⟩

end Output

/-- The variables of `__kprintf_va_list`. -/
structure Printf extends Display where
  i : Nat
  ap : U32

namespace Printf

variable (mem : Mem) (textmode : Bool) (s : Printf)

/-- `va_arg` of one word -/
def vaArg : U32 := mem.read32 s.ap

/-- The directive is done: `o` is the output then. -/
def next (o : Output) : Printf := { s with toOutput := o, i := s.i + 2, ap := s.ap + 4 }

/-- One round of the loop of `__kprintf_va_list`. -/
def step (str : Chars) : Option Printf :=
  if str s.i = 0x25 then
    if str (s.i + 1) = 0x73 then do
      -- string
      let o ← s.puts textmode (charsAt mem (s.vaArg mem))
      return s.next o
    else if str (s.i + 1) = 0x64 then do
      -- decimal
      let b ← itoaS (s.vaArg mem) 10 s.tbuf fun _ => 0
      let o ← s.puts textmode b.buf
      return { s.next o with tbuf := b.tbuf }
    else if str (s.i + 1) = 0x78 then do
      let b ← itoa (s.vaArg mem) 16 s.tbuf fun _ => 0
      let o ← s.puts textmode b.buf
      return { s.next o with tbuf := b.tbuf }
    else if str (s.i + 1) = 0x63 then
      some (s.next (s.putc textmode ((s.vaArg mem &&& ~~~0xFFFFFF00).setWidth 8)))
    else some { s with i := s.i + 1 }
  else some { s with i := s.i + 1, toOutput := s.putc textmode (str s.i) }

end Printf

/-- `__kprintf_va_list` with the arguments from `ap` on; the format string does not change, so that
`strlen` is taken once. -/
def kprintfVaList (mem : Mem) (textmode : Bool) (str : Chars) (ap : U32) (d : Display) :
    Option Display := do
  let len ← strlen str
  let s ← loop (fun s : Printf => s.i < len) (fun s => s.step mem textmode str) (len + 1) ⟨d, 0, ap⟩
  return s.toDisplay

/-- `kprintf`, with the arguments behind the format from `ap` on. -/
def kprintf (mem : Mem) (textmode : Bool) (str ap : U32) (d : Display) : Option (Nat × Display) :=
  if str = 0 then some (0, d)
  else do
    let d ← kprintfVaList mem textmode (charsAt mem str) ap d
    return (1, d)

/-! ## What a format means -/

/-- The string that a `char*` leads to, if it ends. -/
def cString (str : Chars) : Option (List (BitVec 8)) :=
  (strlen str).map fun len => (List.range len).map str

/-- A part of a format. -/
inductive Piece
  | lit (c : BitVec 8)
  | str
  | dec
  | hex
  | chr
  deriving DecidableEq

/-- The directive that a character stands for behind `%`. -/
def Piece.ofChar (c : BitVec 8) : Option Piece :=
  if c = 0x73 then some str
  else if c = 0x64 then some dec
  else if c = 0x78 then some hex
  else if c = 0x63 then some chr
  else none

/-- The size of the argument. -/
def Piece.size : Piece → U32
  | lit _ => 0
  | _ => 4

/-- The pieces of a format. -/
def pieces : List (BitVec 8) → List Piece
  | [] => []
  | [c] => if c = 0x25 then [] else [.lit c]
  | c :: d :: rest =>
    if c = 0x25 then
      match Piece.ofChar d with
      | some p => p :: pieces rest
      | none => pieces (d :: rest)
    else .lit c :: pieces (d :: rest)

/-- The decimal numeral of a signed number. -/
def decimal (i : U32) : List (BitVec 8) :=
  if i.toInt < 0 then 0x2d :: numeralChars 10 (i * -1).toNat else numeralChars 10 i.toNat

/-- What comes out for the argument `arg`; nothing is defined for a string without an end. -/
def Piece.render (mem : Mem) (arg : U32) : Piece → Option (List (BitVec 8))
  | lit c => some [c]
  | str => cString (charsAt mem arg)
  | dec => some (decimal arg)
  | hex => some (numeralChars 16 arg.toNat)
  | chr => some [arg.setWidth 8]

/-- What comes out for the pieces, with their arguments from `ap` on. -/
def renderAll (mem : Mem) : List Piece → U32 → Option (List (BitVec 8))
  | [], _ => some []
  | p :: ps, ap =>
    (p.render mem (mem.read32 ap)).bind fun cs => (renderAll mem ps (ap + p.size)).map (cs ++ ·)

/-- The text of a call with the format at `str`. -/
def formatted (mem : Mem) (str ap : U32) : Option (List (BitVec 8)) :=
  (cString (charsAt mem str)).bind fun fmt => renderAll mem (pieces fmt) ap

/-- The text `cs` has gone to both. -/
def Output.emit (textmode : Bool) (o : Output) (cs : List (BitVec 8)) : Output :=
  ⟨if textmode then cs.foldl Vga.putc o.vga else o.vga, o.serial ++ cs⟩

section

variable {mem : Mem} {textmode : Bool} {str : Chars} {cs fmt rest : List (BitVec 8)}
  {n i k len : Nat} {ap : U32} {s : Printf} {o : Output} {d : Display} {c : BitVec 8} {p : Piece}

/-! ## Output -/

@[simp] theorem emit_nil : o.emit textmode [] = o := by
  cases textmode <;> simp [Output.emit]

@[simp] theorem emit_emit {cs' : List (BitVec 8)} :
    (o.emit textmode cs).emit textmode cs' = o.emit textmode (cs ++ cs') := by
  cases textmode <;> simp [Output.emit]

theorem putc_eq_emit : o.putc textmode c = o.emit textmode [c] := rfl

theorem le_of_strlenFrom (h : strlenFrom str n i = some k) : i ≤ k := by
  induction n generalizing i with
  | zero => cases h
  | succ n ih =>
    rw [strlenFrom] at h
    split at h
    · exact Nat.le_of_eq (Option.some.inj h)
    · exact Nat.le_of_succ_le (ih h)

/-- The characters up to the NUL are put one after another. -/
theorem putsFrom_eq {σ : Type} (putc : σ → BitVec 8 → σ) (s : σ) :
    putsFrom putc str n i s =
      (strlenFrom str n i).map fun k => ((List.range' i (k - i)).map str).foldl putc s := by
  induction n generalizing i s with
  | zero => rfl
  | succ n ih =>
    rw [putsFrom, strlenFrom]
    split
    · simp
    · rw [ih]
      cases hk : strlenFrom str n (i + 1) with
      | none => rfl
      | some k =>
        have hle := le_of_strlenFrom hk
        rw [Option.map_some, Option.map_some, show k - i = k - (i + 1) + 1 by omega,
          List.range'_succ]
        rfl

theorem cString_eq (h : IsString str cs) : cString str = some cs := by
  rw [cString, h.strlen, Option.map_some]
  refine congrArg some (List.ext_getElem (by simp) fun k _ hk => ?_)
  rw [List.getElem_map, List.getElem_range, h.chars k hk]

theorem strlenFrom_spec (h : strlenFrom str n i = some k) :
    str k = 0 ∧ k < n + i ∧ ∀ j, i ≤ j → j < k → str j ≠ 0 := by
  induction n generalizing i with
  | zero => cases h
  | succ n ih =>
    rw [strlenFrom] at h
    split at h
    · cases h
      exact ⟨‹_›, by omega, fun j hij hji => absurd hij (Nat.not_le.mpr hji)⟩
    · obtain ⟨hk, hlt, hne⟩ := ih h
      refine ⟨hk, by omega, fun j hij hjk => ?_⟩
      obtain rfl | hij := Nat.eq_or_lt_of_le hij
      · assumption
      · exact hne j hij hjk

/-- What `strlen` has measured is a string. -/
theorem isString_of_cString (h : cString str = some cs) : IsString str cs := by
  obtain ⟨k, hk, rfl⟩ := Option.map_eq_some_iff.mp h
  obtain ⟨hnul, hlt, hne⟩ := strlenFrom_spec hk
  exact {
    chars := fun i hi => by rw [List.getElem_map, List.getElem_range]
    nul := by rwa [List.length_map, List.length_range]
    ne_nul := by
      simp only [List.mem_map, List.mem_range, not_exists, not_and]
      exact fun j hj => hne j (Nat.zero_le _) hj
    fits := by rwa [List.length_map, List.length_range] }

theorem putsFrom_cString {σ : Type} (putc : σ → BitVec 8 → σ) (s : σ) :
    putsFrom putc str addresses 0 s = (cString str).map fun cs => cs.foldl putc s := by
  rw [putsFrom_eq, cString, Option.map_map, strlen]
  simp [Function.comp_def, List.range_eq_range']

theorem foldl_serialPutc (line : List (BitVec 8)) : cs.foldl serialPutc line = line ++ cs := by
  induction cs generalizing line with
  | nil => simp
  | cons c cs ih => rw [List.foldl_cons, ih, serialPutc, List.append_assoc, List.singleton_append]

/-- A string goes to both as a whole or does not end. -/
theorem puts_eq : o.puts textmode str = (cString str).map (o.emit textmode) := by
  rw [Output.puts, vgaPuts, serialPuts, putsFrom_cString, putsFrom_cString]
  cases hcs : cString str with
  | none => cases textmode <;> rfl
  | some cs =>
    simp only [Option.map_some, foldl_serialPutc]
    cases textmode <;> rfl

theorem puts_isString (h : IsString str cs) : o.puts textmode str = some (o.emit textmode cs) := by
  rw [puts_eq, cString_eq h, Option.map_some]

/-! ## Numerals -/

theorem toNat_mul_neg_one {i : U32} (hneg : i.toInt < 0) :
    -((i * -1).toNat : Int) = i.toInt ∧ (i * -1).toNat ≠ 0 := by
  have hmul : i * -1 = -i := (BitVec.mul_neg i 1).trans (congrArg _ (BitVec.mul_one i))
  rw [BitVec.toInt_eq_toNat_cond] at hneg ⊢
  rw [hmul]
  split at hneg <;> split <;> bv_omega

/-- `__itoa_s` writes the decimal numeral. -/
theorem written_decimal (i : U32) (tbuf : Int → BitVec 8) (buf : Chars) :
    ∃ b, itoaS i 10 tbuf buf = some b ∧ Written buf b (decimal i) := by
  rw [itoaS, if_neg (by decide), decimal]
  by_cases hneg : i.toInt < 0
  · have hten : 2 ≤ (10 : U32).toNat ∧ (10 : U32).toNat ≤ 16 := by decide
    obtain ⟨t, ht, hw⟩ := written_itoa hten.1 hten.2 (i * -1) tbuf fun k => buf (k + 1)
    refine ⟨{ t with buf := fun k => if k = 0 then 0x2d else t.buf (k - 1) }, ?_, ?_⟩
    · rw [if_pos hneg, ht]
      rfl
    · rw [if_pos hneg]
      refine written_minus hw ?_
      have := length_numeralChars_le (b := 10) (by decide) (i * -1).isLt
      unfold addresses
      omega
  · rw [if_neg hneg, if_neg hneg]
    exact written_itoa (by decide) (by decide) i tbuf buf

/-- It reads back as the number. -/
theorem numeral_decimal (i : U32) : Numeral 10 i.toInt (decimal i) := by
  unfold decimal
  split
  · rename_i hneg
    obtain ⟨hvalue, hne⟩ := toNat_mul_neg_one hneg
    rw [← hvalue]
    exact numeral_minus (by decide) (by decide) (i * -1).isLt hne
  · rename_i hneg
    have hnonneg : (i.toNat : Int) = i.toInt := by
      rw [BitVec.toInt_eq_toNat_cond] at hneg ⊢
      split at hneg <;> split <;> omega
    rw [← hnonneg]
    exact numeral_numeralChars (by decide) (by decide) i.isLt

theorem setWidth_and_low (arg : U32) : (arg &&& ~~~0xFFFFFF00).setWidth 8 = arg.setWidth 8 := by
  have hmask : (~~~0xFFFFFF00 : U32).setWidth 8 = BitVec.allOnes 8 := by decide
  rw [BitVec.setWidth_and, hmask, BitVec.and_allOnes]

/-! ## The loop -/

theorem Piece.ofChar_eq_some (hp : Piece.ofChar c = some p) :
    (c = 0x73 ∧ p = .str) ∨ (c = 0x64 ∧ p = .dec) ∨ (c = 0x78 ∧ p = .hex) ∨
      (c = 0x63 ∧ p = .chr) := by
  unfold Piece.ofChar at hp
  grind

theorem Piece.ofChar_eq_none (hp : Piece.ofChar c = none) :
    c ≠ 0x73 ∧ c ≠ 0x64 ∧ c ≠ 0x78 ∧ c ≠ 0x63 := by
  unfold Piece.ofChar at hp
  grind

theorem Piece.size_of_ofChar (hp : Piece.ofChar c = some p) : p.size = 4 := by
  obtain ⟨-, rfl⟩ | ⟨-, rfl⟩ | ⟨-, rfl⟩ | ⟨-, rfl⟩ := ofChar_eq_some hp <;> rfl

@[simp] theorem pieces_directive (hp : Piece.ofChar c = some p) :
    pieces (0x25 :: c :: rest) = p :: pieces rest := by
  simp [pieces, hp]

@[simp] theorem pieces_dropped (hp : Piece.ofChar c = none) :
    pieces (0x25 :: c :: rest) = pieces (c :: rest) := by
  simp [pieces, hp]

@[simp] theorem pieces_plain (hc : c ≠ 0x25) : pieces (c :: rest) = .lit c :: pieces rest := by
  cases rest with
  | nil => exact if_neg hc
  | cons d rest => exact if_neg hc

namespace Printf

/-- A directive puts what its piece stands for. -/
theorem step_directive (mem : Mem) (textmode : Bool) (hc : str s.i = 0x25)
    (hp : Piece.ofChar (str (s.i + 1)) = some p) :
    ∃ tbuf, s.step mem textmode str = (p.render mem (s.vaArg mem)).map fun cs =>
      { s.next (s.emit textmode cs) with tbuf := tbuf } := by
  rw [step, if_pos hc]
  obtain ⟨hd, rfl⟩ | ⟨hd, rfl⟩ | ⟨hd, rfl⟩ | ⟨hd, rfl⟩ := Piece.ofChar_eq_some hp
  · refine ⟨s.tbuf, ?_⟩
    rw [if_pos hd, puts_eq, Piece.render]
    cases cString (charsAt mem (s.vaArg mem)) <;> rfl
  · obtain ⟨b, hb, hw⟩ := written_decimal (s.vaArg mem) s.tbuf fun _ => 0
    refine ⟨b.tbuf, ?_⟩
    rw [hd, if_neg (by decide), if_pos rfl, hb]
    simp only [Option.bind_eq_bind, Option.bind_some, puts_isString hw.string]
    rfl
  · have hbase : 2 ≤ (16 : U32).toNat ∧ (16 : U32).toNat ≤ 16 := by decide
    obtain ⟨b, hb, hw⟩ := written_itoa hbase.1 hbase.2 (s.vaArg mem) s.tbuf fun _ => 0
    refine ⟨b.tbuf, ?_⟩
    rw [hd, if_neg (by decide), if_neg (by decide), if_pos rfl, hb]
    simp only [Option.bind_eq_bind, Option.bind_some, puts_isString hw.string]
    rfl
  · refine ⟨s.tbuf, ?_⟩
    rw [hd, if_neg (by decide), if_neg (by decide), if_neg (by decide), if_pos rfl,
      setWidth_and_low]
    rfl

/-- A `%` before anything else puts nothing. -/
theorem step_dropped (hc : str s.i = 0x25) (hp : Piece.ofChar (str (s.i + 1)) = none) :
    s.step mem textmode str = some { s with i := s.i + 1 } := by
  obtain ⟨h1, h2, h3, h4⟩ := Piece.ofChar_eq_none hp
  rw [step, if_pos hc, if_neg h1, if_neg h2, if_neg h3, if_neg h4]

theorem step_plain (hc : str s.i ≠ 0x25) :
    s.step mem textmode str =
      some { s with i := s.i + 1, toOutput := s.emit textmode [str s.i] } := if_neg hc

end Printf

/-- A format from its character `i` on, where it has not ended: a directive, a `%` that is dropped,
or a character that stands for itself. -/
theorem IsString.format_cases (h : IsString str fmt) (hi : i < fmt.length) :
    (∃ p, str i = 0x25 ∧ Piece.ofChar (str (i + 1)) = some p ∧ i + 2 ≤ fmt.length ∧
      pieces (fmt.drop i) = p :: pieces (fmt.drop (i + 2))) ∨
    (str i = 0x25 ∧ Piece.ofChar (str (i + 1)) = none ∧
      pieces (fmt.drop i) = pieces (fmt.drop (i + 1))) ∨
    (str i ≠ 0x25 ∧ pieces (fmt.drop i) = .lit (str i) :: pieces (fmt.drop (i + 1))) := by
  have hdrop : fmt.drop i = str i :: fmt.drop (i + 1) := by
    rw [List.drop_eq_getElem_cons hi, h.chars i hi]
  by_cases hc : str i = 0x25
  · by_cases hend : i + 1 = fmt.length
    · -- the format ends with the `%`
      have hnul : str (i + 1) = 0 := hend ▸ h.nul
      refine Or.inr (Or.inl ⟨hc, by rw [hnul]; rfl, ?_⟩)
      rw [hdrop, List.drop_of_length_le (Nat.le_of_eq hend.symm), hc]
      rfl
    · have hi' : i + 1 < fmt.length := by omega
      have hdrop' : fmt.drop (i + 1) = str (i + 1) :: fmt.drop (i + 2) := by
        rw [List.drop_eq_getElem_cons hi', h.chars (i + 1) hi']
      cases hp : Piece.ofChar (str (i + 1)) with
      | some p =>
        refine Or.inl ⟨p, hc, rfl, by omega, ?_⟩
        rw [hdrop, hdrop', hc, pieces_directive hp]
      | none =>
        refine Or.inr (Or.inl ⟨hc, rfl, ?_⟩)
        rw [hdrop, hdrop', hc, pieces_dropped hp]
  · exact Or.inr (Or.inr ⟨hc, by rw [hdrop, pieces_plain hc]⟩)

/-- What has come out already stands in front. -/
theorem map_emit {r : Option (List (BitVec 8))} :
    r.map ((o.emit textmode cs).emit textmode) = (r.map (cs ++ ·)).map (o.emit textmode) := by
  rw [Option.map_map]
  exact congrArg (Option.map · r) (funext fun cs' => emit_emit)

/-- The loop from any state on puts the rest of the format. -/
theorem loop_step (mem : Mem) (textmode : Bool) (h : IsString str fmt) (hi : s.i ≤ fmt.length)
    (hn : fmt.length - s.i < n) :
    (loop (fun s : Printf => s.i < fmt.length) (fun s => s.step mem textmode str) n s).map
        (·.toOutput) =
      (renderAll mem (pieces (fmt.drop s.i)) s.ap).map (s.emit textmode) := by
  induction n generalizing s with
  | zero => omega
  | succ n ih =>
    rw [loop]
    by_cases hlt : s.i < fmt.length
    · rw [if_pos (decide_eq_true hlt)]
      obtain ⟨p, hc, hp, hle, hpieces⟩ | ⟨hc, hp, hpieces⟩ | ⟨hc, hpieces⟩ := h.format_cases hlt
      · obtain ⟨tbuf, hstep⟩ := Printf.step_directive mem textmode hc hp
        rw [hstep, hpieces, renderAll, Piece.size_of_ofChar hp]
        show _ = ((p.render mem (s.vaArg mem)).bind _).map _
        cases p.render mem (s.vaArg mem) with
        | none => rfl
        | some cs =>
          have hrest := @ih { s.next (s.emit textmode cs) with tbuf := tbuf } hle
            (by show fmt.length - (s.i + 2) < n; omega)
          exact hrest.trans map_emit
      · have hrest := @ih { s with i := s.i + 1 } hlt (by show fmt.length - (s.i + 1) < n; omega)
        rw [Printf.step_dropped hc hp, Option.bind_some, hpieces]
        exact hrest
      · have hrest := @ih { s with i := s.i + 1, toOutput := s.emit textmode [str s.i] } hlt
          (by show fmt.length - (s.i + 1) < n; omega)
        rw [Printf.step_plain hc, Option.bind_some, hpieces, renderAll]
        have hap : s.ap + (Piece.lit (str s.i)).size = s.ap := BitVec.add_zero _
        rw [hap]
        exact hrest.trans map_emit
    · have hend : s.i = fmt.length := Nat.le_antisymm hi (Nat.le_of_not_lt hlt)
      rw [if_neg (by simpa using hlt), hend, List.drop_length]
      simp [pieces, renderAll]

theorem kprintfVaList_isString (h : IsString str fmt) (d : Display) :
    (kprintfVaList mem textmode str ap d).map (·.toOutput) =
      (renderAll mem (pieces fmt) ap).map (d.emit textmode) := by
  have hloop := loop_step mem textmode (s := ⟨d, 0, ap⟩) (n := fmt.length + 1) h (Nat.zero_le _)
    (Nat.lt_succ_self _)
  refine Eq.trans ?_ hloop
  rw [kprintfVaList, h.strlen, Option.bind_eq_bind, Option.bind_some]
  show ((loop _ _ _ _).bind _).map _ = _
  cases loop (fun s : Printf => s.i < fmt.length) (fun s => s.step mem textmode str)
    (fmt.length + 1) ⟨d, 0, ap⟩ <;> rfl

/-- `__kprintf_va_list` puts the text of the call, if there is one. -/
theorem kprintfVaList_eq (mem : Mem) (textmode : Bool) (a ap : U32) (d : Display) :
    (kprintfVaList mem textmode (charsAt mem a) ap d).map (·.toOutput) =
      (formatted mem a ap).map (d.emit textmode) := by
  unfold formatted
  cases hfmt : cString (charsAt mem a) with
  | some fmt => exact kprintfVaList_isString (isString_of_cString hfmt) d
  | none =>
    rw [kprintfVaList, Option.map_eq_none_iff.mp hfmt]
    rfl

/-- A `%` reaches the output as an argument only. -/
theorem lit_percent_notMem : ∀ fmt, Piece.lit 0x25 ∉ pieces fmt
  | [] => List.not_mem_nil
  | [c] => by
    rw [pieces]
    split <;> simp_all [eq_comm]
  | c :: d :: rest => by
    have ih := lit_percent_notMem rest
    have ih' := lit_percent_notMem (d :: rest)
    rw [pieces]
    split
    · split
      · rename_i p hp
        have hne : p ≠ .lit 0x25 := by
          rintro rfl
          exact absurd (Piece.ofChar_eq_some hp) (by simp)
        exact List.not_mem_cons_of_ne_of_not_mem hne.symm ih
      · exact ih'
    · simp_all [eq_comm]

end

end PiggyOS
