import Mathlib.Logic.Function.Basic
import PiggyOS.Infra.Run

/-!
# The keyboard (`keyboard.c`)

A key sends a make code when it is pressed and a break code, which has bit 7 set, when it is
released, each of them behind the byte 0xE0 if the key is one of the extended ones. The handler
keeps one bit for each modifier and one for the byte 0xE0 before. Both keys of a modifier set and
clear the same bit.
-/

namespace PiggyOS

open Infra

/-! ## The tables -/

/-- `SHIFT` -/
def shiftBit : BitVec 8 := 1 <<< 0

/-- `CTL` -/
def ctlBit : BitVec 8 := 1 <<< 1

/-- `ALT` -/
def altBit : BitVec 8 := 1 <<< 2

/-- `CAPSLOCK` -/
def capslockBit : BitVec 8 := 1 <<< 3

/-- `NUMLOCK` -/
def numlockBit : BitVec 8 := 1 <<< 4

/-- `SCROLLLOCK` -/
def scrolllockBit : BitVec 8 := 1 <<< 5

/-- `E0ESC` -/
def e0esc : BitVec 8 := 1 <<< 6

def shiftcode (data : BitVec 8) : BitVec 8 :=
  if data = 0x1D then ctlBit
  else if data = 0x2A then shiftBit
  else if data = 0x36 then shiftBit
  else if data = 0x38 then altBit
  else if data = 0x9D then ctlBit
  else if data = 0xB8 then altBit
  else 0

def togglecode (data : BitVec 8) : BitVec 8 :=
  if data = 0x3A then capslockBit
  else if data = 0x45 then numlockBit
  else if data = 0x46 then scrolllockBit
  else 0

/-- A table of characters: the first ones in order, and those of the keys 0x9C and 0xB5. -/
def keymap (first : List (BitVec 8)) (enter slash data : BitVec 8) : BitVec 8 :=
  if data = 0x9C then enter else if data = 0xB5 then slash else first.getD data.toNat 0

def normalmap : BitVec 8 → BitVec 8 := keymap
  [0x00, 0x1B, 0x31, 0x32, 0x33, 0x34, 0x35, 0x36,
   0x37, 0x38, 0x39, 0x30, 0x2D, 0x3D, 0x08, 0x09,
   0x71, 0x77, 0x65, 0x72, 0x74, 0x79, 0x75, 0x69,
   0x6F, 0x70, 0x5B, 0x5D, 0x0A, 0x00, 0x61, 0x73,
   0x64, 0x66, 0x67, 0x68, 0x6A, 0x6B, 0x6C, 0x3B,
   0x27, 0x60, 0x00, 0x5C, 0x7A, 0x78, 0x63, 0x76,
   0x62, 0x6E, 0x6D, 0x2C, 0x2E, 0x2F, 0x00, 0x2A,
   0x00, 0x20, 0x00, 0x00, 0x00, 0x00, 0x00, 0x00,
   0x00, 0x00, 0x00, 0x00, 0x00, 0x00, 0x00, 0x37,
   0x38, 0x39, 0x2D, 0x34, 0x35, 0x36, 0x2B, 0x31,
   0x32, 0x33, 0x30, 0x2E] 0x0A 0x2F

def shiftmap : BitVec 8 → BitVec 8 := keymap
  [0x00, 0x1B, 0x21, 0x40, 0x23, 0x24, 0x25, 0x5E,
   0x26, 0x2A, 0x28, 0x29, 0x5F, 0x2B, 0x08, 0x09,
   0x51, 0x57, 0x45, 0x52, 0x54, 0x59, 0x55, 0x49,
   0x4F, 0x50, 0x7B, 0x7D, 0x0A, 0x00, 0x41, 0x53,
   0x44, 0x46, 0x47, 0x48, 0x4A, 0x4B, 0x4C, 0x3A,
   0x22, 0x7E, 0x00, 0x7C, 0x5A, 0x58, 0x43, 0x56,
   0x42, 0x4E, 0x4D, 0x3C, 0x3E, 0x3F, 0x00, 0x2A,
   0x00, 0x20, 0x00, 0x00, 0x00, 0x00, 0x00, 0x00,
   0x00, 0x00, 0x00, 0x00, 0x00, 0x00, 0x00, 0x37,
   0x38, 0x39, 0x2D, 0x34, 0x35, 0x36, 0x2B, 0x31,
   0x32, 0x33, 0x30, 0x2E] 0x0A 0x2F

def ctlmap : BitVec 8 → BitVec 8 := keymap
  [0x00, 0x00, 0x00, 0x00, 0x00, 0x00, 0x00, 0x00,
   0x00, 0x00, 0x00, 0x00, 0x00, 0x00, 0x00, 0x00,
   0x11, 0x17, 0x05, 0x12, 0x14, 0x19, 0x15, 0x09,
   0x0F, 0x10, 0x00, 0x00, 0x0D, 0x00, 0x01, 0x13,
   0x04, 0x06, 0x07, 0x08, 0x0A, 0x0B, 0x0C, 0x00,
   0x00, 0x00, 0x00, 0x1C, 0x1A, 0x18, 0x03, 0x16,
   0x02, 0x0E, 0x0D, 0x00, 0x00, 0xEF, 0x00, 0x00] 0x0D 0xEF

/-- `charcode[i][data]` -/
def charcode (i data : BitVec 8) : BitVec 8 :=
  if i = 0 then normalmap data else if i = 1 then shiftmap data else ctlmap data

/-- The case of a letter under `CAPSLOCK`. -/
def swapCase (c : BitVec 8) : BitVec 8 :=
  if 0x61 ≤ c ∧ c ≤ 0x7A then c + (0x41 - 0x61)
  else if 0x41 ≤ c ∧ c ≤ 0x5A then c + (0x61 - 0x41)
  else c

/-! ## The handler -/

/-- The variable `shift`, and the characters that have been given to `kprintf`. -/
structure Keyboard where
  shift : BitVec 8
  printed : List (BitVec 8)

namespace Keyboard

variable (s : Keyboard)

def boot : Keyboard := ⟨0, []⟩

/-- `keyboard_irq_handler`, where `data` is read from `PS2_DATA`. -/
def keyboardIrqHandler (data : BitVec 8) : Keyboard :=
  if data = 0xE0 then { s with shift := s.shift ||| e0esc }
  else if data &&& 0x80 ≠ 0 then
    let data := if s.shift &&& e0esc ≠ 0 then data else data &&& 0x7F
    { s with shift := s.shift &&& ~~~(shiftcode data ||| e0esc) }
  else
    let escaped := s.shift &&& e0esc ≠ 0
    let data := if escaped then data ||| 0x80 else data
    let shift := if escaped then s.shift &&& ~~~e0esc else s.shift
    let shift := shift ||| shiftcode data
    let shift := shift ^^^ togglecode data
    let c := charcode (shift &&& (ctlBit ||| shiftBit)) data
    let c := if shift &&& capslockBit ≠ 0 then swapCase c else c
    { shift, printed := s.printed ++ [c] }

/-- The handler is called for one byte after the other. -/
def deliver (bytes : List (BitVec 8)) : Keyboard := bytes.foldl keyboardIrqHandler s

end Keyboard

/-! ## Keys -/

/-- A key; the break code of the code 0x60 would be the byte 0xE0. -/
structure Key where
  extended : Bool
  code : BitVec 8
  code_lt : code < 0x80
  code_ne : code ≠ 0x60
  deriving DecidableEq

namespace Key

variable (k : Key)

/-- The byte before the scancode of an extended key. -/
def escape : List (BitVec 8) := if k.extended then [0xE0] else []

def makeCode : List (BitVec 8) := k.escape ++ [k.code]

def breakCode : List (BitVec 8) := k.escape ++ [k.code ||| 0x80]

/-- Where the tables have their entries for the key. -/
def index : BitVec 8 := if k.extended then k.code ||| 0x80 else k.code

def leftShift : Key := ⟨false, 0x2A, by decide, by decide⟩

def rightShift : Key := ⟨false, 0x36, by decide, by decide⟩

def leftCtl : Key := ⟨false, 0x1D, by decide, by decide⟩

def rightCtl : Key := ⟨true, 0x1D, by decide, by decide⟩

def leftAlt : Key := ⟨false, 0x38, by decide, by decide⟩

def rightAlt : Key := ⟨true, 0x38, by decide, by decide⟩

def capslock : Key := ⟨false, 0x3A, by decide, by decide⟩

end Key

/-- The modifiers with a key on either side. -/
inductive Modifier
  | shift | ctl | alt

namespace Modifier

def pos : Modifier → Nat
  | shift => 0
  | ctl => 1
  | alt => 2

def bit : Modifier → BitVec 8
  | shift => shiftBit
  | ctl => ctlBit
  | alt => altBit

def left : Modifier → Key
  | shift => .leftShift
  | ctl => .leftCtl
  | alt => .leftAlt

def right : Modifier → Key
  | shift => .rightShift
  | ctl => .rightCtl
  | alt => .rightAlt

end Modifier

/-! ## Runs -/

inductive KeyEvent
  | press (k : Key)
  | release (k : Key)

/-- The keyboard in a run; the keys that are held and the number of times that `CAPSLOCK` has been
pressed are bookkeeping. -/
structure KeyRun where
  keyboard : Keyboard
  held : Key → Bool
  capsPresses : Nat

namespace KeyRun

variable (s : KeyRun)

def boot : KeyRun := ⟨.boot, fun _ => false, 0⟩

/-- An event, with all the bytes of its scancode. -/
def step : KeyEvent → KeyRun
  | .press k =>
    { keyboard := s.keyboard.deliver k.makeCode
      held := Function.update s.held k true
      capsPresses := if k = .capslock then s.capsPresses + 1 else s.capsPresses }
  | .release k =>
    { s with
      keyboard := s.keyboard.deliver k.breakCode
      held := Function.update s.held k false }

/-- The state of the modifiers is that of the keys. -/
structure ModifiersOk : Prop where
  held : ∀ m : Modifier,
    s.keyboard.shift &&& m.bit ≠ 0 ↔ s.held m.left = true ∨ s.held m.right = true
  capslock : s.keyboard.shift &&& capslockBit ≠ 0 ↔ s.capsPresses % 2 = 1
  unescaped : s.keyboard.shift &&& e0esc = 0

/-- One key of a modifier is released while the other one is held. -/
def Overlaps : KeyEvent → Prop
  | .press _ => False
  | .release k => ∃ m : Modifier, k = m.left ∧ s.held m.right = true ∨
      k = m.right ∧ s.held m.left = true

end KeyRun

def KeyStep (s : KeyRun) (e : KeyEvent) (t : KeyRun) : Prop := t = s.step e

/-! ## Bits -/

theorem and_one_shiftLeft_ne_zero_iff {v : BitVec 8} {i : Nat} (hi : i < 8) :
    v &&& ((1 : BitVec 8) <<< i) ≠ 0 ↔ v.getLsbD i = true := by
  have hone : (1 : BitVec 8) <<< i = BitVec.twoPow 8 i := (BitVec.twoPow_eq ..).symm
  have hne : BitVec.twoPow 8 i ≠ 0 := fun hc => by
    have hbit := congrArg (BitVec.getLsbD · i) hc
    simp [hi] at hbit
  rw [hone, BitVec.and_twoPow]
  split
  · next h => exact iff_of_true hne h
  · next h => exact iff_of_false (not_not.mpr rfl) h

theorem Modifier.bit_iff (m : Modifier) {v : BitVec 8} :
    v &&& m.bit ≠ 0 ↔ v.getLsbD m.pos = true := by
  cases m
  all_goals exact and_one_shiftLeft_ne_zero_iff (by decide)

theorem capslock_iff {v : BitVec 8} : v &&& capslockBit ≠ 0 ↔ v.getLsbD 3 = true :=
  and_one_shiftLeft_ne_zero_iff (by decide)

theorem e0esc_iff {v : BitVec 8} : v &&& e0esc = 0 ↔ v.getLsbD 6 = false := by
  rw [← not_iff_not, Bool.not_eq_false]
  exact and_one_shiftLeft_ne_zero_iff (by decide)

theorem Modifier.left_ne_right (m : Modifier) : m.left ≠ m.right := by
  cases m
  all_goals decide

/-! ## The entries of the tables -/

theorem shiftcode_high (data : BitVec 8) :
    (shiftcode data).getLsbD 3 = false ∧ (shiftcode data).getLsbD 6 = false := by
  revert data
  decide +kernel

theorem togglecode_others (data : BitVec 8) (m : Modifier) :
    (togglecode data).getLsbD m.pos = false ∧ (togglecode data).getLsbD 6 = false := by
  revert data
  cases m
  all_goals decide +kernel

theorem shiftcode_index (k : Key) (m : Modifier) :
    (shiftcode k.index).getLsbD m.pos = decide (k = m.left ∨ k = m.right) := by
  obtain ⟨e, c, hlt, hne⟩ := k
  cases m
  all_goals
    simp only [Modifier.left, Modifier.right, Key.leftShift, Key.rightShift, Key.leftCtl,
      Key.rightCtl, Key.leftAlt, Key.rightAlt, Key.mk.injEq, Key.index]
    revert hlt
    clear hne
    revert e c
    decide +kernel

theorem togglecode_index (k : Key) :
    (togglecode k.index).getLsbD 3 = decide (k = .capslock) := by
  obtain ⟨e, c, hlt, hne⟩ := k
  simp only [Key.capslock, Key.mk.injEq, Key.index]
  revert hlt
  clear hne
  revert e c
  decide +kernel

/-! ## What a scancode does -/

/-- A code below 0x80, with bit 7 and without. -/
theorem code_bits {c : BitVec 8} (hlt : c < 0x80) (hne : c ≠ 0x60) :
    c ≠ 0xE0 ∧ c &&& 0x80 = 0 ∧ c ||| 0x80 ≠ 0xE0 ∧ (c ||| 0x80) &&& 0x80 ≠ 0 ∧
      (c ||| 0x80) &&& 0x7F = c := by
  revert c
  decide +kernel

theorem or_e0esc_and (v : BitVec 8) : (v ||| e0esc) &&& e0esc ≠ 0 := by
  revert v
  decide +kernel

theorem or_e0esc_and_not {v : BitVec 8} (h : v &&& e0esc = 0) : (v ||| e0esc) &&& ~~~e0esc = v := by
  revert v
  decide +kernel

theorem or_e0esc_clear (v x : BitVec 8) :
    (v ||| e0esc) &&& ~~~(x ||| e0esc) = v &&& ~~~(x ||| e0esc) := by
  apply BitVec.eq_of_getLsbD_eq
  intro i hi
  simp only [BitVec.getLsbD_and, BitVec.getLsbD_or, BitVec.getLsbD_not]
  cases v.getLsbD i <;> cases e0esc.getLsbD i <;> simp

namespace Keyboard

variable {s : Keyboard} (k : Key)

/-- A key is pressed. -/
theorem deliver_makeCode (h : s.shift &&& e0esc = 0) :
    (s.deliver k.makeCode).shift = (s.shift ||| shiftcode k.index) ^^^ togglecode k.index := by
  obtain ⟨e, c, hlt, hne⟩ := k
  obtain ⟨h1, h2, -, -, -⟩ := code_bits hlt hne
  have hnot : ¬ c &&& 0x80 ≠ 0 := not_not.mpr h2
  cases e with
  | false =>
    show (s.keyboardIrqHandler c).shift = _
    unfold keyboardIrqHandler
    rw [if_neg h1, if_neg hnot]
    simp only [h, ne_eq, not_true_eq_false, if_false]
    rfl
  | true =>
    show ((s.keyboardIrqHandler 0xE0).keyboardIrqHandler c).shift = _
    -- the byte before the code is remembered until the code comes
    have hesc : s.keyboardIrqHandler 0xE0 = { s with shift := s.shift ||| e0esc } := if_pos rfl
    rw [hesc]
    unfold keyboardIrqHandler
    rw [if_neg h1, if_neg hnot]
    simp only [or_e0esc_and, ne_eq, not_false_eq_true, if_true, or_e0esc_and_not h]
    rfl

/-- A key is released. -/
theorem deliver_breakCode (h : s.shift &&& e0esc = 0) :
    (s.deliver k.breakCode).shift = s.shift &&& ~~~(shiftcode k.index ||| e0esc) := by
  obtain ⟨e, c, hlt, hne⟩ := k
  obtain ⟨-, -, h3, h4, h5⟩ := code_bits hlt hne
  cases e with
  | false =>
    show (s.keyboardIrqHandler (c ||| 0x80)).shift = _
    unfold keyboardIrqHandler
    rw [if_neg h3, if_pos h4]
    simp only [h, ne_eq, not_true_eq_false, if_false, h5]
    rfl
  | true =>
    show ((s.keyboardIrqHandler 0xE0).keyboardIrqHandler (c ||| 0x80)).shift = _
    have hesc : s.keyboardIrqHandler 0xE0 = { s with shift := s.shift ||| e0esc } := if_pos rfl
    rw [hesc]
    unfold keyboardIrqHandler
    rw [if_neg h3, if_pos h4]
    simp only [or_e0esc_and, ne_eq, not_false_eq_true, if_true, or_e0esc_clear]
    rfl

end Keyboard

namespace KeyRun

variable {s t : KeyRun} {e : KeyEvent} {k : Key}

theorem modifiersOk_boot : boot.ModifiersOk :=
  ⟨fun m => by cases m <;> decide, by decide, by decide⟩

/-- A bit after a press. -/
theorem ModifiersOk.getLsbD_press (h : s.ModifiersOk) (k : Key) (i : Nat) :
    (s.step (.press k)).keyboard.shift.getLsbD i =
      ((s.keyboard.shift.getLsbD i || (shiftcode k.index).getLsbD i) ^^
        (togglecode k.index).getLsbD i) := by
  show (s.keyboard.deliver k.makeCode).shift.getLsbD i = _
  rw [s.keyboard.deliver_makeCode k h.unescaped, BitVec.getLsbD_xor, BitVec.getLsbD_or]

/-- A bit after a release. -/
theorem ModifiersOk.getLsbD_release (h : s.ModifiersOk) (k : Key) {i : Nat} (hi : i < 8) :
    (s.step (.release k)).keyboard.shift.getLsbD i =
      (s.keyboard.shift.getLsbD i && !((shiftcode k.index).getLsbD i || e0esc.getLsbD i)) := by
  show (s.keyboard.deliver k.breakCode).shift.getLsbD i = _
  rw [s.keyboard.deliver_breakCode k h.unescaped, BitVec.getLsbD_and, BitVec.getLsbD_not,
    BitVec.getLsbD_or, decide_eq_true hi, Bool.true_and]

/-- A press sets the bit of its modifier. -/
theorem ModifiersOk.press (h : s.ModifiersOk) (k : Key) : (s.step (.press k)).ModifiersOk := by
  refine ⟨fun m => ?_, ?_, ?_⟩
  · have hheld := h.held m
    rw [m.bit_iff] at hheld ⊢
    rw [h.getLsbD_press, (togglecode_others _ m).1, Bool.xor_false, shiftcode_index,
      Bool.or_eq_true, hheld, decide_eq_true_eq]
    show _ ↔ Function.update s.held k true m.left = true ∨
      Function.update s.held k true m.right = true
    rw [Function.update_apply, Function.update_apply]
    by_cases hl : m.left = k
    · simp [hl]
    · by_cases hr : m.right = k
      · simp [hr]
      · simp [hl, hr, Ne.symm hl, Ne.symm hr]
  · have hcaps := h.capslock
    rw [capslock_iff] at hcaps ⊢
    rw [h.getLsbD_press, (shiftcode_high _).1, Bool.or_false, togglecode_index]
    show _ ↔ (if k = .capslock then s.capsPresses + 1 else s.capsPresses) % 2 = 1
    by_cases hk : k = .capslock
    · rw [decide_eq_true hk, if_pos hk, Bool.xor_true, Bool.not_eq_true', ← Bool.not_eq_true, hcaps]
      omega
    · rw [decide_eq_false hk, if_neg hk, Bool.xor_false, hcaps]
  · have hesc := e0esc_iff.mp h.unescaped
    rw [e0esc_iff, h.getLsbD_press, hesc, (shiftcode_high _).2, (togglecode_others _ .shift).2]
    rfl

/-- A release clears the bit of its modifier. -/
theorem ModifiersOk.bit_release (h : s.ModifiersOk) (k : Key) (m : Modifier) :
    (s.step (.release k)).keyboard.shift &&& m.bit ≠ 0 ↔
      (s.held m.left = true ∨ s.held m.right = true) ∧ ¬ (k = m.left ∨ k = m.right) := by
  have hheld := h.held m
  have hpos : m.pos < 8 ∧ e0esc.getLsbD m.pos = false := by
    cases m
    all_goals decide
  rw [m.bit_iff] at hheld ⊢
  rw [h.getLsbD_release k hpos.1, shiftcode_index, hpos.2, Bool.or_false, Bool.and_eq_true, hheld,
    Bool.not_eq_true', decide_eq_false_iff_not]

theorem ModifiersOk.release (h : s.ModifiersOk) (hsafe : ¬ s.Overlaps (.release k)) :
    (s.step (.release k)).ModifiersOk := by
  refine ⟨fun m => ?_, ?_, ?_⟩
  · have hdistinct := m.left_ne_right
    rw [h.bit_release]
    show _ ↔ Function.update s.held k false m.left = true ∨
      Function.update s.held k false m.right = true
    rw [Function.update_apply, Function.update_apply]
    by_cases hl : m.left = k
    · have hother : ¬ s.held m.right = true := fun hr => hsafe ⟨m, Or.inl ⟨hl.symm, hr⟩⟩
      have hr : m.right ≠ k := fun hc => hdistinct (hl.trans hc.symm)
      simp [hl, hr, hother]
    · by_cases hr : m.right = k
      · have hother : ¬ s.held m.left = true := fun hc => hsafe ⟨m, Or.inr ⟨hr.symm, hc⟩⟩
        simp [hl, hr, hother]
      · simp [hl, hr, Ne.symm hl, Ne.symm hr]
  · have hcaps := h.capslock
    have hbit : e0esc.getLsbD 3 = false := rfl
    rw [capslock_iff] at hcaps ⊢
    rw [h.getLsbD_release k (by decide), (shiftcode_high _).1, hbit, Bool.or_false, Bool.not_false,
      Bool.and_true, hcaps]
    rfl
  · have hbit : e0esc.getLsbD 6 = true := rfl
    rw [e0esc_iff, h.getLsbD_release k (by decide), hbit, Bool.or_true, Bool.not_true,
      Bool.and_false]

theorem ModifiersOk.step (h : s.ModifiersOk) (hsafe : ¬ s.Overlaps e) : (s.step e).ModifiersOk := by
  cases e with
  | press k => exact h.press k
  | release k => exact h.release hsafe

/-- One key of a modifier is held, and its bit is clear. -/
theorem ModifiersOk.not_modifiersOk_of_overlaps (h : s.ModifiersOk) (hover : s.Overlaps e) :
    ¬ (s.step e).ModifiersOk := by
  intro hok
  cases e with
  | press k => exact hover
  | release k =>
    obtain ⟨m, hm⟩ := hover
    have hdistinct := m.left_ne_right
    have hheld := hok.held m
    rw [h.bit_release] at hheld
    rcases hm with ⟨rfl, hr⟩ | ⟨rfl, hl⟩
    · exact (hheld.mpr (Or.inr ((Function.update_of_ne hdistinct.symm ..).trans hr))).2 (Or.inl rfl)
    · exact (hheld.mpr (Or.inl ((Function.update_of_ne hdistinct ..).trans hl))).2 (Or.inr rfl)

end KeyRun

/-- **The modifiers follow the keys** in every state of a run exactly when no key of a modifier is
released while the other one is held. -/
theorem modifiers_iff_no_overlap (events : List KeyEvent) (s : KeyRun) :
    (∀ u, Passed KeyStep .boot events s u → u.ModifiersOk) ↔
      ∀ u e v, PassedStep KeyStep .boot events s u e v → ¬ u.Overlaps e := by
  refine Run.good_iff_safe (fun _ h => h) ?_ ?_ KeyRun.modifiersOk_boot
  · rintro u e v h rfl hsafe
    exact h.step hsafe
  · rintro u e v h rfl hsafe
    exact h.not_modifiersOk_of_overlaps (not_not.mp hsafe)

/-- Both shift keys are pressed, and the left one is released. -/
theorem not_modifiersOk : ∃ s, Run KeyStep .boot
    ([] ++ [.press .leftShift] ++ [.press .rightShift] ++ [.release .leftShift]) s ∧
      ¬ s.ModifiersOk := by
  refine ⟨_, .snoc (.snoc (.snoc (.nil _) rfl) rfl) rfl, ?_⟩
  refine ((KeyRun.modifiersOk_boot.press _).press _).not_modifiersOk_of_overlaps ?_
  exact ⟨.shift, Or.inl ⟨rfl, rfl⟩⟩

end PiggyOS
