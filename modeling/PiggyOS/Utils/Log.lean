import PiggyOS.Utils.Printf

/-!
# The log (`display.c`)

`klog` puts a label in the color of its status in front of the text. The console is told the color;
on the serial line an escape sequence stands in its place. A terminal at the other end that
understands these sequences shows what the console shows.

* `klog` — one call, and `runCalls` — calls one after another
* `VgaOp.ansi`, `readAnsi` — the escape sequences and how they are read
* `serial_shows_screen` — the console is the terminal that reads the serial line
-/

namespace PiggyOS

open Infra

/-! ## The calls -/

/-- `enum status` -/
inductive LogStatus
  | logOk
  | logErr
  | logWarn
  deriving DecidableEq

namespace LogStatus

/-- The status that a number stands for. -/
def ofNumber (status : U32) : Option LogStatus :=
  if status = 0 then some logOk
  else if status = 1 then some logErr
  else if status = 2 then some logWarn
  else none

/-- `OK`, `ERROR` or `WARNING` -/
def word : LogStatus → List (BitVec 8)
  | logOk => [0x4f, 0x4b]
  | logErr => [0x45, 0x52, 0x52, 0x4f, 0x52]
  | logWarn => [0x57, 0x41, 0x52, 0x4e, 0x49, 0x4e, 0x47]

def color : LogStatus → VgaColor
  | logOk => .lightGreen
  | logErr => .lightRed
  | logWarn => .yellow

/-- The word between the escape sequences `\033[92m`, `\033[91m` or `\033[93m`, and `\033[0m`. -/
def colored : LogStatus → List (BitVec 8)
  | logOk => [0x1b, 0x5b, 0x39, 0x32, 0x6d] ++ word logOk ++ [0x1b, 0x5b, 0x30, 0x6d]
  | logErr => [0x1b, 0x5b, 0x39, 0x31, 0x6d] ++ word logErr ++ [0x1b, 0x5b, 0x30, 0x6d]
  | logWarn => [0x1b, 0x5b, 0x39, 0x33, 0x6d] ++ word logWarn ++ [0x1b, 0x5b, 0x30, 0x6d]

/-- `"[ "` -/
def opening : List (BitVec 8) := [0x5b, 0x20]

/-- `" ] "` -/
def closing : List (BitVec 8) := [0x20, 0x5d, 0x20]

end LogStatus

/-- The case of `klog` for the status. -/
def Output.label (textmode : Bool) (status : LogStatus) (o : Output) : Output where
  vga :=
    if textmode then
      let s := LogStatus.opening.foldl Vga.putc o.vga
      let s := s.setColor status.color .black
      let s := status.word.foldl Vga.putc s
      let s := s.setColor .white .black
      LogStatus.closing.foldl Vga.putc s
    else o.vga
  serial := o.serial ++ LogStatus.opening ++ status.colored ++ LogStatus.closing

/-- `klog`, with the arguments behind the format from `ap` on. -/
def klog (mem : Mem) (textmode : Bool) (status str ap : U32) (d : Display) :
    Option (Nat × Display) :=
  if str = 0 then some (0, d)
  else
    match LogStatus.ofNumber status with
    | none => some (0, d)
    | some status => do
      let d ← kprintfVaList mem textmode (charsAt mem str) ap
        { d with toOutput := d.label textmode status }
      return (1, d)

/-- A call, with the memory it finds. -/
inductive LogCall
  | kprintf (mem : Mem) (str ap : U32)
  | klog (mem : Mem) (status str ap : U32)

def LogCall.exec (textmode : Bool) (d : Display) : LogCall → Option Display
  | kprintf mem str ap => (PiggyOS.kprintf mem textmode str ap d).map (·.2)
  | klog mem status str ap => (PiggyOS.klog mem textmode status str ap d).map (·.2)

/-- Calls one after another. -/
def runCalls (textmode : Bool) : List LogCall → Display → Option Display
  | [], d => some d
  | call :: calls, d => (call.exec textmode d).bind (runCalls textmode calls)

/-! ## What the calls mean -/

/-- Characters for the console. -/
def putcs (cs : List (BitVec 8)) : List VgaOp := cs.map .putc

/-- A label. -/
def LogStatus.ops (status : LogStatus) : List VgaOp :=
  putcs opening ++ [.setColor status.color .black] ++ putcs status.word ++
    [.setColor .white .black] ++ putcs closing

/-- What a call tells the console. -/
def LogCall.ops : LogCall → Option (List VgaOp)
  | kprintf mem str ap => if str = 0 then some [] else (formatted mem str ap).map putcs
  | klog mem status str ap =>
    if str = 0 then some []
    else
      match LogStatus.ofNumber status with
      | none => some []
      | some status => (formatted mem str ap).map fun cs => status.ops ++ putcs cs

/-- What calls tell the console one after another. -/
def callsOps : List LogCall → Option (List VgaOp)
  | [] => some []
  | call :: calls => call.ops.bind fun ops => (callsOps calls).map (ops ++ ·)

/-- The escape sequence for a color, where there is one. -/
def VgaColor.escape : VgaColor → List (BitVec 8)
  | lightRed => [0x1b, 0x5b, 0x39, 0x31, 0x6d]
  | lightGreen => [0x1b, 0x5b, 0x39, 0x32, 0x6d]
  | yellow => [0x1b, 0x5b, 0x39, 0x33, 0x6d]
  | white => [0x1b, 0x5b, 0x30, 0x6d]
  | _ => []

/-- The colors that have an escape sequence. -/
def escapeColors : List VgaColor := [.lightRed, .lightGreen, .yellow, .white]

/-- What stands on the serial line for what the console is told. -/
def VgaOp.ansi : VgaOp → List (BitVec 8)
  | putc c => [c]
  | setColor fg _ => fg.escape

/-- The color whose escape sequence comes next. -/
def nextEscape (bs : List (BitVec 8)) : Option VgaColor :=
  escapeColors.find? fun color => color.escape.isPrefixOf bs

/-- Reads the escape sequences; the next `skip` bytes belong to one that has been read. -/
def readAnsiFrom : Nat → List (BitVec 8) → List VgaOp
  | _, [] => []
  | skip + 1, _ :: bs => readAnsiFrom skip bs
  | 0, b :: bs =>
    match nextEscape (b :: bs) with
    | some color => .setColor color .black :: readAnsiFrom (color.escape.length - 1) bs
    | none => .putc b :: readAnsiFrom 0 bs

def readAnsi : List (BitVec 8) → List VgaOp := readAnsiFrom 0

/-- The output after what the console has been told. -/
def Output.run (textmode : Bool) (o : Output) (ops : List VgaOp) : Output :=
  ⟨if textmode then ops.foldl Vga.exec o.vga else o.vga, o.serial ++ ops.flatMap VgaOp.ansi⟩

section

variable {mem : Mem} {textmode : Bool} {status : LogStatus} {call : LogCall} {calls : List LogCall}
  {o : Output} {d : Display} {ops ops' : List VgaOp} {cs bs : List (BitVec 8)} {b : BitVec 8}
  {color : VgaColor}

/-! ## One call -/

@[simp] theorem run_nil : o.run textmode [] = o := by
  cases textmode <;> simp [Output.run]

@[simp] theorem run_run :
    (o.run textmode ops).run textmode ops' = o.run textmode (ops ++ ops') := by
  cases textmode <;> simp [Output.run]

theorem foldl_putcs (s : Vga) : (putcs cs).foldl Vga.exec s = cs.foldl Vga.putc s :=
  List.foldl_map

@[simp] theorem flatMap_ansi_putcs : (putcs cs).flatMap VgaOp.ansi = cs := by
  simp [putcs, VgaOp.ansi, List.flatMap_map]

theorem run_putcs : o.run textmode (putcs cs) = o.emit textmode cs := by
  rw [Output.run, Output.emit, foldl_putcs, flatMap_ansi_putcs]

theorem run_ops : o.run textmode status.ops = o.label textmode status := by
  have hserial : status.ops.flatMap VgaOp.ansi =
      LogStatus.opening ++ status.colored ++ LogStatus.closing := by
    cases status <;> rfl
  rw [Output.run, Output.label, hserial]
  simp only [LogStatus.ops, List.foldl_append, foldl_putcs, List.append_assoc]
  rfl

/-- The value that is returned beside the output does not matter. -/
theorem map_snd_return {r : Option Display} :
    (do let d ← r; return (1, d) : Option (Nat × Display)).map (·.2) = r := by
  cases r <;> rfl

theorem exec_eq (textmode : Bool) (call : LogCall) (d : Display) :
    (call.exec textmode d).map (·.toOutput) = call.ops.map (d.run textmode) := by
  cases call with
  | kprintf mem str ap =>
    rw [LogCall.exec, LogCall.ops, kprintf]
    split
    · simp
    · rw [map_snd_return, kprintfVaList_eq, Option.map_map]
      exact congrArg (Option.map · _) (funext fun cs => run_putcs.symm)
  | klog mem status str ap =>
    rw [LogCall.exec, LogCall.ops, klog]
    split
    · simp
    · cases LogStatus.ofNumber status with
      | none => simp
      | some status =>
        rw [map_snd_return, kprintfVaList_eq, Option.map_map]
        refine congrArg (Option.map · _) (funext fun cs => ?_)
        rw [← run_putcs, ← run_ops, run_run]
        rfl

/-- Calls one after another tell the console what each of them tells it; the serial line carries the
same with the escape sequences. -/
theorem runCalls_eq (textmode : Bool) (calls : List LogCall) (d : Display) :
    (runCalls textmode calls d).map (·.toOutput) = (callsOps calls).map (d.run textmode) := by
  induction calls generalizing d with
  | nil => simp [runCalls, callsOps]
  | cons call calls ih =>
    have hcall := exec_eq textmode call d
    rw [runCalls, callsOps]
    cases hd : call.exec textmode d with
    | none =>
      rw [hd] at hcall
      rw [Option.map_eq_none_iff.mp hcall.symm]
      rfl
    | some d' =>
      rw [hd] at hcall
      obtain ⟨ops, hops, hout⟩ := Option.map_eq_some_iff.mp hcall.symm
      have hout' : d'.toOutput = d.run textmode ops := hout.symm
      rw [hops, Option.bind_some, Option.bind_some, ih, Option.map_map, hout']
      exact congrArg (Option.map · _) (funext fun ops' => run_run)

/-! ## Reading the serial line -/

theorem nextEscape_escape (bs : List (BitVec 8)) (hcolor : color ∈ escapeColors) :
    nextEscape (color.escape ++ bs) = some color := by
  simp only [escapeColors, List.mem_cons, List.not_mem_nil, or_false] at hcolor
  obtain rfl | rfl | rfl | rfl := hcolor <;> rfl

theorem nextEscape_of_ne (hb : b ≠ 0x1b) : nextEscape (b :: bs) = none := by
  rw [nextEscape, List.find?_eq_none]
  intro color hcolor
  simp only [escapeColors, List.mem_cons, List.not_mem_nil, or_false] at hcolor
  have hne : ∀ es : List (BitVec 8), ¬ (0x1b :: es).isPrefixOf (b :: bs) := by
    intro es hpre
    exact hb (List.cons_prefix_cons.mp (List.isPrefixOf_iff_prefix.mp hpre)).1.symm
  obtain rfl | rfl | rfl | rfl := hcolor <;> exact hne _

theorem readAnsiFrom_skip : readAnsiFrom bs.length (bs ++ cs) = readAnsi cs := by
  induction bs with
  | nil => rfl
  | cons b bs ih => exact ih

theorem readAnsi_escape (hcolor : color ∈ escapeColors) :
    readAnsi (color.escape ++ bs) = .setColor color .black :: readAnsi bs := by
  have hnext := nextEscape_escape bs hcolor
  obtain ⟨e, es, hes⟩ : ∃ e es, color.escape = e :: es := by
    simp only [escapeColors, List.mem_cons, List.not_mem_nil, or_false] at hcolor
    obtain rfl | rfl | rfl | rfl := hcolor <;> exact ⟨_, _, rfl⟩
  rw [hes] at hnext ⊢
  rw [readAnsi, List.cons_append, readAnsiFrom]
  rw [List.cons_append] at hnext
  rw [hnext]
  show _ :: readAnsiFrom (color.escape.length - 1) (es ++ bs) = _
  rw [hes]
  exact congrArg (_ :: ·) readAnsiFrom_skip

/-- What the escape sequences can carry. -/
def VgaOp.Plain : VgaOp → Prop
  | putc c => c ≠ 0x1b
  | setColor fg bg => fg ∈ escapeColors ∧ bg = .black

/-- The serial line is read back. -/
theorem readAnsi_flatMap (hops : ∀ op ∈ ops, op.Plain) :
    readAnsi (ops.flatMap VgaOp.ansi) = ops := by
  induction ops with
  | nil => rfl
  | cons op ops ih =>
    obtain ⟨hop, hrest⟩ := List.forall_mem_cons.mp hops
    rw [List.flatMap_cons]
    cases op with
    | putc c =>
      show readAnsiFrom 0 (c :: _) = _
      rw [readAnsiFrom, nextEscape_of_ne hop]
      exact congrArg (_ :: ·) (ih hrest)
    | setColor fg bg =>
      obtain ⟨hfg, rfl⟩ := hop
      rw [VgaOp.ansi, readAnsi_escape hfg, ih hrest]

theorem plain_label : ∀ op ∈ status.ops, op.Plain := by
  cases status <;>
    simp [LogStatus.ops, putcs, LogStatus.opening, LogStatus.closing, LogStatus.word,
      LogStatus.color, VgaOp.Plain, escapeColors]

theorem plain_putcs (hcs : 0x1b ∉ cs) : ∀ op ∈ putcs cs, op.Plain := by
  simp only [putcs, List.mem_map, forall_exists_index, and_imp, forall_apply_eq_imp_iff₂]
  exact fun c hc h0 => hcs (h0 ▸ hc)

/-- The text of the call has no escape characters. -/
def LogCall.Plain : LogCall → Prop
  | kprintf mem str ap => ∀ cs, formatted mem str ap = some cs → 0x1b ∉ cs
  | klog mem _ str ap => ∀ cs, formatted mem str ap = some cs → 0x1b ∉ cs

theorem LogCall.Plain.plain_ops (h : call.Plain) (hops : call.ops = some ops) :
    ∀ op ∈ ops, op.Plain := by
  cases call with
  | kprintf mem str ap =>
    rw [LogCall.ops] at hops
    split at hops
    · cases hops
      exact fun op hop => absurd hop List.not_mem_nil
    · obtain ⟨cs, hcs, rfl⟩ := Option.map_eq_some_iff.mp hops
      exact plain_putcs (h cs hcs)
  | klog mem number str ap =>
    rw [LogCall.ops] at hops
    split at hops
    · cases hops
      exact fun op hop => absurd hop List.not_mem_nil
    · cases hstatus : LogStatus.ofNumber number with
      | none =>
        rw [hstatus] at hops
        cases hops
        exact fun op hop => absurd hop List.not_mem_nil
      | some status =>
        rw [hstatus] at hops
        obtain ⟨cs, hcs, rfl⟩ := Option.map_eq_some_iff.mp hops
        exact List.forall_mem_append.mpr ⟨plain_label, plain_putcs (h cs hcs)⟩

theorem plain_callsOps (h : ∀ call ∈ calls, call.Plain) (hops : callsOps calls = some ops) :
    ∀ op ∈ ops, op.Plain := by
  induction calls generalizing ops with
  | nil =>
    cases hops
    exact fun op hop => absurd hop List.not_mem_nil
  | cons call calls ih =>
    obtain ⟨hcall, hrest⟩ := List.forall_mem_cons.mp h
    rw [callsOps] at hops
    obtain ⟨ops₁, h₁, hmap⟩ := Option.bind_eq_some_iff.mp hops
    obtain ⟨ops₂, h₂, rfl⟩ := Option.map_eq_some_iff.mp hmap
    exact List.forall_mem_append.mpr ⟨hcall.plain_ops h₁, ih hrest h₂⟩

end

/-- After any calls of `kprintf` and `klog`, the screen shows what a terminal shows that has read
the serial line, as long as no text that has been printed contains an escape character. -/
theorem serial_shows_screen {calls : List LogCall} {m : Mem} {color : BitVec 16}
    {tbuf : Int → BitVec 8} {d : Display}
    (h : runCalls true calls ⟨⟨.start m color, []⟩, tbuf⟩ = some d)
    (hplain : ∀ call ∈ calls, call.Plain) :
    Displays d.vga ((readAnsi d.serial).foldl Terminal.exec (.start color)) := by
  have hrun := runCalls_eq true calls ⟨⟨.start m color, []⟩, tbuf⟩
  rw [h] at hrun
  obtain ⟨ops, hops, hout⟩ := Option.map_eq_some_iff.mp hrun.symm
  obtain ⟨hvga, hserial⟩ := Output.mk.inj hout
  rw [List.nil_append] at hserial
  rw [← hvga, ← hserial, readAnsi_flatMap (plain_callsOps hplain hops), if_pos rfl]
  exact displays_foldl (displays_start m color) ops

/-- A warning with the format `%c` and the argument `A`. -/
theorem serial_shows_screen_warning :
    let mem : Mem := fun a =>
      if a = 1 then 0x25 else if a = 2 then 0x63 else if a = 8 then 0x41 else 0
    ∃ d, runCalls true [.klog mem 2 1 8] ⟨⟨.start mem 0x0f00, []⟩, fun _ => 0⟩ = some d ∧
      Displays d.vga ((readAnsi d.serial).foldl Terminal.exec (.start 0x0f00)) := by
  intro mem
  have hfmt : IsString (charsAt mem 1) [0x25, 0x63] := {
    chars := fun i hi => by
      have : i = 0 ∨ i = 1 := by simp at hi; omega
      rcases this with rfl | rfl <;> rfl
    nul := rfl
    ne_nul := by decide
    fits := by decide }
  have htext : formatted mem 1 8 = some [0x41] := by
    rw [formatted, cString_eq hfmt]
    decide
  have hops : callsOps [.klog mem 2 1 8] = some (LogStatus.logWarn.ops ++ putcs [0x41] ++ []) := by
    have hstatus : LogStatus.ofNumber 2 = some .logWarn := by decide
    rw [callsOps, LogCall.ops, if_neg (by decide), hstatus, htext]
    rfl
  have hrun := runCalls_eq true [.klog mem 2 1 8] ⟨⟨.start mem 0x0f00, []⟩, fun _ => 0⟩
  rw [hops] at hrun
  obtain ⟨d, hd, -⟩ := Option.map_eq_some_iff.mp hrun
  have hplain : LogCall.Plain (.klog mem 2 1 8) := by
    intro cs hcs
    rw [htext] at hcs
    cases hcs
    decide
  exact ⟨d, hd, serial_shows_screen hd (List.forall_mem_singleton.mpr hplain)⟩

end PiggyOS
