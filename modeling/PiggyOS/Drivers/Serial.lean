import PiggyOS.Infra.Cyclic
import PiggyOS.Infra.Run

/-!
# The receive queue of the serial port (`serial.c`)

The bytes that the interrupt handler reads from COM1 wait in a ring of `READ_QUEUE_SIZE` cells for
`serial_getc`. The ring is described by the two indices `queue_front` and `queue_rear`, both `-1`
when it is empty. The handler takes the ring for full only when it is full and starts at cell 0.
-/

namespace PiggyOS

open Infra

/-- `READ_QUEUE_SIZE` -/
def readQueueSize : Nat := 1024

/-- The variables of `serial.c`. -/
structure Serial where
  readQueue : Nat → BitVec 8
  queueFront : Int
  queueRear : Int

namespace Serial

variable (s : Serial)

/-- The static variables at boot. -/
def boot : Serial := ⟨fun _ => 0, -1, -1⟩

/-- `serial_getc` -/
def serialGetc : Serial × BitVec 8 :=
  if s.queueFront = -1 then (s, 0)
  else
    let c := s.readQueue s.queueFront.toNat
    if s.queueFront = s.queueRear then ({ s with queueFront := -1, queueRear := -1 }, c)
    else ({ s with queueFront := (s.queueFront + 1) % readQueueSize }, c)

/-- `serial_irq_handler`; `isr` is what the port answers at `PORT_COM1 + 2`, and `d` the byte that
is ready in it. A handler that takes the queue for full leaves the byte in the port. -/
def serialIrqHandler (isr d : BitVec 8) : Serial :=
  if isr &&& 4#8 = 0#8 then s
  else if s.queueFront = 0 ∧ s.queueRear = readQueueSize - 1 then s
  else
    let s := if s.queueFront = -1 then { s with queueFront := 0 } else s
    let s := { s with queueRear := (s.queueRear + 1) % readQueueSize }
    { s with readQueue := Function.update s.readQueue s.queueRear.toNat d }

/-- What at most `n` calls of `serial_getc` read from the queue before it is empty. -/
def drain : Nat → Serial → List (BitVec 8)
  | 0, _ => []
  | n + 1, s => if s.queueFront = -1 then [] else s.serialGetc.2 :: drain n s.serialGetc.1

/-- The bytes in the queue. -/
def queued : List (BitVec 8) := s.drain readQueueSize

end Serial

/-! ## Runs of the driver -/

/-- The driver in a run. The last two fields are bookkeeping: the bytes that arrived while fewer
than `READ_QUEUE_SIZE` bytes were waiting, and those that `serial_getc` returned while a byte was
waiting, both in order. -/
structure SerialRun where
  serial : Serial
  accepted : List (BitVec 8)
  taken : List (BitVec 8)

inductive SerialOp
  | irq (isr d : BitVec 8)
  | getc

namespace SerialRun

variable (s : SerialRun)

def boot : SerialRun := ⟨.boot, [], []⟩

/-- How many of the accepted bytes have not been returned yet. -/
def waiting : Nat := s.accepted.length - s.taken.length

/-- The port has a byte to read and there is room for it. -/
def accepts (isr : BitVec 8) : Bool := isr &&& 4#8 ≠ 0#8 && s.waiting < readQueueSize

def step : SerialOp → SerialRun
  | .irq isr d =>
    { s with
      serial := s.serial.serialIrqHandler isr d
      accepted := if s.accepts isr then s.accepted ++ [d] else s.accepted }
  | .getc =>
    { s with
      serial := s.serial.serialGetc.1
      taken := if s.waiting = 0 then s.taken else s.taken ++ [s.serial.serialGetc.2] }

/-- A byte arrives while the ring is full and does not start at cell 0. -/
def Overruns : SerialOp → Prop
  | .irq isr _ => isr &&& 4#8 ≠ 0#8 ∧ 0 < s.serial.queueFront ∧
      (s.serial.queueRear + 1) % readQueueSize = s.serial.queueFront
  | .getc => False

/-- The driver is a bounded queue: what was accepted has been returned, in this order, or is in the
queue, and `serial_getc` returns 0 and leaves all as it is when no byte is waiting, and only
then. -/
structure FifoOk : Prop where
  conserved : s.taken ++ s.serial.queued = s.accepted
  empty_iff : s.serial.serialGetc = (s.serial, 0) ↔ s.waiting = 0

end SerialRun

def SerialStep (s : SerialRun) (op : SerialOp) (t : SerialRun) : Prop := t = s.step op

namespace Serial

/-- The queue holds the `n + 1` cells from `front` on. -/
structure Window (s : Serial) (front n : Nat) : Prop where
  front_lt : front < readQueueSize
  fits : n < readQueueSize
  queueFront : s.queueFront = front
  queueRear : s.queueRear = ((front + n) % readQueueSize : Nat)

/-- The queue holds the bytes `bs`. -/
inductive Holds (s : Serial) : List (BitVec 8) → Prop
  | empty : s.queueFront = -1 → s.queueRear = -1 → Holds s []
  | window {front n : Nat} : s.Window front n →
      Holds s (cyclic readQueueSize s.readQueue front (n + 1))

variable {s : Serial} {front n : Nat} {bs : List (BitVec 8)}

theorem Window.queueFront_ne (h : s.Window front n) : s.queueFront ≠ -1 := by
  rw [h.queueFront]
  omega

theorem Window.front_eq_rear_iff (h : s.Window front n) : s.queueFront = s.queueRear ↔ n = 0 := by
  have hf := h.front_lt
  have hn := h.fits
  rw [h.queueFront, h.queueRear, Int.ofNat_inj]
  unfold readQueueSize at *
  omega

/-- The only byte of a queue is taken. -/
theorem Window.serialGetc_last (h : s.Window front 0) :
    s.serialGetc = ({ s with queueFront := -1, queueRear := -1 }, s.readQueue front) := by
  rw [serialGetc, if_neg h.queueFront_ne]
  simp only [h.front_eq_rear_iff.mpr rfl, if_true]
  rw [← h.front_eq_rear_iff.mpr rfl, h.queueFront, Int.toNat_natCast]

/-- The first of several bytes is taken. -/
theorem Window.serialGetc_more (h : s.Window front (n + 1)) :
    s.serialGetc = ({ s with queueFront := ((front + 1) % readQueueSize : Nat) },
      s.readQueue front) := by
  have hne : s.queueFront ≠ s.queueRear := mt h.front_eq_rear_iff.mp (Nat.succ_ne_zero n)
  rw [serialGetc, if_neg h.queueFront_ne]
  simp only [hne, if_false]
  rw [h.queueFront, Int.toNat_natCast]
  rfl

theorem Window.rest (h : s.Window front (n + 1)) :
    Window { s with queueFront := ((front + 1) % readQueueSize : Nat) }
      ((front + 1) % readQueueSize) n where
  front_lt := Nat.mod_lt _ (by decide)
  fits := by have := h.fits; omega
  queueFront := rfl
  queueRear := by
    show s.queueRear = _
    rw [h.queueRear, Nat.mod_add_mod, Nat.add_right_comm, Nat.add_assoc]

/-- One call of `serial_getc` takes the first byte of the queue. -/
theorem Holds.getc {b : BitVec 8} (h : s.Holds (b :: bs)) :
    s.serialGetc.2 = b ∧ s.serialGetc.1.Holds bs ∧ s.serialGetc.1 ≠ s ∧ s.queueFront ≠ -1 := by
  generalize hbs : b :: bs = cs at h
  cases h with
  | empty => cases hbs
  | @window front n hw =>
    rw [cyclic_cons, Nat.mod_eq_of_lt hw.front_lt] at hbs
    obtain ⟨rfl, rfl⟩ := List.cons.inj hbs
    cases n with
    | zero =>
      rw [hw.serialGetc_last]
      refine ⟨rfl, .empty rfl rfl, fun heq => ?_, hw.queueFront_ne⟩
      exact hw.queueFront_ne (congrArg Serial.queueFront heq).symm
    | succ n =>
      rw [hw.serialGetc_more]
      refine ⟨rfl, .window hw.rest, fun heq => ?_, hw.queueFront_ne⟩
      have hfront : (((front + 1) % readQueueSize : Nat) : Int) = front :=
        (congrArg Serial.queueFront heq).trans hw.queueFront
      have hlt := hw.front_lt
      rw [Int.ofNat_inj] at hfront
      unfold readQueueSize at *
      omega

theorem Holds.front_of_nil (h : s.Holds []) : s.queueFront = -1 ∧ s.queueRear = -1 := by
  generalize hbs : ([] : List (BitVec 8)) = cs at h
  cases h with
  | empty hf hr => exact ⟨hf, hr⟩
  | window _ =>
    have := congrArg List.length hbs
    simp at this

theorem Holds.getc_nil (h : s.Holds []) : s.serialGetc = (s, 0) := if_pos h.front_of_nil.1

theorem Holds.length_le (h : s.Holds bs) : bs.length ≤ readQueueSize := by
  cases h with
  | empty => exact Nat.zero_le _
  | window hw =>
    rw [length_cyclic]
    exact hw.fits

/-- Reading the queue out gives what it holds. -/
theorem Holds.drain (h : s.Holds bs) {k : Nat} (hk : bs.length ≤ k) : s.drain k = bs := by
  induction bs generalizing s k with
  | nil =>
    cases k with
    | zero => rfl
    | succ k => exact if_pos h.front_of_nil.1
  | cons b bs ih =>
    cases k with
    | zero => simp at hk
    | succ k =>
      obtain ⟨hb, hrest, -, hne⟩ := h.getc
      rw [Serial.drain, if_neg hne, hb, ih hrest (by simpa using hk)]

theorem Holds.queued (h : s.Holds bs) : s.queued = bs := h.drain h.length_le

theorem holds_boot : boot.Holds [] := .empty rfl rfl

/-- The first byte of an empty queue. -/
theorem Holds.irq_nil (h : s.Holds []) {isr : BitVec 8} (hready : isr &&& 4#8 ≠ 0#8)
    (d : BitVec 8) : (s.serialIrqHandler isr d).Holds [d] := by
  obtain ⟨hf, hr⟩ := h.front_of_nil
  have hs' : s.serialIrqHandler isr d = ⟨Function.update s.readQueue 0 d, 0, 0⟩ := by
    rw [serialIrqHandler, if_neg hready, if_neg (by simp [hf])]
    simp [hf, hr, readQueueSize]
  have hw : (s.serialIrqHandler isr d).Window 0 0 := by
    rw [hs']
    exact ⟨by decide, by decide, rfl, rfl⟩
  have hd : cyclic readQueueSize (s.serialIrqHandler isr d).readQueue 0 (0 + 1) = [d] := by
    rw [cyclic_cons, cyclic_zero, hs']
    rfl
  exact hd ▸ Holds.window hw

/-- What the handler does with a byte that it takes. -/
theorem Window.serialIrqHandler (h : s.Window front n) {isr : BitVec 8}
    (hready : isr &&& 4#8 ≠ 0#8)
    (hfull : ¬ (s.queueFront = 0 ∧ s.queueRear = readQueueSize - 1)) (d : BitVec 8) :
    s.serialIrqHandler isr d =
      ⟨Function.update s.readQueue ((front + (n + 1)) % readQueueSize) d, front,
        ((front + (n + 1)) % readQueueSize : Nat)⟩ := by
  have hrear : (s.queueRear + 1) % readQueueSize = ((front + (n + 1)) % readQueueSize : Nat) := by
    rw [h.queueRear]
    unfold readQueueSize
    omega
  rw [Serial.serialIrqHandler, if_neg hready, if_neg hfull, if_neg h.queueFront_ne]
  dsimp only
  rw [hrear, Int.toNat_natCast, h.queueFront]

theorem Window.not_full (h : s.Window front n) (hn : n + 1 < readQueueSize) :
    ¬ (s.queueFront = 0 ∧ s.queueRear = readQueueSize - 1) := by
  rw [h.queueFront, h.queueRear]
  unfold readQueueSize at *
  omega

/-- A byte for which there is room is put at the end of the queue. -/
theorem Holds.irq (h : s.Holds bs) {isr : BitVec 8} (hready : isr &&& 4#8 ≠ 0#8)
    (hroom : bs.length < readQueueSize) (d : BitVec 8) :
    (s.serialIrqHandler isr d).Holds (bs ++ [d]) := by
  cases h with
  | empty hf hr => exact (Holds.empty hf hr).irq_nil hready d
  | @window front n hw =>
    rw [length_cyclic] at hroom
    rw [hw.serialIrqHandler hready (hw.not_full hroom) d, ← cyclic_push hroom d]
    exact .window ⟨hw.front_lt, hroom, rfl, rfl⟩

/-- A full queue has its rear right behind its front. -/
theorem Holds.rear_of_full (h : s.Holds bs) (hfull : bs.length = readQueueSize) :
    ∃ front n, s.Window front n ∧ n + 1 = readQueueSize ∧
      (s.queueRear + 1) % readQueueSize = s.queueFront := by
  cases h with
  | empty => cases hfull
  | @window front n hw =>
    rw [length_cyclic] at hfull
    have hlt := hw.front_lt
    refine ⟨front, n, hw, hfull, ?_⟩
    rw [hw.queueRear, hw.queueFront]
    unfold readQueueSize at *
    omega

/-- A full queue that starts at cell 0 drops the byte. -/
theorem Holds.irq_of_full (h : s.Holds bs) (hfull : bs.length = readQueueSize)
    (hfront : ¬ 0 < s.queueFront) (isr d : BitVec 8) : s.serialIrqHandler isr d = s := by
  obtain ⟨front, n, hw, hn, hrear⟩ := h.rear_of_full hfull
  have hfront0 : s.queueFront = 0 := by
    have := hw.queueFront
    omega
  have hrear0 : s.queueRear = readQueueSize - 1 := by
    have := hw.queueRear
    unfold readQueueSize at *
    omega
  unfold Serial.serialIrqHandler
  split
  · rfl
  · exact if_pos ⟨hfront0, hrear0⟩

/-- A full queue that starts elsewhere is overwritten: only the new byte is left. -/
theorem Holds.irq_of_overrun (h : s.Holds bs) (hfull : bs.length = readQueueSize)
    (hfront : 0 < s.queueFront) {isr : BitVec 8} (hready : isr &&& 4#8 ≠ 0#8) (d : BitVec 8) :
    (s.serialIrqHandler isr d).Holds [d] := by
  obtain ⟨front, n, hw, hn, -⟩ := h.rear_of_full hfull
  have hwrap : (front + (n + 1)) % readQueueSize = front := by
    rw [hn, Nat.add_mod_right, Nat.mod_eq_of_lt hw.front_lt]
  have hs' := hw.serialIrqHandler hready (fun hc => absurd hc.1 (by omega)) d
  rw [hwrap] at hs'
  have hw' : (s.serialIrqHandler isr d).Window front 0 := by
    rw [hs']
    refine ⟨hw.front_lt, by decide, rfl, ?_⟩
    rw [Nat.add_zero, Nat.mod_eq_of_lt hw.front_lt]
  have hd : cyclic readQueueSize (s.serialIrqHandler isr d).readQueue front (0 + 1) = [d] := by
    rw [cyclic_cons, cyclic_zero, hs', Nat.mod_eq_of_lt hw.front_lt]
    exact congrArg (· :: []) (Function.update_self ..)
  exact hd ▸ Holds.window hw'

/-- The rear comes up to the front of a full queue only. -/
theorem Holds.full_of_rear (h : s.Holds bs) (hfront : 0 < s.queueFront)
    (hrear : (s.queueRear + 1) % readQueueSize = s.queueFront) : bs.length = readQueueSize := by
  cases h with
  | empty hf => omega
  | @window front n hw =>
    have hlt := hw.front_lt
    have hn := hw.fits
    rw [hw.queueRear, hw.queueFront] at hrear
    rw [length_cyclic]
    unfold readQueueSize at *
    omega

end Serial

namespace SerialRun

variable {s t : SerialRun} {op : SerialOp}

/-- The queue holds the accepted bytes that have not been returned. -/
def Inv (s : SerialRun) : Prop := ∃ bs, s.serial.Holds bs ∧ s.taken ++ bs = s.accepted

theorem inv_boot : boot.Inv := ⟨[], Serial.holds_boot, rfl⟩

theorem waiting_of_conserved {bs : List (BitVec 8)} (h : s.taken ++ bs = s.accepted) :
    s.waiting = bs.length := by
  rw [waiting, ← h, List.length_append, Nat.add_sub_cancel_left]

theorem Inv.fifoOk (h : s.Inv) : s.FifoOk := by
  obtain ⟨bs, hbs, hall⟩ := h
  refine ⟨hbs.queued.symm ▸ hall, ?_⟩
  rw [waiting_of_conserved hall]
  cases bs with
  | nil => exact ⟨fun _ => rfl, fun _ => hbs.getc_nil⟩
  | cons b bs =>
    obtain ⟨-, -, hne, -⟩ := hbs.getc
    exact ⟨fun heq => absurd (congrArg Prod.fst heq) hne, fun h0 => absurd h0 (by simp)⟩

theorem Inv.getc (h : s.Inv) : (s.step .getc).Inv := by
  obtain ⟨bs, hbs, hall⟩ := h
  have hwaiting := waiting_of_conserved hall
  unfold step Inv
  dsimp only
  cases bs with
  | nil =>
    refine ⟨[], ?_, ?_⟩
    · rw [hbs.getc_nil]
      exact hbs
    · rw [if_pos (by exact hwaiting)]
      exact hall
  | cons b bs =>
    obtain ⟨hb, hrest, -, -⟩ := hbs.getc
    refine ⟨bs, hrest, ?_⟩
    rw [if_neg (by simp [hwaiting]), hb, List.append_assoc]
    exact hall

theorem Inv.irq {isr d : BitVec 8} (h : s.Inv) (hsafe : ¬ s.Overruns (.irq isr d)) :
    (s.step (.irq isr d)).Inv := by
  obtain ⟨bs, hbs, hall⟩ := h
  have hwaiting := waiting_of_conserved hall
  unfold step Inv accepts
  dsimp only
  by_cases hready : isr &&& 4#8 = 0#8
  · refine ⟨bs, ?_, ?_⟩
    · rwa [Serial.serialIrqHandler, if_pos hready]
    · rw [if_neg (by simp [hready])]
      exact hall
  by_cases hroom : bs.length < readQueueSize
  · refine ⟨bs ++ [d], hbs.irq hready hroom d, ?_⟩
    rw [if_pos (by simp [hready, hwaiting, hroom]), ← List.append_assoc, hall]
  · have hfull : bs.length = readQueueSize := Nat.le_antisymm hbs.length_le (Nat.le_of_not_lt hroom)
    obtain ⟨_, _, _, _, hrear⟩ := hbs.rear_of_full hfull
    have hfront : ¬ 0 < s.serial.queueFront := fun hc => hsafe ⟨hready, hc, hrear⟩
    refine ⟨bs, ?_, ?_⟩
    · rwa [hbs.irq_of_full hfull hfront]
    · rw [if_neg (by simp [hwaiting, hroom])]
      exact hall

theorem Inv.step (h : s.Inv) (hsafe : ¬ s.Overruns op) : (s.step op).Inv := by
  cases op with
  | irq isr d => exact h.irq hsafe
  | getc => exact h.getc

/-- Of the bytes in the queue only the new one is left. -/
theorem Inv.not_fifoOk_of_overrun (h : s.Inv) (hover : s.Overruns op) : ¬ (s.step op).FifoOk := by
  intro hok
  cases op with
  | getc => exact hover
  | irq isr d =>
    obtain ⟨bs, hbs, hall⟩ := h
    obtain ⟨hready, hfront, hrear⟩ := hover
    have hfull := hbs.full_of_rear hfront hrear
    have hqueued := (hbs.irq_of_overrun hfull hfront hready d).queued
    have hconserved := congrArg List.length hok.conserved
    simp only [SerialRun.step, accepts, waiting_of_conserved hall, hfull, hqueued] at hconserved
    rw [if_neg (by simp), ← hall, List.length_append, List.length_append, hfull] at hconserved
    have := Nat.add_left_cancel hconserved
    exact absurd this (by simp [readQueueSize])

end SerialRun

/-- The serial driver behaves as a bounded queue in every state of a run exactly when no byte
arrives while the ring is full and starts at a cell other than 0. -/
theorem serial_fifo_iff_no_overrun (ops : List SerialOp) (s : SerialRun) :
    (∀ u, Passed SerialStep .boot ops s u → u.FifoOk) ↔
      ∀ u op v, PassedStep SerialStep .boot ops s u op v → ¬ u.Overruns op := by
  refine Run.good_iff_safe (fun _ h => SerialRun.Inv.fifoOk h) ?_ ?_ SerialRun.inv_boot
  · rintro u op v h rfl hsafe
    exact h.step hsafe
  · rintro u op v h rfl hsafe
    exact h.not_fifoOk_of_overrun (not_not.mp hsafe)

/-- The queue after `n + 1` bytes and no call of `serial_getc`. -/
theorem exists_filled (d : BitVec 8) {n : Nat} (hn : n < readQueueSize) :
    ∃ s, Run SerialStep .boot (List.replicate (n + 1) (.irq 4 d)) s ∧ s.Inv ∧
      s.serial.Window 0 n := by
  induction n with
  | zero =>
    refine ⟨_, .snoc (.nil _) rfl, SerialRun.inv_boot.step (fun h => ?_), ?_⟩
    · exact absurd h.2.1 (by decide)
    · exact ⟨by decide, by decide, rfl, rfl⟩
  | succ n ih =>
    obtain ⟨s, hrun, hinv, hw⟩ := ih (by omega)
    rw [List.replicate_succ']
    refine ⟨_, .snoc hrun rfl, hinv.step (fun h => ?_), ?_⟩
    · have hpos := h.2.1
      rw [hw.queueFront] at hpos
      omega
    · show (s.serial.serialIrqHandler 4 d).Window 0 (n + 1)
      rw [hw.serialIrqHandler (by decide) (hw.not_full hn)]
      exact ⟨hw.front_lt, hn, rfl, rfl⟩

/-- 1024 bytes arrive, one is read, and two more arrive. -/
theorem not_serial_fifo : ∃ s, Run SerialStep .boot
    (List.replicate 1024 (.irq 4 65) ++ [.getc] ++ [.irq 4 66] ++ [.irq 4 67]) s ∧ ¬ s.FifoOk := by
  obtain ⟨s, hrun, hinv, hw⟩ := exists_filled 65 (show 1023 < readQueueSize by decide)
  have hw₁ : (s.step .getc).serial.Window 1 1022 := by
    show s.serial.serialGetc.1.Window 1 1022
    rw [hw.serialGetc_more]
    exact hw.rest
  have hw₂ : ((s.step .getc).step (.irq 4 66)).serial.Window 1 1023 := by
    show ((s.step .getc).serial.serialIrqHandler 4 66).Window 1 1023
    rw [hw₁.serialIrqHandler (by decide) (hw₁.not_full (by decide))]
    exact ⟨by decide, by decide, rfl, rfl⟩
  have hinv₂ : ((s.step .getc).step (.irq 4 66)).Inv := by
    refine (hinv.step id).step fun h => ?_
    have hrear := h.2.2
    rw [hw₁.queueRear, hw₁.queueFront] at hrear
    exact absurd hrear (by decide)
  refine ⟨_, .snoc (.snoc (.snoc hrun rfl) rfl) rfl, hinv₂.not_fifoOk_of_overrun ?_⟩
  refine ⟨by decide, ?_, ?_⟩
  · rw [hw₂.queueFront]
    decide
  · rw [hw₂.queueRear, hw₂.queueFront]
    rfl

end PiggyOS
