import Mathlib.Data.Fintype.Basic
import Mathlib.Data.List.FinRange

/-!
# Two 8259A interrupt controllers in cascade

A request waits until the processor acknowledges it, and is in service from then on until a command
ends it. A line in service keeps itself and the lines after it from the processor. The output of
the second controller is a line of the first one.
-/

namespace PiggyOS.Infra

/-- What the data port expects next; `ready` is the mask. -/
inductive Icw
  | icw2
  | icw3
  | icw4
  | ready
  deriving DecidableEq

/-- A controller: the requests, the lines in service, the masked lines, and how it was
initialised. -/
structure Pic where
  irr : BitVec 8
  isr : BitVec 8
  imr : BitVec 8
  vector : BitVec 8
  cascade : BitVec 8
  autoEoi : Bool
  single : Bool
  needsIcw4 : Bool
  expects : Icw
  deriving DecidableEq

/-- The bit with the highest priority. -/
def lowest (b : BitVec 8) : Option Nat := (List.range 8).find? b.getLsbD

namespace Pic

variable (p : Pic)

/-- The end of the interrupt with the highest priority. -/
def endOfInterrupt : Pic :=
  { p with isr := (lowest p.isr).elim p.isr fun n => p.isr &&& ~~~BitVec.twoPow 8 n }

/-- A byte for the command port, which starts an initialisation or ends an interrupt; the other
commands are not defined. -/
def command (d : BitVec 8) : Option Pic :=
  if d.getLsbD 4 then
    some { p with
      irr := 0
      isr := 0
      imr := 0
      autoEoi := false
      single := d.getLsbD 1
      needsIcw4 := d.getLsbD 0
      expects := .icw2 }
  else if d = 0x20 then some p.endOfInterrupt
  else none

/-- What is expected when there is nothing more about the cascade to come. -/
def last : Icw := if p.needsIcw4 then .icw4 else .ready

/-- A byte for the data port. -/
def data (d : BitVec 8) : Pic :=
  match p.expects with
  | .icw2 => { p with vector := d &&& 0xF8, expects := if p.single then p.last else .icw3 }
  | .icw3 => { p with cascade := d, expects := p.last }
  | .icw4 => { p with autoEoi := d.getLsbD 1, expects := .ready }
  | .ready => { p with imr := d }

/-- The line that it offers to the processor. -/
def offered : Option Nat :=
  (lowest (p.irr &&& ~~~p.imr)).filter fun n => (List.range (n + 1)).all fun m => !p.isr.getLsbD m

/-- A request on line `n`. -/
def request (n : Nat) : Pic := { p with irr := p.irr ||| BitVec.twoPow 8 n }

/-- The request goes away before it is acknowledged. -/
def withdraw (n : Nat) : Pic := { p with irr := p.irr &&& ~~~BitVec.twoPow 8 n }

/-- The processor acknowledges line `n`. -/
def accept (n : Nat) : Pic :=
  { p.withdraw n with isr := if p.autoEoi then p.isr else p.isr ||| BitVec.twoPow 8 n }

end Pic

/-- The two controllers. -/
structure Pics where
  master : Pic
  slave : Pic
  deriving DecidableEq

namespace Pics

variable (s : Pics)

/-- The slave is connected to line 2, and what it offers is a request there. -/
def sync : Pics := if s.slave.offered.isSome then { s with master := s.master.request 2 } else s

/-- A byte for a port; the other ports belong to other devices. -/
def outb (port : BitVec 16) (d : BitVec 8) : Option Pics :=
  if port = 0x20 then (s.master.command d).map fun p => ({ s with master := p } : Pics).sync
  else if port = 0x21 then some ({ s with master := s.master.data d } : Pics).sync
  else if port = 0xa0 then (s.slave.command d).map fun p => ({ s with slave := p } : Pics).sync
  else if port = 0xa1 then some ({ s with slave := s.slave.data d } : Pics).sync
  else some s

/-- Bytes for ports, one after the other. -/
def outbs (ws : List (BitVec 16 × BitVec 8)) : Option Pics :=
  ws.foldlM (fun s w => s.outb w.1 w.2) s

/-- Lines 8 to 15 are those of the slave. -/
def pending (n : Nat) : Bool :=
  if n < 8 then s.master.irr.getLsbD n else s.slave.irr.getLsbD (n - 8)

def request (n : Nat) : Pics :=
  if n < 8 then ({ s with master := s.master.request n } : Pics).sync
  else ({ s with slave := s.slave.request (n - 8) } : Pics).sync

def withdraw (n : Nat) : Pics :=
  if n < 8 then ({ s with master := s.master.withdraw n } : Pics).sync
  else ({ s with slave := s.slave.withdraw (n - 8) } : Pics).sync

/-- The answer to an acknowledgement: the vector, and whether it belongs to a request. -/
structure Answer where
  vector : BitVec 8
  genuine : Bool
  pics : Pics
  deriving DecidableEq

/-- The processor acknowledges an interrupt. Where no request is left line 7 answers; for a line of
the cascade the slave answers, if the line is its own. -/
def acknowledge : Option Answer :=
  match s.master.offered with
  | none => some ⟨s.master.vector + 7, false, s⟩
  | some n =>
    if s.master.cascade.getLsbD n then
      if s.slave.cascade.toNat = n then
        match s.slave.offered with
        | none => some ⟨s.slave.vector + 7, false, sync ⟨s.master.accept n, s.slave⟩⟩
        | some m => some ⟨s.slave.vector + .ofNat 8 m, true,
            sync ⟨s.master.accept n, s.slave.accept m⟩⟩
      else none
    else some ⟨s.master.vector + .ofNat 8 n, true, sync ⟨s.master.accept n, s.slave⟩⟩

end Pics

/-! ## Bits -/

section Bits

variable {b : BitVec 8} {n : Nat}

theorem lowest_eq_some : lowest b = some n ↔
    b.getLsbD n = true ∧ n < 8 ∧ ∀ m < n, b.getLsbD m = false := by
  simp [lowest]

theorem lowest_eq_none : lowest b = none ↔ b = 0 := by
  constructor
  · intro h
    ext i hi
    rw [← BitVec.getLsbD_eq_getElem]
    simpa using List.find?_range_eq_none.mp h i hi
  · rintro rfl
    rfl

theorem lowest_twoPow (hn : n < 8) : lowest (BitVec.twoPow 8 n) = some n := by
  rw [lowest_eq_some]
  refine ⟨by simp [hn], hn, fun m hm => ?_⟩
  rw [BitVec.getLsbD_twoPow]
  simp [Nat.ne_of_gt hm]

end Bits

namespace Pic

variable {p : Pic} {n : Nat}

@[simp] theorem getLsbD_request (m : Nat) : (p.request n).irr.getLsbD m =
    (p.irr.getLsbD m || decide (n < 8) && decide (n = m)) := by
  simp [request]

theorem getLsbD_withdraw {m : Nat} (hm : m < 8) : (p.withdraw n).irr.getLsbD m =
    (p.irr.getLsbD m && decide (n ≠ m)) := by
  by_cases hn : n = m
  · simp [withdraw, hm, hn]
  · simp [withdraw, hm, hn, Ne.symm hn]

/-- No line is in service. -/
def Idle (p : Pic) : Prop := p.isr = 0

theorem Idle.endOfInterrupt (h : p.Idle) : p.endOfInterrupt.Idle := by
  rw [Idle, Pic.endOfInterrupt, h]
  rfl

/-- A line that comes into service goes out of it at the end of the interrupt. -/
theorem Idle.endOfInterrupt_accept (h : p.Idle) (hauto : p.autoEoi = false) (hn : n < 8) :
    (p.accept n).endOfInterrupt.Idle := by
  have hisr : (p.accept n).isr = BitVec.twoPow 8 n := by
    rw [accept, hauto, h]
    exact BitVec.zero_or ..
  rw [Idle, Pic.endOfInterrupt, hisr, lowest_twoPow hn]
  exact BitVec.and_not_self _

/-- How a controller was initialised: no line is masked. -/
structure Programmed (p : Pic) (vector cascade : BitVec 8) : Prop where
  imr : p.imr = 0
  vector : p.vector = vector
  cascade : p.cascade = cascade
  autoEoi : p.autoEoi = false
  expects : p.expects = .ready

namespace Programmed

variable {v c : BitVec 8}

theorem accept (h : p.Programmed v c) (n : Nat) : (p.accept n).Programmed v c :=
  ⟨h.imr, h.vector, h.cascade, h.autoEoi, h.expects⟩

theorem endOfInterrupt (h : p.Programmed v c) : p.endOfInterrupt.Programmed v c :=
  ⟨h.imr, h.vector, h.cascade, h.autoEoi, h.expects⟩

end Programmed

/-- Without lines in service or masked lines the first request is offered. -/
theorem Idle.offered (h : p.Idle) (hmask : p.imr = 0) : p.offered = lowest p.irr := by
  have hall : ∀ n, ((List.range (n + 1)).all fun m => !(0 : BitVec 8).getLsbD m) = true := by
    simp
  rw [Pic.offered, hmask, h]
  simp only [hall]
  rw [show ~~~(0 : BitVec 8) = BitVec.allOnes 8 from rfl, BitVec.and_allOnes]
  cases lowest p.irr <;> rfl

/-- Everything but the requests. -/
def blank (p : Pic) : Pic := { p with irr := 0 }

@[simp] theorem blank_request : (p.request n).blank = p.blank := rfl

@[simp] theorem blank_withdraw : (p.withdraw n).blank = p.blank := rfl

theorem command_blank (d : BitVec 8) :
    p.blank.command d = (p.command d).map Pic.blank := by
  unfold command
  split
  · rfl
  · split <;> rfl

theorem data_blank (d : BitVec 8) : p.blank.data d = (p.data d).blank := by
  unfold data
  cases h : p.expects <;> simp only [blank, h] <;> rfl

end Pic

/-! ## The pair -/

namespace Pics

variable {s t : Pics} {n : Nat}

def Idle (s : Pics) : Prop := s.master.Idle ∧ s.slave.Idle

/-- Initialised with the vectors from `v` and from `w` on, and with the slave on line 2. -/
def Programmed (v w : BitVec 8) (s : Pics) : Prop :=
  s.master.Programmed v 4 ∧ s.slave.Programmed w 2

/-- What the slave offers is a request at the master. -/
def Linked (s : Pics) : Prop := s.slave.offered.isSome → s.master.irr.getLsbD 2

def blank (s : Pics) : Pics := ⟨s.master.blank, s.slave.blank⟩

@[simp] theorem sync_slave (s : Pics) : s.sync.slave = s.slave := by
  unfold sync
  split <;> rfl

@[simp] theorem blank_sync (s : Pics) : s.sync.blank = s.blank := by
  unfold sync
  split <;> rfl

theorem linked_sync (s : Pics) : s.sync.Linked := by
  intro h
  rw [sync_slave] at h
  rw [sync, if_pos h]
  simp

theorem getLsbD_sync {m : Nat} (hm : m ≠ 2) :
    s.sync.master.irr.getLsbD m = s.master.irr.getLsbD m := by
  unfold sync
  split
  · simp [Ne.symm hm]
  · rfl

@[simp] theorem blank_request (s : Pics) (n : Nat) : (s.request n).blank = s.blank := by
  unfold request
  split <;> rw [blank_sync] <;> rfl

@[simp] theorem blank_withdraw (s : Pics) (n : Nat) : (s.withdraw n).blank = s.blank := by
  unfold withdraw
  split <;> rw [blank_sync] <;> rfl

/-- The requests have no influence on what a byte does to the rest. -/
theorem blank_outb (s : Pics) (port : BitVec 16) (d : BitVec 8) :
    (s.blank.outb port d).map blank = (s.outb port d).map blank := by
  have hmaster : s.blank.master = s.master.blank := rfl
  have hslave : s.blank.slave = s.slave.blank := rfl
  unfold outb
  rw [hmaster, hslave, Pic.command_blank, Pic.command_blank, Pic.data_blank, Pic.data_blank]
  simp only [Option.map_map, apply_ite (Option.map blank), Option.map_some, Function.comp_def,
    blank_sync]
  rfl

theorem blank_outbs {s s' : Pics} (h : s.blank = s'.blank) (ws : List (BitVec 16 × BitVec 8)) :
    (s.outbs ws).map blank = (s'.outbs ws).map blank := by
  induction ws generalizing s s' with
  | nil => exact congrArg some h
  | cons w ws ih =>
    have hw : (s.outb w.1 w.2).map blank = (s'.outb w.1 w.2).map blank := by
      rw [← blank_outb s, h, blank_outb]
    unfold outbs at ih ⊢
    rw [List.foldlM_cons, List.foldlM_cons]
    cases hs : s.outb w.1 w.2 with
    | none =>
      rw [hs] at hw
      rw [Option.map_eq_none_iff.mp hw.symm]
    | some t =>
      rw [hs] at hw
      obtain ⟨t', ht', hblank⟩ := Option.map_eq_some_iff.mp hw.symm
      rw [ht']
      exact ih hblank.symm

/-- The bytes `ws` bring the controllers into a state with `Good`. -/
def Leads (ws : List (BitVec 16 × BitVec 8)) (Good : Pics → Prop) (s : Pics) : Prop :=
  ∃ t, s.outbs ws = some t ∧ Good t

/-- Requests that come or go meanwhile change nothing about it. -/
theorem Leads.congr {ws : List (BitVec 16 × BitVec 8)} {Good : Pics → Prop} {s s' : Pics}
    (hgood : ∀ t t' : Pics, t.blank = t'.blank → Good t → Good t') (h : s.Leads ws Good)
    (hblank : s.blank = s'.blank) : s'.Leads ws Good := by
  obtain ⟨t, ht, hg⟩ := h
  have hout := blank_outbs hblank ws
  rw [ht] at hout
  obtain ⟨t', ht', hblank'⟩ := Option.map_eq_some_iff.mp hout.symm
  exact ⟨t', ht', hgood t t' hblank'.symm hg⟩

theorem Idle.congr {s' : Pics} (h : s.Idle) (hblank : s.blank = s'.blank) : s'.Idle := by
  have h : s.blank.Idle := h
  rw [hblank] at h
  exact h

theorem Programmed.blank {v w : BitVec 8} (h : s.Programmed v w) : s.blank.Programmed v w :=
  ⟨⟨h.1.imr, h.1.vector, h.1.cascade, h.1.autoEoi, h.1.expects⟩,
    ⟨h.2.imr, h.2.vector, h.2.cascade, h.2.autoEoi, h.2.expects⟩⟩

theorem Programmed.congr {v w : BitVec 8} {s' : Pics} (h : s.Programmed v w)
    (hblank : s.blank = s'.blank) : s'.Programmed v w := by
  have h := h.blank
  rw [hblank] at h
  exact ⟨⟨h.1.imr, h.1.vector, h.1.cascade, h.1.autoEoi, h.1.expects⟩,
    ⟨h.2.imr, h.2.vector, h.2.cascade, h.2.autoEoi, h.2.expects⟩⟩

/-! ## Acknowledgements -/

/-- The order in which requests are served: the slave has the place of line 2. -/
def rank (n : Nat) : Nat := if n < 2 then n else if n < 8 then n + 8 else n - 6

/-- Nothing that is served before rank `k` is pending. -/
def QuietBelow (s : Pics) (k : Nat) : Prop := ∀ m < 16, m ≠ 2 → rank m < k → s.pending m = false

theorem pending_master (hn : n < 8) : s.pending n = s.master.irr.getLsbD n := if_pos hn

theorem pending_slave (hn : n < 8) : s.pending (n + 8) = s.slave.irr.getLsbD n := by
  rw [pending, if_neg (by omega), Nat.add_sub_cancel]

/-- The answers of controllers without lines in service: a request of the master, or of the slave,
or one of the two last lines where the request went away. -/
inductive Answers (v w : BitVec 8) (s : Pics) : Nat → Answer → Prop
  | nothing : s.QuietBelow 16 → Answers v w s 7 ⟨v + 7, false, s⟩
  | master {n : Nat} : n < 8 → n ≠ 2 → s.pending n = true → s.QuietBelow (rank n) →
      Answers v w s n ⟨v + .ofNat 8 n, true, sync ⟨s.master.accept n, s.slave⟩⟩
  | slave {n : Nat} : n < 8 → s.pending (n + 8) = true → s.QuietBelow (rank (n + 8)) →
      Answers v w s (n + 8) ⟨w + .ofNat 8 n, true, sync ⟨s.master.accept 2, s.slave.accept n⟩⟩
  | lost : s.QuietBelow 10 → Answers v w s 15 ⟨w + 7, false, sync ⟨s.master.accept 2, s.slave⟩⟩

theorem quietBelow_of_master {k : Nat} (hk : k ≤ 8) (hlink : s.Linked) (hidle : s.slave.Idle)
    (hmask : s.slave.imr = 0) (h : ∀ m < k, s.master.irr.getLsbD m = false) :
    s.QuietBelow (if k ≤ 2 then k else k + 8) := by
  intro m hm hm2 hrank
  unfold rank at hrank
  by_cases hm8 : m < 8
  · rw [pending_master hm8]
    refine h m ?_
    split at hrank <;> split at hrank <;> omega
  · obtain ⟨m, rfl⟩ := Nat.exists_eq_add_of_le' (Nat.le_of_not_lt hm8)
    rw [pending_slave (by omega)]
    have hk2 : 2 < k := by
      split at hrank <;> split at hrank <;> omega
    have hnone : s.slave.offered = none := by
      by_contra hsome
      have h2 := hlink (Option.isSome_iff_ne_none.mpr hsome)
      rw [h 2 hk2] at h2
      cases h2
    rw [hidle.offered hmask, lowest_eq_none] at hnone
    rw [hnone]
    simp

/-- The slave's turn: the first two lines are quiet, and so are the slave's lines before `k`. -/
theorem quietBelow_of_slave {k : Nat} (hk : k ≤ 8) (h₁ : ∀ m < 2, s.master.irr.getLsbD m = false)
    (h₂ : ∀ m < k, s.slave.irr.getLsbD m = false) : s.QuietBelow (k + 2) := by
  intro m hm hm2 hrank
  unfold rank at hrank
  by_cases hm8 : m < 8
  · rw [pending_master hm8]
    refine h₁ m ?_
    split at hrank <;> omega
  · obtain ⟨m, rfl⟩ := Nat.exists_eq_add_of_le' (Nat.le_of_not_lt hm8)
    rw [pending_slave (by omega)]
    refine h₂ m ?_
    split at hrank <;> omega

theorem exists_acknowledge {v w : BitVec 8} (hidle : s.Idle) (hprog : s.Programmed v w)
    (hlink : s.Linked) : ∃ n a, s.acknowledge = some a ∧ s.Answers v w n a := by
  obtain ⟨hm, hs⟩ := hprog
  have hquiet := fun k (hk : k ≤ 8) => quietBelow_of_master hk hlink hidle.2 hs.imr
  unfold acknowledge
  rw [hidle.1.offered hm.imr, hidle.2.offered hs.imr, hm.cascade, hs.cascade, hm.vector, hs.vector]
  cases hlow : lowest s.master.irr with
  | none =>
    rw [lowest_eq_none] at hlow
    exact ⟨7, _, rfl, .nothing (hquiet 8 (Nat.le_refl 8) (by simp [hlow]))⟩
  | some n =>
    obtain ⟨hbit, hn, hbefore⟩ := lowest_eq_some.mp hlow
    by_cases h2 : n = 2
    · subst h2
      cases hlow' : lowest s.slave.irr with
      | none =>
        rw [lowest_eq_none] at hlow'
        exact ⟨15, _, rfl, .lost (quietBelow_of_slave (Nat.le_refl 8) hbefore (by simp [hlow']))⟩
      | some m =>
        obtain ⟨hbit', hm', hbefore'⟩ := lowest_eq_some.mp hlow'
        have hrank : rank (m + 8) = m + 2 := by
          rw [rank, if_neg (by omega), if_neg (by omega)]
          rfl
        refine ⟨m + 8, _, rfl, .slave hm' ?_ ?_⟩
        · rw [pending_slave hm', hbit']
        · rw [hrank]
          exact quietBelow_of_slave (Nat.le_of_lt hm') hbefore hbefore'
    · have hcascade : (4 : BitVec 8).getLsbD n = false := by
        rw [show (4 : BitVec 8) = BitVec.twoPow 8 2 from rfl, BitVec.getLsbD_twoPow]
        simp [Ne.symm h2]
      refine ⟨n, ⟨v + .ofNat 8 n, true, sync ⟨s.master.accept n, s.slave⟩⟩, ?_,
        .master hn h2 ?_ ?_⟩
      · simp only [hcascade, Bool.false_eq_true, if_false]
      · rw [pending_master hn, hbit]
      · have hrank : rank n = if n ≤ 2 then n else n + 8 := by
          unfold rank
          split <;> split <;> omega
        rw [hrank]
        exact hquiet n (Nat.le_of_lt hn) hbefore

/-- The acknowledgement has one answer only. -/
theorem answers_of_acknowledge {v w : BitVec 8} {a : Answer} (hidle : s.Idle)
    (hprog : s.Programmed v w) (hlink : s.Linked) (h : s.acknowledge = some a) :
    ∃ n, s.Answers v w n a := by
  obtain ⟨n, a', ha', hans⟩ := exists_acknowledge hidle hprog hlink
  rw [h] at ha'
  cases ha'
  exact ⟨n, hans⟩

theorem pending_sync {m : Nat} (hm : m ≠ 2) : s.sync.pending m = s.pending m := by
  unfold pending
  rw [sync_slave]
  split
  · exact getLsbD_sync hm
  · rfl

/-- One of the lines of the pair changes: `f` works on its controller. -/
theorem pending_line {p q : Pic} {g : Bool → Bool → Bool} {f : Nat → Pic → Pic}
    (hf : ∀ k m (r : Pic), k < 8 → m < 8 →
      (f k r).irr.getLsbD m = g (r.irr.getLsbD m) (decide (k = m)))
    (hg : ∀ b, g b false = b) {n m : Nat} (hn16 : n < 16) (hm16 : m < 16) :
    (if n < 8 then (⟨f n p, q⟩ : Pics) else ⟨p, f (n - 8) q⟩).pending m =
      g ((⟨p, q⟩ : Pics).pending m) (decide (n = m)) := by
  by_cases hn : n < 8
  · rw [if_pos hn]
    by_cases hm : m < 8
    · rw [pending_master hm, pending_master hm]
      exact hf n m p hn hm
    · have hne : n ≠ m := by omega
      simp only [pending, if_neg hm, decide_eq_false hne, hg]
  · rw [if_neg hn]
    by_cases hm : m < 8
    · have hne : n ≠ m := by omega
      simp only [pending, if_pos hm, decide_eq_false hne, hg]
    · have hsub : (n - 8 = m - 8) = (n = m) := propext ⟨fun h => by omega, fun h => by omega⟩
      have h := hf (n - 8) (m - 8) q (by omega) (by omega)
      simp only [hsub] at h
      simp only [pending, if_neg hm]
      exact h

theorem pending_request {m : Nat} (hn16 : n < 16) (hm : m ≠ 2) (hm16 : m < 16) :
    (s.request n).pending m = (s.pending m || decide (n = m)) := by
  have h := pending_line (p := s.master) (q := s.slave) (g := fun b e => b || e)
    (f := fun k r => r.request k) (by intro k m r hk _; simp [hk]) (by simp) hn16 hm16
  rw [← h, request]
  split <;> exact pending_sync hm

theorem pending_withdraw {m : Nat} (hn16 : n < 16) (hm : m ≠ 2) (hm16 : m < 16) :
    (s.withdraw n).pending m = (s.pending m && !decide (n = m)) := by
  have h := pending_line (p := s.master) (q := s.slave) (g := fun b e => b && !e)
    (f := fun k r => r.withdraw k) (by intro k m r _ hm; simp [Pic.getLsbD_withdraw hm]) (by simp)
    hn16 hm16
  rw [← h, withdraw]
  split <;> exact pending_sync hm

theorem pending_accept {p q : Pic} {m : Nat} (hn16 : n < 16) (hm16 : m < 16) :
    (if n < 8 then (⟨p.accept n, q⟩ : Pics) else ⟨p, q.accept (n - 8)⟩).pending m =
      ((⟨p, q⟩ : Pics).pending m && !decide (n = m)) :=
  pending_line (g := fun b e => b && !e) (f := fun k r => r.accept k)
    (by
      intro k m r _ hm
      have hirr : (r.accept k).irr = (r.withdraw k).irr := rfl
      rw [hirr, Pic.getLsbD_withdraw hm]
      simp)
    (by simp) hn16 hm16

theorem Answers.pending_of_genuine {v w : BitVec 8} {a : Answer} (h : s.Answers v w n a)
    (hgenuine : a.genuine = true) : s.pending n = true := by
  cases h with
  | nothing _ => cases hgenuine
  | master _ _ hpend _ => exact hpend
  | slave _ hpend _ => exact hpend
  | lost _ => cases hgenuine

theorem Answers.last_of_not_genuine {v w : BitVec 8} {a : Answer} (h : s.Answers v w n a)
    (hgenuine : a.genuine = false) : n = 7 ∨ n = 15 := by
  cases h with
  | nothing _ => exact Or.inl rfl
  | master _ _ _ _ => cases hgenuine
  | slave _ _ _ => cases hgenuine
  | lost _ => exact Or.inr rfl

/-- An answer takes its own request away and no other. -/
theorem Answers.pending {v w : BitVec 8} {a : Answer} (h : s.Answers v w n a) {m : Nat}
    (hm : m ≠ 2) (hm16 : m < 16) :
    a.pics.pending m = (s.pending m && !(a.genuine && decide (n = m))) := by
  -- the line of the cascade
  have hcascade : (⟨s.master.accept 2, s.slave⟩ : Pics).pending m = s.pending m := by
    have h := pending_accept (p := s.master) (q := s.slave) (n := 2) (by decide) hm16
    rw [if_pos (by decide)] at h
    simpa [Ne.symm hm] using h
  cases h with
  | nothing _ => simp
  | @master n hn _ _ _ =>
    have h := pending_accept (p := s.master) (q := s.slave) (n := n) (by omega) hm16
    rw [if_pos hn] at h
    rw [pending_sync hm, h]
    simp
  | @slave n hn _ _ =>
    have h := pending_accept (p := s.master.accept 2) (q := s.slave) (n := n + 8) (by omega) hm16
    rw [if_neg (by omega), Nat.add_sub_cancel, hcascade] at h
    rw [pending_sync hm, h]
    simp
  | lost _ =>
    rw [pending_sync hm, hcascade]
    simp

/-! ## Bytes for the ports -/

/-- No line is in service and the set-up is as it was. -/
def Ready (v w : BitVec 8) (s : Pics) : Prop := s.Idle ∧ s.Programmed v w

theorem Ready.congr {v w : BitVec 8} (h : s.Ready v w) (hblank : s.blank = t.blank) :
    t.Ready v w := ⟨h.1.congr hblank, h.2.congr hblank⟩

theorem leads_sync {v w : BitVec 8} {ws : List (BitVec 16 × BitVec 8)}
    (h : s.Leads ws (Ready v w)) : s.sync.Leads ws (Ready v w) :=
  h.congr (fun _ _ hblank hready => hready.congr hblank) (blank_sync s).symm

section Ports

variable {v w : BitVec 8} {d : BitVec 8} {p : Pic} {ws : List (BitVec 16 × BitVec 8)}

theorem Leads.cons {port : BitVec 16} (hw : s.outb port d = some t.sync)
    (h : t.Leads ws (Ready v w)) : s.Leads ((port, d) :: ws) (Ready v w) := by
  obtain ⟨u, hu, hready⟩ := leads_sync h
  refine ⟨u, ?_, hready⟩
  rw [outbs, List.foldlM_cons, hw]
  exact hu

theorem leads_master_command (hp : s.master.command d = some p)
    (h : Leads ws (Ready v w) ⟨p, s.slave⟩) : s.Leads ((0x20, d) :: ws) (Ready v w) := by
  refine Leads.cons ?_ h
  rw [outb, if_pos rfl, hp]
  rfl

theorem leads_slave_command (hp : s.slave.command d = some p)
    (h : Leads ws (Ready v w) ⟨s.master, p⟩) : s.Leads ((0xa0, d) :: ws) (Ready v w) := by
  refine Leads.cons ?_ h
  rw [outb, if_neg (by decide), if_neg (by decide), if_pos rfl, hp]
  rfl

theorem leads_master_data (h : Leads ws (Ready v w) ⟨s.master.data d, s.slave⟩) :
    s.Leads ((0x21, d) :: ws) (Ready v w) := by
  refine Leads.cons ?_ h
  rw [outb, if_neg (by decide), if_pos rfl]

theorem leads_slave_data (h : Leads ws (Ready v w) ⟨s.master, s.slave.data d⟩) :
    s.Leads ((0xa1, d) :: ws) (Ready v w) := by
  refine Leads.cons ?_ h
  rw [outb, if_neg (by decide), if_neg (by decide), if_neg (by decide), if_pos rfl]

theorem leads_nil (h : s.Ready v w) : s.Leads [] (Ready v w) := ⟨s, rfl, h⟩

theorem leads_eoi_master (h : Ready v w ⟨s.master.endOfInterrupt, s.slave⟩) :
    s.Leads [(0x20, 0x20)] (Ready v w) :=
  leads_master_command rfl (leads_nil h)

theorem leads_eoi_both (h : Ready v w ⟨s.master.endOfInterrupt, s.slave.endOfInterrupt⟩) :
    s.Leads [(0xa0, 0x20), (0x20, 0x20)] (Ready v w) :=
  leads_slave_command rfl (leads_eoi_master h)

/-- The end of an interrupt leaves the requests as they are. -/
theorem pending_eoi {port : BitVec 16} {n : Nat} (hport : port = 0x20 ∨ port = 0xa0) (hn : n ≠ 2)
    (h : s.outb port 0x20 = some t) : t.pending n = s.pending n := by
  rcases hport with rfl | rfl
  · rw [outb, if_pos rfl, Pic.command, if_neg (by decide), if_pos rfl] at h
    cases h
    exact pending_sync hn
  · rw [outb, if_neg (by decide), if_neg (by decide), if_pos rfl, Pic.command, if_neg (by decide),
      if_pos rfl] at h
    cases h
    exact pending_sync hn

theorem Leads.tail {port : BitVec 16} (h : s.Leads ((port, d) :: ws) (Ready v w))
    (hw : s.outb port d = some t) : t.Leads ws (Ready v w) := by
  obtain ⟨u, hu, hready⟩ := h
  rw [outbs, List.foldlM_cons, hw] at hu
  exact ⟨u, hu, hready⟩

end Ports

/-- One command ends an interrupt of the master, and two commands one of the slave. That holds for
the interrupts without a request, too. -/
theorem Answers.leads {v w : BitVec 8} {a : Answer} (h : s.Answers v w n a) (hready : s.Ready v w) :
    a.pics.Leads (if 8 ≤ n then [(0xa0, 0x20), (0x20, 0x20)] else [(0x20, 0x20)]) (Ready v w) := by
  obtain ⟨⟨hm, hs⟩, hpm, hps⟩ := hready
  cases h with
  | nothing _ => exact leads_eoi_master ⟨⟨hm.endOfInterrupt, hs⟩, hpm.endOfInterrupt, hps⟩
  | @master n hn _ _ _ =>
    rw [if_neg (Nat.not_le_of_lt hn)]
    exact leads_sync (leads_eoi_master ⟨⟨hm.endOfInterrupt_accept hpm.autoEoi hn, hs⟩,
      (hpm.accept n).endOfInterrupt, hps⟩)
  | @slave n hn _ _ =>
    rw [if_pos (Nat.le_add_left 8 n)]
    exact leads_sync (leads_eoi_both ⟨⟨hm.endOfInterrupt_accept hpm.autoEoi (by decide),
      hs.endOfInterrupt_accept hps.autoEoi hn⟩, (hpm.accept 2).endOfInterrupt,
      (hps.accept n).endOfInterrupt⟩)
  | lost _ =>
    exact leads_sync (leads_eoi_both ⟨⟨hm.endOfInterrupt_accept hpm.autoEoi (by decide),
      hs.endOfInterrupt⟩, (hpm.accept 2).endOfInterrupt, hps.endOfInterrupt⟩)

/-- The number of an answer. -/
theorem Answers.vector {v w : BitVec 8} {a : Answer} (h : s.Answers v w n a) :
    n < 16 ∧ n ≠ 2 ∧ a.vector = if n < 8 then v + .ofNat 8 n else w + .ofNat 8 (n - 8) := by
  cases h with
  | nothing _ => exact ⟨by decide, by decide, rfl⟩
  | @master n hn h2 _ _ => exact ⟨by omega, h2, (if_pos hn).symm⟩
  | @slave n hn _ _ =>
    refine ⟨by omega, by omega, ?_⟩
    rw [if_neg (by omega), Nat.add_sub_cancel]
  | lost _ => exact ⟨by decide, by decide, rfl⟩

theorem Answers.linked {v w : BitVec 8} {a : Answer} (h : s.Answers v w n a) (hlink : s.Linked) :
    a.pics.Linked := by
  cases h with
  | nothing _ => exact hlink
  | master _ _ _ _ => exact linked_sync _
  | slave _ _ _ => exact linked_sync _
  | lost _ => exact linked_sync _

theorem linked_outb {port : BitVec 16} {d : BitVec 8} (hlink : s.Linked ∨ port = 0x20)
    (h : s.outb port d = some t) : t.Linked := by
  unfold outb at h
  split at h
  · obtain ⟨p, -, rfl⟩ := Option.map_eq_some_iff.mp h
    exact linked_sync _
  split at h
  · cases h
    exact linked_sync _
  split at h
  · obtain ⟨p, -, rfl⟩ := Option.map_eq_some_iff.mp h
    exact linked_sync _
  split at h
  · cases h
    exact linked_sync _
  · rename_i hport _ _ _
    cases h
    exact hlink.resolve_right hport

theorem linked_request (s : Pics) (n : Nat) : (s.request n).Linked := by
  unfold request
  split <;> exact linked_sync _

theorem linked_withdraw (s : Pics) (n : Nat) : (s.withdraw n).Linked := by
  unfold withdraw
  split <;> exact linked_sync _

end Pics

end PiggyOS.Infra
