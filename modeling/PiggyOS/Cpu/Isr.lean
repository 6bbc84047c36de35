import PiggyOS.Infra.Memory
import PiggyOS.Infra.Pic
import PiggyOS.Infra.Run

/-!
# Interrupt handlers (`isr.c`, `idt.c`)

`idt_init` sets up the two interrupt controllers, and `irq_handler` tells them that an interrupt is
handled before it calls the handler. Devices request interrupts at any time. The handler may switch
to another task, so that it returns much later or never; the controllers do not wait for it.
-/

namespace PiggyOS

open Infra

/-- `interrupt_handlers` -/
abbrev Handlers := BitVec 8 → U32

def intInstallHandler (handlers : Handlers) (num : BitVec 8) (handler : U32) : Handlers :=
  Function.update handlers num handler

def intUnintstallHandler (handlers : Handlers) (num : BitVec 8) : Handlers :=
  Function.update handlers num 0

/-- The bytes that `idt_init` writes to the controllers. -/
def picInit : List (BitVec 16 × BitVec 8) :=
  [(0x20, 0x11), (0xa0, 0x11), (0x21, 0x20), (0xa1, 0x28), (0x21, 0x04), (0xa1, 0x02),
    (0x21, 0x01), (0xa1, 0x01), (0x21, 0x00), (0xa1, 0x00)]

/-- The statements of `irq_handler`. -/
inductive IrqStmt
  /-- `current_task->ifr = r` -/
  | setIfr
  | outb (port : BitVec 16) (d : BitVec 8)
  /-- The call of the handler, if there is one. -/
  | call
  deriving DecidableEq

/-- `irq_handler`, where `intNo` is `r->int_no`. -/
def irqHandler (intNo : BitVec 8) : List IrqStmt :=
  .setIfr :: (if 40 ≤ intNo then [.outb 0xa0 0x20] else []) ++ [.outb 0x20 0x20, .call]

/-- What the processor does next. `other` is any code but the two functions below, tasks and
handlers among it. -/
inductive IrqPc
  | init (rest : List (BitVec 16 × BitVec 8))
  | handler (r : U32) (intNo : BitVec 8) (rest : List IrqStmt)
  | other

/-- The controllers, the interrupt flag, and the variables that `irq_handler` uses; `ifr` is this
field of all tasks. -/
structure IrqState where
  pics : Pics
  interrupts : Bool
  pc : IrqPc
  interruptHandlers : Handlers
  currentTask : U32
  ifr : U32 → U32

/-- `take n genuine r`: the processor takes the interrupt of line `n`; without a request `genuine`
is false. `call n handler`: `irq_handler` comes to the call of a handler for line `n`. -/
inductive IrqOp
  | request (n : Nat)
  | withdraw (n : Nat)
  | init
  | take (n : Nat) (genuine : Bool) (r : U32)
  | stmt
  | call (n : Nat) (handler : U32)
  | install (num : BitVec 8) (handler : U32)
  | uninstall (num : BitVec 8)
  | work
  deriving DecidableEq

/-- The devices request interrupts on all lines but the one of the slave, and may withdraw a
request before it is acknowledged. The gates of interrupts clear the flag, and the stub of vector
`v` passes `v` to `irq_handler`. Other code does not use the ports of the controllers. -/
inductive IrqStep : IrqState → IrqOp → IrqState → Prop
  | request {s : IrqState} {n : Nat} : n < 16 → n ≠ 2 → s.pics.pending n = false →
      IrqStep s (.request n) { s with pics := s.pics.request n }
  | withdraw {s : IrqState} {n : Nat} : n < 16 → s.pics.pending n = true →
      IrqStep s (.withdraw n) { s with pics := s.pics.withdraw n }
  | init {s : IrqState} {port : BitVec 16} {d : BitVec 8} {rest : List (BitVec 16 × BitVec 8)}
      {pics : Pics} : s.pc = .init ((port, d) :: rest) → s.pics.outb port d = some pics →
      IrqStep s .init { s with pics := pics, pc := .init rest }
  | sti {s : IrqState} : s.pc = .init [] →
      IrqStep s .init { s with interrupts := true, pc := .other }
  | take {s : IrqState} {a : Pics.Answer} {r : U32} : s.pc = .other → s.interrupts = true →
      s.pics.acknowledge = some a →
      IrqStep s (.take (a.vector.toNat - 32) a.genuine r)
        { s with
          pics := a.pics
          interrupts := false
          pc := .handler r a.vector (irqHandler a.vector) }
  | setIfr {s : IrqState} {r : U32} {intNo : BitVec 8} {rest : List IrqStmt} :
      s.pc = .handler r intNo (.setIfr :: rest) →
      IrqStep s .stmt
        { s with
          pc := .handler r intNo rest
          ifr := Function.update s.ifr s.currentTask r }
  | outb {s : IrqState} {r : U32} {intNo : BitVec 8} {port : BitVec 16} {d : BitVec 8}
      {rest : List IrqStmt} {pics : Pics} :
      s.pc = .handler r intNo (.outb port d :: rest) → s.pics.outb port d = some pics →
      IrqStep s .stmt { s with pics := pics, pc := .handler r intNo rest }
  | call {s : IrqState} {r : U32} {intNo : BitVec 8} {rest : List IrqStmt} :
      s.pc = .handler r intNo (.call :: rest) →
      IrqStep s (.call (intNo.toNat - 32) (s.interruptHandlers intNo)) { s with pc := .other }
  | install {s : IrqState} {num : BitVec 8} {handler : U32} :
      IrqStep s (.install num handler)
        { s with interruptHandlers := intInstallHandler s.interruptHandlers num handler }
  | uninstall {s : IrqState} {num : BitVec 8} :
      IrqStep s (.uninstall num)
        { s with interruptHandlers := intUnintstallHandler s.interruptHandlers num }
  | work {s s' : IrqState} : s.pc = .other → s'.pc = .other → s'.pics = s.pics →
      s'.interruptHandlers = s.interruptHandlers → IrqStep s .work s'

/-- Before the first byte: nothing is known about the controllers. -/
structure IrqState.Boot (s : IrqState) : Prop where
  pc : s.pc = .init picInit
  interrupts : s.interrupts = false
  interruptHandlers : ∀ num, s.interruptHandlers num = 0

/-! ## The controllers -/

/-- The bytes that are left to write. -/
def IrqStmt.writes : List IrqStmt → List (BitVec 16 × BitVec 8)
  | [] => []
  | .outb port d :: rest => (port, d) :: writes rest
  | _ :: rest => writes rest

theorem writes_irqHandler {intNo : BitVec 8} : IrqStmt.writes (irqHandler intNo) =
    if 40 ≤ intNo then [(0xa0, 0x20), (0x20, 0x20)] else [(0x20, 0x20)] := by
  unfold irqHandler
  split <;> rfl

/-- Only ends of interrupts are written, and nothing comes after the call of the handler. -/
def IrqStmt.Ends : List IrqStmt → Prop
  | [] => True
  | .setIfr :: rest => Ends rest
  | .outb port d :: rest => ((port = 0x20 ∨ port = 0xa0) ∧ d = 0x20) ∧ Ends rest
  | .call :: rest => rest = []

theorem ends_irqHandler (intNo : BitVec 8) : IrqStmt.Ends (irqHandler intNo) := by
  unfold irqHandler
  split <;> simp [IrqStmt.Ends]

/-- Whatever the controllers did before, all lines are open and none is in service. -/
theorem leads_picInit (s : Pics) : s.Leads picInit (Pics.Ready 0x20 0x28) := by
  refine Pics.leads_master_command rfl (Pics.leads_slave_command rfl ?_)
  refine Pics.leads_master_data (Pics.leads_slave_data ?_)
  refine Pics.leads_master_data (Pics.leads_slave_data ?_)
  refine Pics.leads_master_data (Pics.leads_slave_data ?_)
  refine Pics.leads_master_data (Pics.leads_slave_data (Pics.leads_nil ?_))
  exact ⟨⟨rfl, rfl⟩, ⟨rfl, rfl, rfl, rfl, rfl⟩, ⟨rfl, rfl, rfl, rfl, rfl⟩⟩

/-! ## The invariant -/

/-- What is left to write empties the registers of the lines in service. -/
def IrqPc.Ok (interrupts : Bool) (p : Pics) : IrqPc → Prop
  | .init rest => interrupts = false ∧ p.Leads rest (Pics.Ready 0x20 0x28)
  | .handler _ intNo rest => interrupts = false ∧ IrqStmt.Ends rest ∧
      (∃ n < 16, intNo.toNat = 32 + n) ∧ p.Leads (IrqStmt.writes rest) (Pics.Ready 0x20 0x28)
  | .other => p.Ready 0x20 0x28

structure IrqState.Ok (s : IrqState) : Prop where
  linked : s.pics.Linked ∨ s.pc = .init picInit
  pc : s.pc.Ok s.interrupts s.pics

/-- Requests may come and go. -/
theorem IrqPc.Ok.congr {interrupts : Bool} {p p' : Pics} {pc : IrqPc} (h : pc.Ok interrupts p)
    (hblank : p.blank = p'.blank) : pc.Ok interrupts p' := by
  cases pc with
  | init rest => exact ⟨h.1, h.2.congr (fun _ _ hb hr => hr.congr hb) hblank⟩
  | handler r intNo rest =>
    exact ⟨h.1, h.2.1, h.2.2.1, h.2.2.2.congr (fun _ _ hb hr => hr.congr hb) hblank⟩
  | other => exact Pics.Ready.congr h hblank

namespace IrqState

variable {s t : IrqState} {op : IrqOp} {ops : List IrqOp}

theorem Boot.ok (h : s.Boot) : s.Ok where
  linked := Or.inr h.pc
  pc := by
    rw [h.pc]
    exact ⟨h.interrupts, leads_picInit s.pics⟩

theorem Ok.linked_of_ne (h : s.Ok) {pc : IrqPc} (hpc : s.pc = pc) (hne : pc ≠ .init picInit) :
    s.pics.Linked := h.linked.resolve_right fun hinit => hne (hpc.symm.trans hinit)

theorem Ok.at (h : s.Ok) {pc : IrqPc} (hpc : s.pc = pc) : pc.Ok s.interrupts s.pics := hpc ▸ h.pc

/-- What an acknowledgement by the processor finds. -/
theorem Ok.answers (h : s.Ok) (hpc : s.pc = .other) {a : Pics.Answer}
    (ha : s.pics.acknowledge = some a) : ∃ n, s.pics.Answers 0x20 0x28 n a := by
  have hready : s.pics.Ready 0x20 0x28 := h.at hpc
  exact Pics.answers_of_acknowledge hready.1 hready.2 (h.linked_of_ne hpc (by simp)) ha

/-- The vector tells the line. -/
theorem toNat_vector {p : Pics} {n : Nat} {a : Pics.Answer} (h : p.Answers 0x20 0x28 n a) :
    a.vector.toNat = 32 + n := by
  obtain ⟨hn, -, hv⟩ := h.vector
  rw [hv]
  split <;> simp <;> omega

theorem Ok.take (h : s.Ok) (hpc : s.pc = .other) {a : Pics.Answer}
    (ha : s.pics.acknowledge = some a) (r : U32) :
    { s with
      pics := a.pics
      interrupts := false
      pc := .handler r a.vector (irqHandler a.vector) }.Ok := by
  obtain ⟨n, hans⟩ := h.answers hpc ha
  refine ⟨Or.inl (hans.linked (h.linked_of_ne hpc (by simp))), rfl,
    ends_irqHandler a.vector, ⟨n, hans.vector.1, toNat_vector hans⟩, ?_⟩
  have hle : (40 ≤ a.vector) = (8 ≤ n) := by
    rw [BitVec.le_def, toNat_vector hans]
    exact propext (Nat.add_le_add_iff_left (n := 32) (m := 8) (k := n))
  rw [writes_irqHandler]
  simp only [hle]
  exact hans.leads (h.at hpc)

theorem Ok.ready_call (h : s.Ok) {r : U32} {intNo : BitVec 8} {rest : List IrqStmt}
    (hpc : s.pc = .handler r intNo (.call :: rest)) : s.pics.Ready 0x20 0x28 := by
  obtain ⟨-, hlast, -, u, hu, hready⟩ := h.at hpc
  have hnil : rest = [] := hlast
  subst hnil
  cases hu
  exact hready

theorem Ok.step (h : s.Ok) (hstep : IrqStep s op t) : t.Ok := by
  cases hstep with
  | @request n _ _ _ =>
    exact ⟨Or.inl (Pics.linked_request s.pics n), h.pc.congr (Pics.blank_request ..).symm⟩
  | @withdraw n _ _ =>
    exact ⟨Or.inl (Pics.linked_withdraw s.pics n), h.pc.congr (Pics.blank_withdraw ..).symm⟩
  | @init port d rest pics hpc hout =>
    have hok := h.at hpc
    refine ⟨Or.inl (Pics.linked_outb (h.linked.imp_right fun hinit => ?_) hout), hok.1,
      hok.2.tail hout⟩
    rw [hpc] at hinit
    cases hinit
    rfl
  | sti hpc =>
    obtain ⟨u, hu, hready⟩ := (h.at hpc).2
    cases hu
    exact ⟨Or.inl (h.linked_of_ne hpc (by simp [picInit])), hready⟩
  | take hpc _ ha => exact h.take hpc ha _
  | setIfr hpc =>
    have hok := h.at hpc
    exact ⟨Or.inl (h.linked_of_ne hpc (by simp)), hok⟩
  | outb hpc hout =>
    have hok := h.at hpc
    exact ⟨Or.inl (Pics.linked_outb (Or.inl (h.linked_of_ne hpc (by simp))) hout), hok.1,
      hok.2.1.2, hok.2.2.1, hok.2.2.2.tail hout⟩
  | call hpc => exact ⟨Or.inl (h.linked_of_ne hpc (by simp)), h.ready_call hpc⟩
  | install => exact ⟨h.linked, h.pc⟩
  | uninstall => exact ⟨h.linked, h.pc⟩
  | work hpc hpc' hpics _ =>
    refine ⟨Or.inl ?_, ?_⟩
    · rw [hpics]
      exact h.linked_of_ne hpc (by simp)
    · rw [hpc', hpics]
      exact h.at hpc

theorem Ok.run (h : s.Ok) (hrun : Run IrqStep s ops t) : t.Ok :=
  hrun.invariant Ok (fun _ _ _ h hstep => h.step hstep) h

/-! ## Handlers -/

/-- The handler that was installed last for `num`. -/
def lastInstalled (num : BitVec 8) (ops : List IrqOp) : U32 :=
  ops.foldl (fun handler op =>
    match op with
    | .install num' handler' => if num' = num then handler' else handler
    | .uninstall num' => if num' = num then 0 else handler
    | _ => handler) 0

theorem interruptHandlers_run (hboot : s.Boot) (hrun : Run IrqStep s ops t) (num : BitVec 8) :
    t.interruptHandlers num = lastInstalled num ops := by
  induction hrun with
  | nil => exact hboot.interruptHandlers num
  | @snoc u v ops op _ hstep ih =>
    rw [lastInstalled, List.foldl_append, List.foldl_cons, List.foldl_nil]
    rw [lastInstalled] at ih
    rw [← ih]
    cases hstep with
    | @install num' handler' =>
      by_cases h : num' = num
      · simp [intInstallHandler, h]
      · simp [intInstallHandler, h, Ne.symm h]
    | @uninstall num' =>
      by_cases h : num' = num
      · simp [intUnintstallHandler, h]
      · simp [intUnintstallHandler, h, Ne.symm h]
    | work _ _ _ hhandlers => exact congrFun hhandlers num
    | _ => rfl

/-- Whenever `irq_handler` comes to the call, it finds the handler that was installed last for this
line, interrupts are off, and no line is in service: the handler need not return for the next
interrupt to come. -/
theorem irq_handler_called {s₀ : IrqState} {n : Nat} {handler : U32} (hboot : s₀.Boot)
    (hrun : Run IrqStep s₀ ops s) (hstep : IrqStep s (.call n handler) t) :
    n < 16 ∧ handler = lastInstalled (.ofNat 8 (32 + n)) ops ∧ s.interrupts = false ∧
      s.pics.master.isr = 0 ∧ s.pics.slave.isr = 0 := by
  have hok := hboot.ok.run hrun
  generalize hop : IrqOp.call n handler = op at hstep
  cases hstep with
  | @call r intNo rest hpc =>
    cases hop
    obtain ⟨hoff, -, ⟨n, hn, hintNo⟩, -⟩ := hok.at hpc
    have hidle := (hok.ready_call hpc).1
    have hnum : BitVec.ofNat 8 (32 + n) = intNo := by
      rw [← hintNo, BitVec.ofNat_toNat, BitVec.setWidth_eq]
    rw [hintNo, Nat.add_sub_cancel_left, hnum]
    exact ⟨hn, interruptHandlers_run hboot hrun intNo, hoff, hidle.1, hidle.2⟩
  | _ => cases hop

/-- Whenever other code runs no line is in service, and the processor is offered the request that
comes first: the slave's lines come after line 1, and line 7 is last. Line 7 answers if all requests
are gone, and line 15 if those of the slave are gone. -/
theorem irq_acknowledge {s₀ : IrqState} (hboot : s₀.Boot) (hrun : Run IrqStep s₀ ops s)
    (hpc : s.pc = .other) : s.pics.master.isr = 0 ∧ s.pics.slave.isr = 0 ∧
    ∃ n a, s.pics.acknowledge = some a ∧ a.vector.toNat = 32 + n ∧
      (a.genuine = true → n < 16 ∧ s.pics.pending n = true ∧ s.pics.QuietBelow (Pics.rank n)) ∧
      (a.genuine = false → n = 7 ∧ s.pics.QuietBelow 16 ∨ n = 15 ∧ s.pics.QuietBelow 10) := by
  have hok := hboot.ok.run hrun
  have hready : s.pics.Ready 0x20 0x28 := hok.at hpc
  obtain ⟨n, a, ha, hans⟩ :=
    Pics.exists_acknowledge hready.1 hready.2 (hok.linked_of_ne hpc (by simp))
  refine ⟨hready.1.1, hready.1.2, n, a, ha, toNat_vector hans, ?_⟩
  cases hans with
  | nothing hquiet => exact ⟨fun h => (by cases h), fun _ => Or.inl ⟨rfl, hquiet⟩⟩
  | master hn _ hpend hquiet =>
    exact ⟨fun _ => ⟨by omega, hpend, hquiet⟩, fun h => (by cases h)⟩
  | slave hn hpend hquiet => exact ⟨fun _ => ⟨by omega, hpend, hquiet⟩, fun h => (by cases h)⟩
  | lost hquiet => exact ⟨fun h => (by cases h), fun _ => Or.inr ⟨rfl, hquiet⟩⟩

/-! ## Conservation -/

/-- `irq_handler` is before the call for line `n`. -/
def beforeCall (s : IrqState) (n : Nat) : Bool :=
  match s.pc with
  | .handler _ intNo _ => intNo.toNat = 32 + n
  | _ => false

end IrqState

/-- A device requests an interrupt on line `n`. -/
@[simp]
def IrqOp.requests (n : Nat) : IrqOp → Bool
  | .request m => m = n
  | _ => false

@[simp]
def IrqOp.withdraws (n : Nat) : IrqOp → Bool
  | .withdraw m => m = n
  | _ => false

/-- A call for line `n`. -/
@[simp]
def IrqOp.calls (n : Nat) : IrqOp → Bool
  | .call m _ => m = n
  | _ => false

/-- An interrupt of line `n` that nobody has requested. -/
@[simp]
def IrqOp.spurious (n : Nat) : IrqOp → Bool
  | .take m genuine _ => m = n && !genuine
  | _ => false

namespace IrqState

variable {s t : IrqState} {op : IrqOp} {ops : List IrqOp}

/-- One step: what comes in for line `n` is still there or goes out. -/
theorem Ok.conserved (h : s.Ok) (hinit : ∀ rest, s.pc ≠ .init rest) (hstep : IrqStep s op t)
    {n : Nat} (hn : n < 16) (h2 : n ≠ 2) :
    (op.requests n).toNat + (op.spurious n).toNat + (s.pics.pending n).toNat +
        (s.beforeCall n).toNat =
      (op.calls n).toNat + (op.withdraws n).toNat + (t.pics.pending n).toNat +
        (t.beforeCall n).toNat := by
  cases hstep with
  | @request m hm _ hpend =>
    have hafter := Pics.pending_request (s := s.pics) hm h2 hn
    by_cases hmn : m = n
    · subst hmn
      simp [beforeCall, hafter, hpend]
    · simp [beforeCall, hafter, hmn]
  | @withdraw m hm hpend =>
    have hafter := Pics.pending_withdraw (s := s.pics) hm h2 hn
    by_cases hmn : m = n
    · subst hmn
      simp [beforeCall, hafter, hpend]
    · simp [beforeCall, hafter, hmn]
  | init hpc _ => exact absurd hpc (hinit _)
  | sti hpc => exact absurd hpc (hinit _)
  | @take a r hpc _ ha =>
    obtain ⟨m, hans⟩ := h.answers hpc ha
    have hafter := hans.pending h2 hn
    have hvector := toNat_vector hans
    simp only [beforeCall, hpc, hafter, hvector,
      Nat.add_sub_cancel_left, Nat.add_left_cancel_iff]
    by_cases hmn : m = n
    · subst hmn
      cases hgenuine : a.genuine with
      | true => simp [hans.pending_of_genuine hgenuine]
      | false => simp [Nat.add_comm]
    · simp [hmn]
  | setIfr hpc => simp [beforeCall, hpc]
  | @outb r intNo port d rest pics hpc hout =>
    obtain ⟨-, ⟨⟨hport, rfl⟩, -⟩, -⟩ := h.at hpc
    simp [beforeCall, hpc, Pics.pending_eoi hport h2 hout]
  | @call r intNo rest hpc =>
    obtain ⟨-, -, ⟨m, -, hintNo⟩, -⟩ := h.at hpc
    simp [beforeCall, hpc, hintNo]
    omega
  | install => simp [beforeCall]
  | uninstall => simp [beforeCall]
  | work hpc hpc' hpics _ => simp [beforeCall, hpc, hpc', hpics]

/-- Without a request only the last lines of the controllers are taken. -/
theorem Ok.spurious (h : s.Ok) (hrun : Run IrqStep s ops t) {n : Nat} (h7 : n ≠ 7) (h15 : n ≠ 15) :
    ops.countP (IrqOp.spurious n) = 0 := by
  induction hrun with
  | nil => rfl
  | @snoc u v ops op hrun hstep ih =>
    rw [List.countP_append, ih, List.countP_singleton]
    cases hstep with
    | @take a r hpc _ ha =>
      obtain ⟨m, hans⟩ := (h.run hrun).answers hpc ha
      simp only [IrqOp.spurious, toNat_vector hans, Nat.add_sub_cancel_left]
      cases hgenuine : a.genuine with
      | true => simp
      | false =>
        have hne : m ≠ n := by
          rintro rfl
          rcases hans.last_of_not_genuine hgenuine with h | h
          · exact h7 h
          · exact h15 h
        simp [hne]
    | _ => rfl

end IrqState

/-! ## A tick -/

/-- The controllers before and after `idt_init`. -/
def coldPics : Pics :=
  ⟨⟨0, 0, 0, 0, 0, false, false, false, .ready⟩, ⟨0, 0, 0, 0, 0, false, false, false, .ready⟩⟩

def openPics : Pics :=
  ⟨⟨0, 0, 0, 0x20, 4, false, false, true, .ready⟩, ⟨0, 0, 0, 0x28, 2, false, false, true, .ready⟩⟩

def irqBoot : IrqState := ⟨coldPics, false, .init picInit, fun _ => 0, 0, fun _ => 0⟩

theorem boot_irqBoot : irqBoot.Boot := ⟨rfl, rfl, fun _ => rfl⟩

/-- `idt_init` to its end. -/
theorem IrqState.run_init {s : IrqState} {ws : List (BitVec 16 × BitVec 8)} {p : Pics}
    (hpc : s.pc = .init ws) (h : s.pics.outbs ws = some p) :
    Run IrqStep s (List.replicate ws.length .init) { s with pics := p, pc := .init [] } := by
  induction ws generalizing s with
  | nil =>
    cases h
    have hs : { s with pics := s.pics, pc := .init [] } = s := by rw [← hpc]
    rw [hs]
    exact .nil s
  | cons w ws ih =>
    rw [Pics.outbs, List.foldlM_cons] at h
    obtain ⟨q, hq, hrest⟩ := Option.bind_eq_some_iff.mp h
    exact Run.append (.snoc (.nil s) (.init hpc hq)) (ih (s := { s with pics := q, pc := .init ws })
      rfl hrest)

/-- The timer is installed. -/
def tickStart : IrqState :=
  ⟨openPics, true, .other, intInstallHandler (fun _ => 0) 32 0xc0103000, 0x7000, fun _ => 0⟩

def bootTick : List IrqOp := List.replicate 10 .init ++ [.init, .install 32 0xc0103000, .work]

theorem run_bootTick : Run IrqStep irqBoot bootTick tickStart := by
  have h : irqBoot.pics.outbs picInit = some openPics := by decide +kernel
  have hrun := IrqState.run_init rfl h
  exact ((hrun.snoc (.sti rfl)).snoc .install).snoc (.work rfl rfl rfl rfl)

/-- The timer requests an interrupt, and `irq_handler` calls its handler. -/
def tickRequest : IrqState := { tickStart with pics := openPics.request 0 }

def tickTaken : IrqState :=
  { tickRequest with
    pics := ⟨{ openPics.master with isr := 1 }, openPics.slave⟩
    interrupts := false
    pc := .handler 0x5f9c 32 (irqHandler 32) }

def tickSaved : IrqState :=
  { tickTaken with
    pc := .handler 0x5f9c 32 [.outb 0x20 0x20, .call]
    ifr := Function.update tickTaken.ifr 0x7000 0x5f9c }

def tickEnded : IrqState :=
  { tickSaved with pics := openPics, pc := .handler 0x5f9c 32 [.call] }

def tickOps : List IrqOp := [.request 0, .take 0 true 0x5f9c, .stmt, .stmt]

theorem step_tickTaken : IrqStep tickRequest (.take 0 true 0x5f9c) tickTaken :=
  .take (a := ⟨32, true, ⟨{ openPics.master with isr := 1 }, openPics.slave⟩⟩) rfl rfl (by decide)

theorem run_tickOps : Run IrqStep tickStart tickOps tickEnded := by
  have h : Run IrqStep tickStart [.request 0] tickRequest :=
    .snoc (.nil _) (.request (by decide) (by decide) (by decide))
  have h := h.snoc step_tickTaken
  have h : Run IrqStep tickStart _ tickSaved := h.snoc (.setIfr rfl)
  exact h.snoc (.outb rfl (by decide))

theorem step_tickCalled :
    IrqStep tickEnded (.call 0 0xc0103000) { tickEnded with pc := .other } :=
  @IrqStep.call tickEnded 0x5f9c 32 [] rfl

theorem irq_handler_called_tick : 0 < 16 ∧
    (0xc0103000 : U32) = IrqState.lastInstalled (.ofNat 8 (32 + 0)) (bootTick ++ tickOps) ∧
      tickEnded.interrupts = false ∧ tickEnded.pics.master.isr = 0 ∧
      tickEnded.pics.slave.isr = 0 :=
  IrqState.irq_handler_called boot_irqBoot (Run.append run_bootTick run_tickOps)
    step_tickCalled

theorem irq_acknowledge_tick : tickRequest.pics.master.isr = 0 ∧ tickRequest.pics.slave.isr = 0 ∧
    ∃ n a, tickRequest.pics.acknowledge = some a ∧ a.vector.toNat = 32 + n ∧
      (a.genuine = true → n < 16 ∧ tickRequest.pics.pending n = true ∧
        tickRequest.pics.QuietBelow (Pics.rank n)) ∧
      (a.genuine = false → n = 7 ∧ tickRequest.pics.QuietBelow 16 ∨
        n = 15 ∧ tickRequest.pics.QuietBelow 10) :=
  IrqState.irq_acknowledge boot_irqBoot
    (run_bootTick.snoc (.request (n := 0) (by decide) (by decide) (by decide))) rfl

end PiggyOS
