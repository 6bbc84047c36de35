import PiggyOS.Cpu.Interrupt

/-!
# Tasks that are interrupted

The processor with all of its registers, the tasks and their stacks. Between two steps that are
modelled the running code does what it likes, except in the stacks of other tasks and in the saved
registers of interrupts that it has yet to return from. Interrupts come at any time, inside of
handlers too, and handlers call `schedule`, so that other tasks run, are interrupted and switch
back. Each interrupt ends with the registers it began with.
-/

namespace PiggyOS

open Infra Mem

/-- An interrupt that was not returned from: what the processor was doing, the TSS at that time,
the error code and the number. -/
structure Pending where
  old : Cpu
  tss : Tss
  code : Option U32
  number : Nat

namespace Pending

variable (p : Pending)

/-- Where its `regs_t` lies. -/
def addr : U32 := p.old.regsAddr p.tss p.code p.number

/-- The words of the `regs_t`. -/
def size : Nat := p.old.aboveNumber p.code p.number + 13

/-- The `regs_t` is as the stub has built it. -/
def InMem (mem : Mem) : Prop :=
  mem.popWords p.addr p.size = (p.old.savedWords p.tss p.code p.number).reverse

end Pending

/-- The processor, the TSS and the variables of the scheduler. The last two fields are bookkeeping:
the stack of each task and the interrupts that it has yet to return from, last one first. -/
structure World extends Cpu where
  tss : Tss
  currentTask : U32
  kstack : U32 → U32
  stackOf : U32 → Option Region
  frames : U32 → List Pending

namespace World

variable (w : World)

/-- The part of the state that `context_switch` works on. -/
def machine : Machine where
  eax := w.eax
  ebx := w.ebx
  esi := w.esi
  edi := w.edi
  ebp := w.ebp
  esp := w.esp
  eip := w.eip
  eflags := w.eflags
  cs := w.cs.setWidth 32
  mem := w.mem
  currentTask := w.currentTask
  kstack := w.kstack
  stackOf := w.stackOf

/-- The state after a step of this part. -/
def withMachine (m : Machine) : World :=
  { w with
    eax := m.eax
    ebx := m.ebx
    esi := m.esi
    edi := m.edi
    ebp := m.ebp
    esp := m.esp
    eip := m.eip
    eflags := m.eflags
    cs := m.cs.setWidth 16
    mem := m.mem
    currentTask := m.currentTask
    kstack := m.kstack
    stackOf := m.stackOf }

/-- The end of `schedule`: `tss_set_stack` and `context_switch`. All tasks have the same kernel
memory, so that `switch_page_directory` does not show here. -/
def switchTo (next : U32) : World :=
  { w with tss := tssSetStack w.tss 0x10 (w.kstack next) }.withMachine w.machine.contextSwitch

/-- The running task is interrupted and comes to a handler. -/
def interrupt (g : Gate) (code : Option U32) (handler ret : U32) (n : Nat) : World :=
  { w with
    toCpu := w.toCpu.interrupted w.tss g code handler ret n
    frames := Function.update w.frames w.currentTask
      (⟨w.toCpu, w.tss, code, n⟩ :: w.frames w.currentTask) }

/-- The handler has returned and the stub ends with `iret`. -/
def leave (gdt : Gdt) : World :=
  { w with
    toCpu := w.toCpu.leaveStub gdt
    frames := Function.update w.frames w.currentTask (w.frames w.currentTask).tail }

/-- `task_create`, which starts `func` on the stack `stack`; `ifr` is the saved interrupt frame of
the creating task, or NULL. -/
def create (t : U32) (stack : Region) (ifr func : U32) : World :=
  { w with
    mem := (buildStack w.mem stack.base ifr func).mem
    kstack := Function.update w.kstack t (buildStack w.mem stack.base ifr func).kstack
    stackOf := Function.update w.stackOf t (some stack) }

/-- The lowest of the saved registers of the running task is at least `n` bytes above the stack
pointer. -/
def Below (n : Nat) : Prop := ∀ p ∈ w.frames w.currentTask, w.esp.toNat + n ≤ p.addr.toNat

/-- The stack pointer of code in the kernel. -/
def InStack : Prop := ∀ r, w.stackOf w.currentTask = some r → w.esp.toNat ≤ r.base.toNat + r.size

end World

/-! ## Steps -/

/-- A step: the running code works until the state is `w'`, an interrupt comes, a handler returns,
a task is created, or the scheduler switches. -/
inductive PreemptOp
  | work (w' : World)
  | interrupt (g : Gate) (code : Option U32) (handler ret : U32) (n : Nat)
  | leave
  | create (t : U32) (stack : Region) (ifr func : U32)
  | switch (next : U32)

/-- What the running code may do. Code in the kernel stays in its stack and below the registers
that interrupts have saved there; user code runs when no interrupt is pending. -/
structure World.Works (w w' : World) : Prop where
  machine : w.machine.Works w'.machine
  tss : w'.tss = w.tss
  frames : w'.frames = w.frames
  saved : ∀ p ∈ w.frames w.currentTask, w'.mem.popWords p.addr p.size = w.mem.popWords p.addr p.size
  kernel : w'.cpl = 0 → w'.InStack ∧ w'.Below 4
  user : w'.cpl ≠ 0 → w'.frames w'.currentTask = [] ∧ w'.currentTask ≠ 0

/-- The stack that an interrupt goes to has room below it. -/
def World.HasRoom (w : World) : Prop :=
  ∃ r, w.stackOf w.currentTask = some r ∧
    r.base.toNat + 88 ≤ (w.toCpu.interruptStack w.tss).toNat

inductive PreemptStep (gdt : Gdt) : World → PreemptOp → World → Prop
  | work {w w' : World} : w.Works w' → PreemptStep gdt w (.work w') w'
  | interrupt {w : World} {g : Gate} {code : Option U32} {handler ret : U32} {n : Nat} :
      code.isSome = Cpu.errorCodeStub n → g.selector = 0x08 → w.toCpu.SegmentsOk gdt → w.HasRoom →
      PreemptStep gdt w (.interrupt g code handler ret n) (w.interrupt g code handler ret n)
  | leave {w : World} {p : Pending} {rest : List Pending} : w.cpl = 0 →
      w.frames w.currentTask = p :: rest → w.esp + 4 = p.addr →
      PreemptStep gdt w .leave (w.leave gdt)
  | create {w : World} {t ifr func : U32} {stack : Region} : w.cpl = 0 → t ≠ 0 →
      w.machine.FreshStack t stack →
      PreemptStep gdt w (.create t stack ifr func) (w.create t stack ifr func)
  | switch {w : World} {next : U32} : w.cpl = 0 → w.machine.CallInStack → w.Below 8 →
      w.machine.arg = next → next ≠ 0 → w.stackOf next ≠ none →
      PreemptStep gdt w (.switch next) (w.switchTo next)

/-- Before `multitasking_init`. -/
structure World.Boot (w : World) : Prop where
  machine : w.machine.Boot
  cpl : w.cpl = 0
  inStack : w.InStack
  frames : ∀ t, w.frames t = []

/-! ## The invariant -/

/-- The interrupts of a task with the stack `r`, last one first: their registers are in memory, each
below those of the interrupt before it, and only the first one can have interrupted user code. -/
structure FramesOk (gdt : Gdt) (r : Region) (mem : Mem) (l : List Pending) : Prop where
  inMem : ∀ p ∈ l, p.InMem mem
  covers : ∀ p ∈ l, r.Covers p.addr.toNat (4 * p.size)
  agrees : ∀ p ∈ l, p.code.isSome = Cpu.errorCodeStub p.number
  segments : ∀ p ∈ l, p.old.SegmentsOk gdt
  order : l.Pairwise fun p q => p.old.cpl = 0 ∧ p.addr.toNat + 4 * p.size + 4 ≤ q.addr.toNat

structure World.Ok (gdt : Gdt) (w : World) : Prop where
  stacksOk : w.machine.StacksOk
  kstack : ∀ t r, t ≠ 0 → w.stackOf t = some r → r.Covers (w.kstack t).toNat 24
  esp0 : w.currentTask ≠ 0 → ∀ r, w.stackOf w.currentTask = some r → r.Covers w.tss.esp0.toNat 24
  frames : ∀ t r, w.stackOf t = some r → FramesOk gdt r w.mem (w.frames t)
  noFrames : ∀ t, w.stackOf t = none → w.frames t = []
  task : ∀ t, ∀ p ∈ w.frames t, p.old.cpl ≠ 0 → t ≠ 0
  kernel : w.cpl = 0 → w.InStack ∧ w.Below 4
  user : w.cpl ≠ 0 → w.frames w.currentTask = [] ∧ w.currentTask ≠ 0
  suspended : ∀ t, t ≠ w.currentTask → ∀ p ∈ w.frames t, (w.kstack t).toNat + 28 ≤ p.addr.toNat

section

variable {gdt : Gdt} {w w' : World} {r r' : Region} {mem mem' : Mem} {l : List Pending}
  {p : Pending} {t : U32}

/-- Parts of disjoint regions. -/
theorem disjoint_of_covers {a b : U32} {n k : Nat} (hdisj : r.Disjoint r') (ha : r.Covers a.toNat n)
    (hb : r'.Covers b.toNat k) (hn : a.toNat + n ≤ 2 ^ 32) (hk : b.toNat + k ≤ 2 ^ 32) :
    Region.Disjoint ⟨a, n, hn⟩ ⟨b, k, hk⟩ := by
  obtain ⟨hlo, hhi⟩ := ha
  obtain ⟨hlo', hhi'⟩ := hb
  rcases hdisj with h | h
  · exact Or.inl (by show a.toNat + n ≤ b.toNat; omega)
  · exact Or.inr (by show b.toNat + k ≤ a.toNat; omega)

namespace FramesOk

theorem nil (gdt : Gdt) (r : Region) (mem : Mem) : FramesOk gdt r mem [] :=
  ⟨by simp, by simp, by simp, by simp, .nil⟩

/-- Nothing changes if the words do not. -/
theorem congr (h : FramesOk gdt r mem l)
    (hkeep : ∀ p ∈ l, mem'.popWords p.addr p.size = mem.popWords p.addr p.size) :
    FramesOk gdt r mem' l :=
  ⟨fun p hp => (hkeep p hp).trans (h.inMem p hp), h.covers, h.agrees, h.segments, h.order⟩

theorem sameOn (h : FramesOk gdt r mem l) (hsame : SameOn r mem mem') : FramesOk gdt r mem' l :=
  h.congr fun p hp => hsame.popWords (h.covers p hp)

theorem tail (h : FramesOk gdt r mem (p :: l)) : FramesOk gdt r mem l where
  inMem := fun q hq => h.inMem q (List.mem_cons_of_mem p hq)
  covers := fun q hq => h.covers q (List.mem_cons_of_mem p hq)
  agrees := fun q hq => h.agrees q (List.mem_cons_of_mem p hq)
  segments := fun q hq => h.segments q (List.mem_cons_of_mem p hq)
  order := (List.pairwise_cons.mp h.order).2

/-- The registers of one interrupt are not touched by writes to a region beside them. -/
theorem popWords_of_disjoint (h : FramesOk gdt r mem l) (hp : p ∈ l)
    (hsame : ∀ hfits, SameOn ⟨p.addr, 4 * p.size, hfits⟩ mem mem') :
    mem'.popWords p.addr p.size = mem.popWords p.addr p.size := by
  have hcov := h.covers p hp
  have hfits := r.fits
  exact (hsame (Nat.le_trans hcov.2 hfits)).popWords ⟨Nat.le_refl _, Nat.le_refl _⟩

end FramesOk

namespace World

theorem Boot.ok (h : w.Boot) : w.Ok gdt where
  stacksOk := h.machine.stacksOk
  kstack := by
    intro t r ht hr
    rw [show w.stackOf t = none from h.machine.noStack t ht] at hr
    cases hr
  esp0 := fun ht => absurd h.machine.currentTask ht
  frames := by
    intro t r _
    rw [h.frames]
    exact .nil gdt r w.mem
  noFrames := fun t _ => h.frames t
  task := by
    intro t p hp
    rw [h.frames] at hp
    cases hp
  kernel := by
    refine fun _ => ⟨h.inStack, ?_⟩
    intro p hp
    rw [h.frames] at hp
    cases hp
  user := fun hne => absurd h.cpl hne
  suspended := by
    intro t _ p hp
    rw [h.frames] at hp
    cases hp

/-! ## Work -/

theorem Ok.works (h : w.Ok gdt) (hw : w.Works w') : w'.Ok gdt := by
  have hcurrent : w'.currentTask = w.currentTask := hw.machine.currentTask
  have hkstack : w'.kstack = w.kstack := hw.machine.kstack
  have hstackOf : w'.stackOf = w.stackOf := hw.machine.stackOf
  refine ⟨h.stacksOk.works hw.machine, ?_, ?_, ?_, ?_, ?_, hw.kernel, hw.user, ?_⟩
  · rw [hkstack, hstackOf]
    exact h.kstack
  · rw [hcurrent, hstackOf, hw.tss]
    exact h.esp0
  · intro t r hr
    rw [hstackOf] at hr
    rw [hw.frames]
    by_cases ht : t = w.currentTask
    · subst ht
      exact (h.frames _ r hr).congr hw.saved
    · exact (h.frames t r hr).sameOn (hw.machine.mem t r ht hr)
  · rw [hstackOf, hw.frames]
    exact h.noFrames
  · rw [hw.frames]
    exact h.task
  · rw [hcurrent, hkstack, hw.frames]
    exact h.suspended

/-! ## Creation -/

section Create

variable {stack : Region} {ifr func : U32}

theorem sameOn_create (hfresh : w.machine.FreshStack t stack) {u : U32}
    (hr : w.stackOf u = some r) : SameOn r w.mem (w.create t stack ifr func).mem := by
  by_cases hifr : ifr = 0
  · subst hifr
    have h : SameOn r w.mem (w.machine.initStack t stack func).mem := hfresh.sameOn_initStack hr
    rwa [initStack_eq_buildStack] at h
  · exact sameOn_buildStack hfresh.size hifr (hfresh.disjoint u r hr) w.mem func

theorem covers_create (hfresh : w.machine.FreshStack t stack) :
    stack.Covers (buildStack w.mem stack.base ifr func).kstack.toNat 24 := by
  by_cases hifr : ifr = 0
  · subst hifr
    rw [buildStack_kstack]
    exact hfresh.covers
  · rw [buildStack_kstack_of_ne hifr]
    exact covers_context (covers_copiedFrame hfresh.size)

theorem Ok.ne_currentTask (h : w.Ok gdt) (hfresh : w.machine.FreshStack t stack) :
    t ≠ w.currentTask := h.stacksOk.ne_of_freshStack hfresh

theorem Ok.create (h : w.Ok gdt) (hcpl : w.cpl = 0) (hfresh : w.machine.FreshStack t stack) :
    (w.create t stack ifr func).Ok gdt := by
  have hne := h.ne_currentTask hfresh
  have hinit : (w.machine.initStack t stack func).StacksOk := h.stacksOk.initStack hfresh
  have hkstack : (w.create t stack ifr func).kstack = Function.update w.kstack t
    (buildStack w.mem stack.base ifr func).kstack := rfl
  have hstackOf : (w.create t stack ifr func).stackOf =
    Function.update w.stackOf t (some stack) := rfl
  have hframes : (w.create t stack ifr func).frames = w.frames := rfl
  have hnew : w.frames t = [] := h.noFrames t hfresh.task
  have hsaved : ∀ u r, (u ≠ t → w.stackOf u = some r → r.Covers (w.kstack u).toNat 24) →
      (w.create t stack ifr func).stackOf u = some r →
      r.Covers ((w.create t stack ifr func).kstack u).toNat 24 := by
    intro u r hold hr
    rw [hstackOf] at hr
    rw [hkstack]
    by_cases hu : u = t
    · subst hu
      rw [Function.update_self] at hr ⊢
      cases hr
      exact covers_create hfresh
    · rw [Function.update_of_ne hu] at hr ⊢
      exact hold hu hr
  have hcurrent : (w.create t stack ifr func).stackOf w.currentTask = w.stackOf w.currentTask := by
    rw [hstackOf, Function.update_of_ne hne.symm]
  refine ⟨⟨hinit.running, hinit.disjoint, ?_⟩, ?_, ?_, ?_, ?_, h.task, ?_, ?_, ?_⟩
  · exact fun u r hu => hsaved u r fun _ hr => h.stacksOk.saved u r hu hr
  · exact fun u r hu => hsaved u r fun _ hr => h.kstack u r hu hr
  · intro ht r hr
    exact h.esp0 ht r (hcurrent ▸ hr)
  · intro u r hr
    rw [hstackOf] at hr
    rw [hframes]
    by_cases hu : u = t
    · subst hu
      rw [hnew]
      exact .nil gdt r _
    · rw [Function.update_of_ne hu] at hr
      exact (h.frames u r hr).sameOn (sameOn_create hfresh hr)
  · intro u hu
    rw [hstackOf] at hu
    by_cases hut : u = t
    · rw [hut]
      exact hnew
    · rw [Function.update_of_ne hut] at hu
      exact h.noFrames u hu
  · intro _
    obtain ⟨hin, hbelow⟩ := h.kernel hcpl
    exact ⟨fun r hr => hin r (hcurrent ▸ hr), hbelow⟩
  · exact fun hne => absurd hcpl hne
  · intro u hu p hp
    have hut : u ≠ t := by
      rintro rfl
      rw [hframes, hnew] at hp
      cases hp
    rw [hkstack, Function.update_of_ne hut]
    exact h.suspended u hu p hp

end Create

/-! ## Interrupts -/

section Interrupt

variable {g : Gate} {code : Option U32} {handler ret : U32} {n : Nat}

/-- Where an interrupt pushes: in the stack of the running task, and below the registers that
interrupts have saved there before. -/
structure PushesIn (w : World) (r : Region) : Prop where
  stack : w.stackOf w.currentTask = some r
  low : r.base.toNat + 88 ≤ (w.toCpu.interruptStack w.tss).toNat
  high : (w.toCpu.interruptStack w.tss).toNat ≤ r.base.toNat + r.size
  below : ∀ p ∈ w.frames w.currentTask,
    (w.toCpu.interruptStack w.tss).toNat + 4 ≤ p.addr.toNat ∧ w.cpl = 0

theorem Ok.pushesIn (h : w.Ok gdt) (hroom : w.HasRoom) : ∃ r, w.PushesIn r := by
  obtain ⟨r, hr, hlow⟩ := hroom
  refine ⟨r, hr, hlow, ?_, ?_⟩
  · unfold Cpu.interruptStack
    split
    · exact (h.kernel ‹_›).1 r hr
    · have hcov := h.esp0 (h.user ‹_›).2 r hr
      exact Nat.le_trans (Nat.le_add_right _ 24) hcov.2
  · intro p hp
    by_cases hcpl : w.cpl = 0
    · refine ⟨?_, hcpl⟩
      have hbelow := (h.kernel hcpl).2 p hp
      rwa [Cpu.interruptStack, if_pos hcpl]
    · rw [(h.user hcpl).1] at hp
      cases hp

theorem PushesIn.hasRoom (h : w.PushesIn r) : w.toCpu.HasRoom w.tss :=
  Nat.le_trans (Nat.le_add_left 88 _) h.low

/-- The interrupt that is pending from now on. -/
def pending (w : World) (code : Option U32) (n : Nat) : Pending := ⟨w.toCpu, w.tss, code, n⟩

theorem toNat_addr_pending (code : Option U32) (n : Nat) (h : w.PushesIn r) :
    (w.pending code n).addr.toNat =
      (w.toCpu.interruptStack w.tss).toNat - 4 * (w.pending code n).size :=
  Cpu.toNat_regsAddr code n h.hasRoom

theorem size_pending_le (w : World) (code : Option U32) (n : Nat) : (w.pending code n).size ≤ 20 :=
  Nat.add_le_add_right Cpu.aboveNumber_le 13

/-- A handler runs in the kernel. -/
theorem cpl_interrupt (hgate : g.selector = 0x08) : (w.interrupt g code handler ret n).cpl = 0 := by
  have hcs : (w.interrupt g code handler ret n).cs = g.selector := Cpu.interrupted_cs
  rw [Cpu.cpl, hcs, hgate]
  decide

/-- All that an interrupt pushes, the call of the handler included. -/
theorem sameOn_interrupt (h : w.PushesIn r) (hdisj : ∀ hfits, Region.Disjoint
    ⟨below (w.toCpu.interruptStack w.tss) ((w.pending code n).size + 2),
      4 * ((w.pending code n).size + 2), hfits⟩ r') :
    SameOn r' w.mem (w.interrupt g code handler ret n).mem := by
  have hsize := size_pending_le w code n
  have hlow := h.low
  have hlt := (w.toCpu.interruptStack w.tss).isLt
  have hbase := @toNat_below (w.toCpu.interruptStack w.tss) ((w.pending code n).size + 2)
    (by omega)
  have hmem : (w.interrupt g code handler ret n).mem =
      w.mem.pushWords (w.toCpu.interruptStack w.tss) (w.toCpu.savedWords w.tss code n ++
        [w.toCpu.regsAddr w.tss code n, ret]) := by
    rw [pushWords_append, Cpu.length_savedWords]
    exact Cpu.interrupted_mem
  have hlen : (w.toCpu.savedWords w.tss code n ++ [w.toCpu.regsAddr w.tss code n, ret]).length =
      (w.pending code n).size + 2 := by
    rw [List.length_append, Cpu.length_savedWords]
    rfl
  rw [hmem]
  refine sameOn_pushWords (hdisj (by omega)) ?_ ?_
  · rw [hlen]
    show (below _ _).toNat + _ ≤ _
    omega
  · show _ ≤ (below _ _).toNat + 4 * ((w.pending code n).size + 2)
    omega

/-- The stacks of other tasks, and the registers saved before. -/
theorem popWords_interrupt (g : Gate) (code : Option U32) (handler ret : U32) (n : Nat)
    (h : w.Ok gdt) (hin : w.PushesIn r) {r' : Region}
    (hr' : w.stackOf t = some r') (hp : p ∈ w.frames t) :
    (w.interrupt g code handler ret n).mem.popWords p.addr p.size =
      w.mem.popWords p.addr p.size := by
  have hsize := size_pending_le w code n
  have hlow := hin.low
  have hhigh := hin.high
  have hbase := @toNat_below (w.toCpu.interruptStack w.tss) ((w.pending code n).size + 2)
    (by omega)
  refine (h.frames t r' hr').popWords_of_disjoint hp fun _ => sameOn_interrupt hin fun hfits => ?_
  by_cases ht : t = w.currentTask
  · subst ht
    have hbelow := (hin.below p hp).1
    refine Or.inl ?_
    show (below _ _).toNat + 4 * _ ≤ p.addr.toNat
    omega
  · refine disjoint_of_covers (h.stacksOk.disjoint _ _ _ _ (Ne.symm ht) hin.stack hr') ?_
      ((h.frames t r' hr').covers p hp) _ _
    exact ⟨by omega, by omega⟩

theorem Ok.interrupt (h : w.Ok gdt) (hcode : code.isSome = Cpu.errorCodeStub n)
    (hgate : g.selector = 0x08) (hseg : w.toCpu.SegmentsOk gdt) (hroom : w.HasRoom) :
    (w.interrupt g code handler ret n).Ok gdt := by
  obtain ⟨r, hin⟩ := h.pushesIn hroom
  have hsize := size_pending_le w code n
  have haddr := toNat_addr_pending code n hin
  have hlow := hin.low
  have hhigh := hin.high
  have hframes : (w.interrupt g code handler ret n).frames =
    Function.update w.frames w.currentTask (w.pending code n :: w.frames w.currentTask) := rfl
  have hcurrent : (w.interrupt g code handler ret n).frames w.currentTask =
      w.pending code n :: w.frames w.currentTask := by
    rw [hframes, Function.update_self]
  have hother : ∀ t, t ≠ w.currentTask →
      (w.interrupt g code handler ret n).frames t = w.frames t := by
    intro t ht
    rw [hframes, Function.update_of_ne ht]
  have hesp : (w.interrupt g code handler ret n).esp + 8 = (w.pending code n).addr :=
    Cpu.interrupted_esp_add ..
  have hcpl : (w.interrupt g code handler ret n).cpl = 0 := cpl_interrupt hgate
  have hespNat : (w.interrupt g code handler ret n).esp.toNat + 8 =
      (w.pending code n).addr.toNat := by
    rw [← hesp]
    bv_omega
  refine ⟨⟨h.stacksOk.running, h.stacksOk.disjoint, h.stacksOk.saved⟩, h.kstack, h.esp0, ?_, ?_, ?_,
    ?_, ?_, ?_⟩
  · intro t r' hr'
    have hold := (h.frames t r' hr').congr fun p hp =>
      popWords_interrupt g code handler ret n h hin hr' hp
    by_cases ht : t = w.currentTask
    · subst ht
      have hrr' : r = r' := Option.some.inj (hin.stack.symm.trans hr')
      subst hrr'
      rw [hcurrent]
      refine ⟨?_, ?_, ?_, ?_, ?_⟩
      · exact List.forall_mem_cons.mpr ⟨Cpu.popWords_interrupted hin.hasRoom, hold.inMem⟩
      · refine List.forall_mem_cons.mpr ⟨⟨?_, ?_⟩, hold.covers⟩
        · omega
        · omega
      · exact List.forall_mem_cons.mpr ⟨hcode, hold.agrees⟩
      · exact List.forall_mem_cons.mpr ⟨hseg, hold.segments⟩
      · refine List.pairwise_cons.mpr ⟨fun q hq => ?_, hold.order⟩
        obtain ⟨hbelow, hkernel⟩ := hin.below q hq
        exact ⟨hkernel, by omega⟩
    · rw [hother t ht]
      exact hold
  · intro t ht
    have hne : t ≠ w.currentTask := by
      rintro rfl
      exact absurd (hin.stack.symm.trans ht) (by simp)
    rw [hother t hne]
    exact h.noFrames t ht
  · intro t p hp hne
    by_cases ht : t = w.currentTask
    · subst ht
      rw [hcurrent] at hp
      rcases List.mem_cons.mp hp with rfl | hp
      · exact (h.user hne).2
      · exact h.task _ p hp hne
    · rw [hother t ht] at hp
      exact h.task t p hp hne
  · intro _
    refine ⟨?_, ?_⟩
    · intro r' hr'
      have hrr' : r = r' := Option.some.inj (hin.stack.symm.trans hr')
      subst hrr'
      omega
    · intro p hp
      have hp : p ∈ w.pending code n :: w.frames w.currentTask := hcurrent ▸ hp
      rcases List.mem_cons.mp hp with rfl | hp
      · omega
      · have hbelow := (hin.below p hp).1
        omega
  · exact fun hne => absurd hcpl hne
  · intro t ht p hp
    rw [hother t ht] at hp
    exact h.suspended t ht p hp

end Interrupt

/-! ## Returns -/

section Leave

variable {rest : List Pending}

/-- The registers that the interrupted code goes on with. -/
theorem Ok.leave_context (h : w.Ok gdt) (hcpl : w.cpl = 0)
    (hframes : w.frames w.currentTask = p :: rest) (hesp : w.esp + 4 = p.addr) :
    (w.leave gdt).toContext =
      { p.old.toContext with ss := if p.old.cpl = 0 then w.ss else p.old.ss } := by
  obtain ⟨r, hr⟩ := Option.ne_none_iff_exists'.mp h.stacksOk.running
  have hok := h.frames w.currentTask r hr
  rw [hframes] at hok
  obtain ⟨above, hregs⟩ := Cpu.regsAt_of_words (hok.agrees p (by simp)) (hok.inMem p (by simp))
  refine Cpu.leaveStub_context (by rw [hesp]; exact hregs) hcpl (fun hold => ?_)
    (hok.segments p (by simp))
  rw [hesp]
  exact Cpu.regsAddr_add_of_kernel (hok.agrees p (by simp)) hold

/-- An interrupt in the kernel is the last thing on the stack of what it interrupted. -/
theorem toNat_esp_of_kernel (hok : FramesOk gdt r mem (p :: rest)) (hold : p.old.cpl = 0) :
    p.old.esp.toNat ≤ p.addr.toNat + 4 * p.size ∧ p.old.esp.toNat ≤ r.base.toNat + r.size := by
  have hcode := hok.agrees p (by simp)
  have hcov := hok.covers p (by simp)
  have hsize : p.size = 17 := by rw [Pending.size, Cpu.aboveNumber_of_kernel hcode hold]
  have hesp : p.addr + 68 = p.old.esp := Cpu.regsAddr_add_of_kernel hcode hold
  obtain ⟨hlo, hhi⟩ := hcov
  rw [hsize] at hhi ⊢
  rw [← hesp]
  exact ⟨by bv_omega, by bv_omega⟩

theorem Ok.leave (h : w.Ok gdt) (hcpl : w.cpl = 0) (hframes : w.frames w.currentTask = p :: rest)
    (hesp : w.esp + 4 = p.addr) : (w.leave gdt).Ok gdt := by
  have hcontext := h.leave_context hcpl hframes hesp
  have hcpl' : (w.leave gdt).cpl = p.old.cpl := by
    have hcs : (w.leave gdt).cs = p.old.cs := (congrArg Context.cs hcontext).trans rfl
    rw [Cpu.cpl, hcs]
    rfl
  have hesp' : (w.leave gdt).esp = p.old.esp := (congrArg Context.esp hcontext).trans rfl
  have hmem : (w.leave gdt).mem = w.mem := Cpu.leaveStub_mem _ gdt
  have hcurrent : (w.leave gdt).frames w.currentTask = rest := by
    show Function.update w.frames w.currentTask (w.frames w.currentTask).tail w.currentTask = rest
    rw [Function.update_self, hframes]
    rfl
  have hother : ∀ t, t ≠ w.currentTask → (w.leave gdt).frames t = w.frames t :=
    fun t ht => Function.update_of_ne ht _ _
  have htask : ∀ t, ∀ q ∈ (w.leave gdt).frames t, q ∈ w.frames t := by
    intro t q hq
    by_cases ht : t = w.currentTask
    · subst ht
      rw [hcurrent] at hq
      rw [hframes]
      exact List.mem_cons_of_mem p hq
    · rwa [hother t ht] at hq
  refine ⟨⟨h.stacksOk.running, h.stacksOk.disjoint, h.stacksOk.saved⟩, h.kstack, h.esp0, ?_, ?_, ?_,
    ?_, ?_, ?_⟩
  · intro t r hr
    have hok := h.frames t r hr
    rw [hmem]
    by_cases ht : t = w.currentTask
    · subst ht
      rw [hframes] at hok
      rw [hcurrent]
      exact hok.tail
    · rw [hother t ht]
      exact hok
  · intro t ht
    have hne : t ≠ w.currentTask := by
      rintro rfl
      exact h.stacksOk.running ht
    rw [hother t hne]
    exact h.noFrames t ht
  · exact fun t q hq => h.task t q (htask t q hq)
  · intro hkernel
    rw [hcpl'] at hkernel
    refine ⟨?_, ?_⟩
    · intro r hr
      have hok := h.frames w.currentTask r hr
      rw [hframes] at hok
      rw [hesp']
      exact (toNat_esp_of_kernel hok hkernel).2
    · intro q hq
      have hq : q ∈ rest := hcurrent ▸ hq
      obtain ⟨r, hr⟩ := Option.ne_none_iff_exists'.mp h.stacksOk.running
      have hok := h.frames w.currentTask r hr
      rw [hframes] at hok
      have horder := ((List.pairwise_cons.mp hok.order).1 q hq).2
      have hle := (toNat_esp_of_kernel hok hkernel).1
      rw [hesp']
      omega
  · intro huser
    rw [hcpl'] at huser
    obtain ⟨r, hr⟩ := Option.ne_none_iff_exists'.mp h.stacksOk.running
    have hok := h.frames w.currentTask r hr
    rw [hframes] at hok
    refine ⟨?_, h.task w.currentTask p (by rw [hframes]; simp) huser⟩
    show (w.leave gdt).frames w.currentTask = []
    rw [hcurrent]
    exact List.eq_nil_iff_forall_not_mem.mpr fun q hq =>
      huser ((List.pairwise_cons.mp hok.order).1 q hq).1
  · exact fun t ht q hq => h.suspended t ht q (htask t q hq)

end Leave

/-! ## Switches -/

section Switch

variable {next : U32}

theorem switchTo_mem (w : World) (next : U32) :
    (w.switchTo next).mem = w.machine.contextSwitch.mem := rfl

/-- The registers that interrupts have saved are not touched by a switch. -/
theorem popWords_switchTo (h : w.Ok gdt) (hin : w.machine.CallInStack) (hbelow : w.Below 8)
    (hnext : w.stackOf w.machine.arg ≠ none) (hr : w.stackOf t = some r) (hp : p ∈ w.frames t) :
    w.machine.contextSwitch.mem.popWords p.addr p.size = w.mem.popWords p.addr p.size := by
  obtain ⟨rc, hrc⟩ := Option.ne_none_iff_exists'.mp h.stacksOk.running
  obtain ⟨rn, hrn⟩ := Option.ne_none_iff_exists'.mp hnext
  have hcall := hin.covers hrc
  have hsaved := h.stacksOk.saved_saveContext hin hrn
  have hfitsc := rc.fits
  have hfitsn := rn.fits
  have hcov := (h.frames t r hr).covers p hp
  have hesp : (w.machine.esp - 20).toNat + 20 = w.esp.toNat := by
    obtain ⟨_, _, hesp, _⟩ := hin
    have hesp : 20 ≤ w.esp.toNat := hesp
    show (w.esp - 20).toNat + 20 = w.esp.toNat
    bv_omega
  refine (h.frames t r hr).popWords_of_disjoint hp fun hfits => ?_
  have hsave : SameOn ⟨p.addr, 4 * p.size, hfits⟩ w.mem w.machine.saveContext.mem := by
    rw [Machine.saveContext_mem]
    refine sameOn_writeFrame (r := ⟨w.machine.esp - 20, 24, by have := hcall.2; omega⟩) ?_
      ⟨Nat.le_refl _, Nat.le_refl _⟩ _ _
    by_cases ht : t = w.currentTask
    · subst ht
      have hp' := hbelow p hp
      exact Or.inl (by show (w.machine.esp - 20).toNat + 24 ≤ p.addr.toNat; omega)
    · exact disjoint_of_covers (h.stacksOk.disjoint _ _ _ _ (Ne.symm ht) hrc hr) hcall hcov _ _
  refine hsave.trans ?_
  have htarget : w.machine.saveContext.target = w.machine.arg := Machine.target_saveContext
  have hfits' : (w.machine.saveContext.kstack w.machine.arg).toNat + 24 ≤ 2 ^ 32 := by
    have hhi := hsaved.2
    omega
  refine Machine.sameOn_restoreContext (show Region.Disjoint ⟨_, 24, hfits'⟩ _ from ?_) ?_
  · by_cases ht : t = w.machine.arg
    · refine Or.inl ?_
      show (w.machine.saveContext.kstack w.machine.arg).toNat + 24 ≤ p.addr.toNat
      rw [Machine.saveContext_kstack]
      by_cases hc : w.machine.arg = w.machine.currentTask
      · have hp' := hbelow p (by rw [ht, hc] at hp; exact hp)
        rw [hc, Function.update_self]
        omega
      · have hp' := h.suspended t (by rw [ht]; exact hc) p hp
        rw [Function.update_of_ne hc, ← ht]
        exact Nat.le_trans (Nat.add_le_add_left (by decide) _) hp'
    · exact disjoint_of_covers (h.stacksOk.disjoint _ _ _ _ (Ne.symm ht) hrn hr) hsaved hcov _ _
  · rw [htarget]
    exact ⟨Nat.le_refl _, Nat.le_refl _⟩

/-- What a switch does, apart from the memory. -/
structure Switched (w : World) (next : U32) (w' : World) : Prop where
  currentTask : w'.currentTask = next
  kstack : w'.kstack = Function.update w.kstack w.currentTask (w.esp - 20)
  stackOf : w'.stackOf = w.stackOf
  frames : w'.frames = w.frames
  esp0 : w'.tss.esp0 = w.kstack next
  cpl : w'.cpl = w.cpl
  esp : w'.esp = w'.kstack next + 24

theorem switched_withMachine (w : World) {m : Machine} {next : U32}
    (hcurrent : m.currentTask = next)
    (hkstack : m.kstack = Function.update w.kstack w.currentTask (w.esp - 20))
    (hstackOf : m.stackOf = w.stackOf) (hcs : m.cs = w.cs.setWidth 32)
    (hesp : m.esp = m.kstack next + 24) :
    w.Switched next ({ w with tss := tssSetStack w.tss 0x10 (w.kstack next) }.withMachine m) where
  currentTask := hcurrent
  kstack := hkstack
  stackOf := hstackOf
  frames := rfl
  esp0 := rfl
  cpl := by
    have hcs' : m.cs.setWidth 16 = w.cs := by rw [hcs, Cpu.setWidth_selector]
    exact congrArg (BitVec.extractLsb' 0 2) hcs'
  esp := hesp

theorem contextSwitch_stackOf (m : Machine) : m.contextSwitch.stackOf = m.stackOf := by
  rw [Machine.contextSwitch, Machine.restoreContext_eq rfl, Machine.saveContext_eq]

theorem switched_switchTo (w : World) :
    w.Switched w.machine.arg (w.switchTo w.machine.arg) := by
  have hsave := Machine.saveContext_kstack (m := w.machine)
  have hkstack := Machine.contextSwitch_kstack (m := w.machine)
  refine switched_withMachine w Machine.contextSwitch_currentTask hkstack
    (contextSwitch_stackOf w.machine) ?_ ?_
  · rw [Machine.contextSwitch, Machine.restoreContext_eq rfl, Machine.saveContext_eq]
    rfl
  · rw [hkstack, ← hsave]
    exact (Machine.contextSwitch_resumes rfl).esp

theorem toNat_esp_sub (hin : w.machine.CallInStack) : w.esp.toNat = (w.esp - 20).toNat + 20 := by
  obtain ⟨_, _, hesp, _⟩ := hin
  have hesp : 20 ≤ w.esp.toNat := hesp
  bv_omega

/-- The saved words of each task, the one that switches included. -/
theorem Ok.covers_switched (h : w.Ok gdt) (hin : w.machine.CallInStack)
    (hw : w.Switched next w') (ht : t = w.currentTask ∨ t ≠ 0) (hr : w.stackOf t = some r) :
    r.Covers (w'.kstack t).toNat 24 := by
  rw [hw.kstack]
  by_cases htc : t = w.currentTask
  · subst htc
    rw [Function.update_self]
    exact hin.covers hr
  · rw [Function.update_of_ne htc]
    exact h.kstack t r (ht.resolve_left htc) hr

/-- Each task is left below the registers that interrupts have saved on its stack. -/
theorem Ok.suspended_switched (h : w.Ok gdt) (hin : w.machine.CallInStack) (hbelow : w.Below 8)
    (hw : w.Switched next w') (hp : p ∈ w.frames t) :
    (w'.kstack t).toNat + 28 ≤ p.addr.toNat := by
  have hesp := toNat_esp_sub hin
  rw [hw.kstack]
  by_cases htc : t = w.currentTask
  · subst htc
    have hp' := hbelow p hp
    rw [Function.update_self]
    omega
  · rw [Function.update_of_ne htc]
    exact h.suspended t htc p hp

theorem Ok.switched (h : w.Ok gdt) (hcpl : w.cpl = 0) (hin : w.machine.CallInStack)
    (hbelow : w.Below 8) (hnull : next ≠ 0) (hnext : w.stackOf next ≠ none)
    (hw : w.Switched next w') (hframes : ∀ t r, w.stackOf t = some r →
      FramesOk gdt r w'.mem (w.frames t)) : w'.Ok gdt := by
  obtain ⟨rn, hrn⟩ := Option.ne_none_iff_exists'.mp hnext
  have hcov := h.covers_switched hin hw (Or.inr hnull) hrn
  have hfits := rn.fits
  refine ⟨⟨?_, ?_, ?_⟩, ?_, ?_, ?_, ?_, ?_, ?_, ?_, ?_⟩
  · show w'.stackOf w'.currentTask ≠ none
    rw [hw.stackOf, hw.currentTask]
    exact hnext
  · show ∀ t u r r', t ≠ u → w'.stackOf t = some r → w'.stackOf u = some r' → r.Disjoint r'
    rw [hw.stackOf]
    exact h.stacksOk.disjoint
  · show ∀ t r, t ≠ w'.currentTask → w'.stackOf t = some r → r.Covers (w'.kstack t).toNat 24
    intro t r ht hr
    rw [hw.stackOf] at hr
    by_cases htc : t = w.currentTask
    · exact h.covers_switched hin hw (Or.inl htc) hr
    · rw [hw.kstack, Function.update_of_ne htc]
      exact h.stacksOk.saved t r htc hr
  · intro t r ht hr
    rw [hw.stackOf] at hr
    exact h.covers_switched hin hw (Or.inr ht) hr
  · intro _ r hr
    rw [hw.stackOf, hw.currentTask] at hr
    rw [hw.esp0]
    exact h.kstack next r hnull hr
  · rw [hw.stackOf, hw.frames]
    exact hframes
  · rw [hw.stackOf, hw.frames]
    exact h.noFrames
  · rw [hw.frames]
    exact h.task
  · refine fun _ => ⟨?_, ?_⟩
    · intro r hr
      rw [hw.stackOf, hw.currentTask, hrn] at hr
      cases hr
      obtain ⟨hlo, hhi⟩ := hcov
      rw [hw.esp]
      bv_omega
    · intro p hp
      rw [hw.frames, hw.currentTask] at hp
      have hp' := h.suspended_switched hin hbelow hw hp
      have hlt := p.addr.isLt
      rw [hw.esp]
      bv_omega
  · intro hne
    rw [hw.cpl] at hne
    exact absurd hcpl hne
  · intro t _ p hp
    rw [hw.frames] at hp
    exact h.suspended_switched hin hbelow hw hp

theorem Ok.switchTo (h : w.Ok gdt) (hcpl : w.cpl = 0) (hin : w.machine.CallInStack)
    (hbelow : w.Below 8) (hnull : w.machine.arg ≠ 0) (hnext : w.stackOf w.machine.arg ≠ none) :
    (w.switchTo w.machine.arg).Ok gdt := by
  refine h.switched hcpl hin hbelow hnull hnext (switched_switchTo w) ?_
  intro t r hr
  rw [switchTo_mem]
  exact (h.frames t r hr).congr fun p hp => popWords_switchTo h hin hbelow hnext hr hp

end Switch

/-! ## Runs -/

variable {op : PreemptOp} {ops : List PreemptOp}

theorem Ok.step (h : w.Ok gdt) (hstep : PreemptStep gdt w op w') : w'.Ok gdt := by
  cases hstep with
  | work hw => exact h.works hw
  | interrupt hcode hgate hseg hroom => exact h.interrupt hcode hgate hseg hroom
  | leave hcpl hframes hesp => exact h.leave hcpl hframes hesp
  | create hcpl _ hfresh => exact h.create hcpl hfresh
  | switch hcpl hin hbelow harg hnull hnext =>
    subst harg
    exact h.switchTo hcpl hin hbelow hnull hnext

theorem Ok.run (h : w.Ok gdt) (hrun : Run (PreemptStep gdt) w ops w') : w'.Ok gdt :=
  hrun.invariant (Ok gdt) (fun _ _ _ h hstep => h.step hstep) h

end World

end

end PiggyOS
