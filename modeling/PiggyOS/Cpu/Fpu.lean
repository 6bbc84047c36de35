import PiggyOS.Infra.Run
import PiggyOS.Task.Basic

/-!
# The floating-point unit (`fpu.c`)

The contents of the FPU registers are values of any type `F`; `fninit` is the one that the
instruction of this name leaves. `fpu_init` sets the bit TS of CR0 and the exception handler
clears it; nothing sets it again, so that the handler runs once and all tasks share the registers
from then on.
-/

namespace PiggyOS

open Infra

variable {F : Type}

/-- An FPU instruction that was executed: by which task, on which contents of the registers, and
what it left there. -/
structure FpuUse (F : Type) where
  task : U32
  seen : F
  left : F
  deriving DecidableEq

/-- The registers, what `fxsave` has left in memory, the variables of `fpu.c` and the tasks. The
last two fields are bookkeeping: the tasks that exist and the FPU instructions, last one first. -/
structure Fpu (F : Type) where
  regs : F
  cr0 : U32
  cr4 : U32
  saved : U32 → F
  lastFpuTask : U32
  currentTask : U32
  tasks : U32 → Task
  live : U32 → Bool
  uses : List (FpuUse F)

namespace Fpu

variable (fninit : F) (s : Fpu F)

/-- The bit TS of CR0. -/
def taskSwitched : Bool := s.cr0.getLsbD 3

/-- `clts` -/
def clts : Fpu F := { s with cr0 := s.cr0 &&& ~~~8 }

/-- `fxsave` -/
def fxsave (addr : U32) : Fpu F := { s with saved := Function.update s.saved addr s.regs }

/-- `fxrstor` -/
def fxrstor (addr : U32) : Fpu F := { s with regs := s.saved addr }

/-- `fpu_exception_handler` -/
def fpuExceptionHandler : Fpu F :=
  let s := s.clts
  let task := s.tasks s.currentTask
  let s := if s.lastFpuTask ≠ 0 then s.fxsave task.fpuState else s
  let s :=
    if !task.fpuUsed then
      let s := { s with regs := fninit }.fxsave task.fpuState
      { s with tasks := Function.update s.tasks s.currentTask { task with fpuUsed := true } }
    else s.fxrstor task.fpuState
  { s with lastFpuTask := s.currentTask }

/-- `fpu_init`, on a processor that has an FPU or not. -/
def fpuInit (feature : Bool) : Fpu F :=
  if !feature then s
  else
    { s with
      regs := fninit
      -- enable FPU native exceptions and task switched bits
      cr0 := s.cr0 ||| 0x018
      -- set OSFXSR bit to enable saving the SSE state
      cr4 := s.cr4 ||| 0x200 }

/-- The current task executes an FPU instruction, which makes `f r` of the contents `r`. The
processor raises the exception first if TS is set. -/
def instruction (f : F → F) : Fpu F :=
  let s := if s.taskSwitched then s.fpuExceptionHandler fninit else s
  { s with regs := f s.regs, uses := ⟨s.currentTask, s.regs, f s.regs⟩ :: s.uses }

/-- `task_create`, as far as the FPU goes: `fpu_state` and `fpu_used` stay as `kcalloc` leaves
them. -/
def create (t : U32) : Fpu F :=
  { s with tasks := Function.update s.tasks t zeroTask, live := Function.update s.live t true }

/-- `context_switch`, as far as the FPU goes. -/
def switch (t : U32) : Fpu F := { s with currentTask := t }

/-- When `fpu_init` is called there are no tasks. -/
structure Boot : Prop where
  lastFpuTask : s.lastFpuTask = 0
  currentTask : s.currentTask = 0
  live : ∀ t, s.live t = false
  uses : s.uses = []

end Fpu

/-! ## Steps -/

inductive FpuOp (F : Type)
  | create (t : U32)
  | switch (t : U32)
  | instruction (f : F → F)

inductive FpuStep (fninit : F) : Fpu F → FpuOp F → Fpu F → Prop
  | create {s : Fpu F} {t : U32} : t ≠ 0 → s.live t = false →
      FpuStep fninit s (.create t) (s.create t)
  | switch {s : Fpu F} {t : U32} : s.live t = true → FpuStep fninit s (.switch t) (s.switch t)
  | instruction {s : Fpu F} {f : F → F} : s.currentTask ≠ 0 →
      FpuStep fninit s (.instruction f) (s.instruction fninit f)

/-- Which steps are taken, without what the instructions do. -/
def FpuOp.erase : FpuOp F → FpuOp Unit
  | create t => .create t
  | switch t => .switch t
  | instruction _ => .instruction id

/-- The current task after a step, and the tasks that have executed FPU instructions. -/
def FpuOp.track (p : U32 × List U32) : FpuOp F → U32 × List U32
  | create _ => p
  | switch t => (t, p.2)
  | instruction _ => (p.1, p.1 :: p.2)

/-- The tasks that execute the FPU instructions of an interleaving, last one first. -/
def fpuUsers (ops : List (FpuOp F)) : List U32 := (ops.foldl FpuOp.track (0, [])).2

/-! ## Isolation -/

/-- What `t` left in the registers, or the state after `fninit`. -/
def lastLeft (fninit : F) (t : U32) (uses : List (FpuUse F)) : F :=
  match uses.find? (·.task = t) with
  | some use => use.left
  | none => fninit

/-- Every instruction saw what its task had left. -/
def Isolated (fninit : F) : List (FpuUse F) → Prop
  | [] => True
  | use :: uses => use.seen = lastLeft fninit use.task uses ∧ Isolated fninit uses

/-- Every instruction saw what the instruction before it had left, whoever executed it. -/
def Shared (fninit : F) : List (FpuUse F) → Prop
  | [] => True
  | use :: uses => use.seen = (uses.head?.map FpuUse.left).getD fninit ∧ Shared fninit uses

theorem lastLeft_cons_self (fninit : F) (use : FpuUse F) (uses : List (FpuUse F)) :
    lastLeft fninit use.task (use :: uses) = use.left := by
  simp [lastLeft]

theorem lastLeft_of_notMem {fninit : F} {t : U32} {uses : List (FpuUse F)}
    (h : ∀ use ∈ uses, use.task ≠ t) : lastLeft fninit t uses = fninit := by
  have hfind : uses.find? (·.task = t) = none := by simpa using h
  simp [lastLeft, hfind]

/-- A single user of shared registers is isolated. -/
theorem Shared.isolated {fninit : F} {uses : List (FpuUse F)} (h : Shared fninit uses)
    (hone : ∀ t ∈ uses.map FpuUse.task, ∀ u ∈ uses.map FpuUse.task, t = u) :
    Isolated fninit uses := by
  induction uses with
  | nil => trivial
  | cons use uses ih =>
    obtain ⟨hseen, hrest⟩ := h
    refine ⟨?_, ih hrest fun t ht u hu =>
      hone t (List.mem_cons_of_mem _ ht) u (List.mem_cons_of_mem _ hu)⟩
    cases uses with
    | nil => simpa [lastLeft] using hseen
    | cons prev uses =>
      have htask : use.task = prev.task := hone _ (by simp) _ (by simp)
      rw [htask, lastLeft_cons_self]
      simpa using hseen

/-- Where every instruction leaves the same other value, only a single user is isolated. -/
theorem Shared.one_user {fninit x : F} {uses : List (FpuUse F)} (h : Shared fninit uses)
    (hx : x ≠ fninit) (hleft : ∀ use ∈ uses, use.left = x) (hiso : Isolated fninit uses) :
    ∀ t ∈ uses.map FpuUse.task, ∀ u ∈ uses.map FpuUse.task, t = u := by
  induction uses with
  | nil => simp
  | cons use uses ih =>
    obtain ⟨hseen, hrest⟩ := h
    obtain ⟨hown, hisorest⟩ := hiso
    have hone := ih hrest (fun use' h' => hleft use' (by simp [h'])) hisorest
    cases uses with
    | nil => simp
    | cons prev uses =>
      have hprev : use.seen = x := by
        rw [hseen]
        exact hleft prev (by simp)
      -- the task has executed an instruction before, since it did not see the initial state
      have hmem : ∃ use' ∈ prev :: uses, use'.task = use.task := by
        by_contra hno
        have hnot : ∀ use' ∈ prev :: uses, use'.task ≠ use.task :=
          fun use' h' heq => hno ⟨use', h', heq⟩
        exact hx (hprev.symm.trans (hown.trans (lastLeft_of_notMem hnot)))
      obtain ⟨use', hmem', htask⟩ := hmem
      have htask' : use.task ∈ (prev :: uses).map FpuUse.task := by
        rw [← htask]
        exact List.mem_map_of_mem hmem'
      rw [List.map_cons]
      intro t ht u hu
      have hall : ∀ v ∈ use.task :: (prev :: uses).map FpuUse.task, v = use.task := by
        intro v hv
        rcases List.mem_cons.mp hv with rfl | hv
        · rfl
        · exact hone v hv _ htask'
      rw [hall t ht, hall u hu]

/-! ## Runs -/

namespace Fpu

variable {fninit : F} {s s' : Fpu F}

/-- TS is set until the first FPU instruction, and from then on the registers hold what the last
one left. -/
structure Ready (fninit : F) (s : Fpu F) : Prop where
  current : s.currentTask ≠ 0 → s.live s.currentTask = true
  unused : s.uses = [] → s.taskSwitched = true ∧ ∀ t, s.live t = true → (s.tasks t).fpuUsed = false
  used : ∀ use, s.uses.head? = some use → s.taskSwitched = false ∧ s.regs = use.left
  shared : Shared fninit s.uses

theorem Boot.ready (h : s.Boot) : (s.fpuInit fninit true).Ready fninit := by
  have huses : (s.fpuInit fninit true).uses = [] := h.uses
  have hcurrent : (s.fpuInit fninit true).currentTask = 0 := h.currentTask
  refine ⟨fun hne => absurd hcurrent hne, fun _ => ⟨?_, ?_⟩, ?_, ?_⟩
  · simp [taskSwitched, fpuInit]
  · intro t ht
    have hlive : (s.fpuInit fninit true).live t = false := h.live t
    rw [hlive] at ht
    cases ht
  · intro use huse
    rw [huses] at huse
    cases huse
  · rw [huses]
    trivial

/-- Apart from the registers and the areas, the handler only clears TS and marks the task. -/
theorem fpuExceptionHandler_keeps (fninit : F) (s : Fpu F) :
    (s.fpuExceptionHandler fninit).cr0 = s.cr0 &&& ~~~8 ∧
      (s.fpuExceptionHandler fninit).currentTask = s.currentTask ∧
      (s.fpuExceptionHandler fninit).live = s.live ∧
      (s.fpuExceptionHandler fninit).uses = s.uses := by
  simp only [fpuExceptionHandler]
  split_ifs <;> exact ⟨rfl, rfl, rfl, rfl⟩

theorem regs_fpuExceptionHandler (fninit : F) (h : (s.tasks s.currentTask).fpuUsed = false) :
    (s.fpuExceptionHandler fninit).regs = fninit := by
  simp [fpuExceptionHandler, clts, fxsave, h]

theorem instruction_keeps (fninit : F) (s : Fpu F) (f : F → F) :
    (s.instruction fninit f).currentTask = s.currentTask ∧
      (s.instruction fninit f).live = s.live ∧
      (s.instruction fninit f).taskSwitched = false := by
  obtain ⟨hcr0, hcurrent, hlive, -⟩ := fpuExceptionHandler_keeps fninit s
  simp only [instruction]
  split_ifs with hts
  · refine ⟨hcurrent, hlive, ?_⟩
    simp [taskSwitched, hcr0]
  · exact ⟨rfl, rfl, eq_false_of_ne_true hts⟩

/-- An instruction finds what the one before it has left. -/
theorem Ready.uses_instruction (h : s.Ready fninit) (hne : s.currentTask ≠ 0) (f : F → F) :
    ∃ seen, seen = (s.uses.head?.map FpuUse.left).getD fninit ∧
      (s.instruction fninit f).uses = ⟨s.currentTask, seen, f seen⟩ :: s.uses ∧
      (s.instruction fninit f).regs = f seen := by
  cases huses : s.uses with
  | nil =>
    obtain ⟨hts, hunused⟩ := h.unused huses
    have hregs := regs_fpuExceptionHandler fninit (hunused _ (h.current hne))
    obtain ⟨-, hcurrent, -, hkept⟩ := fpuExceptionHandler_keeps fninit s
    refine ⟨fninit, rfl, ?_, ?_⟩
    · simp [instruction, hts, hregs, hcurrent, hkept, huses]
    · simp [instruction, hts, hregs]
  | cons use uses =>
    obtain ⟨hts, hregs⟩ := h.used use (by rw [huses]; rfl)
    refine ⟨s.regs, hregs, ?_, ?_⟩
    · simp [instruction, hts, huses]
    · simp [instruction, hts]

theorem Ready.step {op : FpuOp F} (h : s.Ready fninit) (hstep : FpuStep fninit s op s') :
    s'.Ready fninit := by
  cases hstep with
  | @create t hne hfresh =>
    refine ⟨?_, ?_, h.used, h.shared⟩
    · intro hcurrent
      simp [create, h.current hcurrent, Function.update_apply]
    · intro huses
      refine ⟨(h.unused huses).1, ?_⟩
      intro u hu
      by_cases hut : u = t
      · simp [create, hut, zeroTask]
      · simp only [create, Function.update_of_ne hut] at hu ⊢
        exact (h.unused huses).2 u hu
  | switch hlive => exact ⟨fun _ => hlive, h.unused, h.used, h.shared⟩
  | @instruction f hne =>
    obtain ⟨seen, hseen, huses, hregs⟩ := h.uses_instruction hne f
    obtain ⟨hcurrent, hlive, hts⟩ := instruction_keeps fninit s f
    refine ⟨?_, ?_, ?_, ?_⟩
    · rw [hcurrent, hlive]
      exact h.current
    · rw [huses]
      exact fun hnil => nomatch hnil
    · rw [huses]
      rintro use ⟨⟩
      exact ⟨hts, hregs⟩
    · rw [huses]
      exact ⟨hseen, h.shared⟩

theorem Ready.run {ops : List (FpuOp F)} (h : s.Ready fninit)
    (hrun : Run (FpuStep fninit) s ops s') : s'.Ready fninit :=
  hrun.invariant (Ready fninit) (fun _ _ _ h hstep => h.step hstep) h

/-- The tasks of the instructions that were executed are those of the interleaving. -/
theorem Ready.users_eq {ops : List (FpuOp F)} (h : s.Ready fninit)
    (hrun : Run (FpuStep fninit) s ops s') :
    ops.foldl FpuOp.track (s.currentTask, s.uses.map FpuUse.task) =
      (s'.currentTask, s'.uses.map FpuUse.task) := by
  induction hrun with
  | nil => rfl
  | @snoc t u ops op hrun hstep ih =>
    rw [List.foldl_append, ih]
    cases hstep with
    | create _ _ => rfl
    | switch _ => rfl
    | @instruction f hne =>
      obtain ⟨seen, -, huses, -⟩ := (h.run hrun).uses_instruction hne f
      rw [(instruction_keeps fninit t f).1, huses]
      rfl

end Fpu

/-- The same step with an instruction that leaves `x`. -/
def FpuOp.leaving (x : F) : FpuOp F → FpuOp F
  | create t => .create t
  | switch t => .switch t
  | instruction _ => .instruction fun _ => x

theorem FpuOp.erase_leaving (x : F) (op : FpuOp F) : (op.leaving x).erase = op.erase := by
  cases op <;> rfl

theorem FpuOp.track_erase (p : U32 × List U32) (op : FpuOp F) : op.erase.track p = op.track p := by
  cases op <;> rfl

theorem fpuUsers_erase (ops : List (FpuOp F)) : fpuUsers (ops.map FpuOp.erase) = fpuUsers ops := by
  unfold fpuUsers
  rw [List.foldl_map]
  simp only [FpuOp.track_erase]

/-- Whatever the instructions do, the same steps can be taken. -/
theorem Fpu.Ready.exists_run_leaving {fninit : F} {s s' : Fpu F} {ops : List (FpuOp F)}
    (h : s.Ready fninit) (hempty : s.uses = []) (x : F) (hrun : Run (FpuStep fninit) s ops s') :
    ∃ t, Run (FpuStep fninit) s (ops.map (FpuOp.leaving x)) t ∧
      t.currentTask = s'.currentTask ∧ t.live = s'.live ∧ ∀ use ∈ t.uses, use.left = x := by
  induction hrun with
  | nil => exact ⟨s, .nil s, rfl, rfl, by simp [hempty]⟩
  | @snoc u v ops op hrun hstep ih =>
    obtain ⟨t, ht, hcurrent, hlive, hleft⟩ := ih
    rw [List.map_append]
    cases hstep with
    | @create a hne hfresh =>
      refine ⟨t.create a, .snoc ht (.create hne (hlive ▸ hfresh)), hcurrent, ?_, hleft⟩
      simp [Fpu.create, hlive]
    | @switch a ha => exact ⟨t.switch a, .snoc ht (.switch (hlive ▸ ha)), rfl, hlive, hleft⟩
    | @instruction f hne =>
      have hne' : t.currentTask ≠ 0 := hcurrent ▸ hne
      obtain ⟨seen, -, huses, -⟩ := (h.run ht).uses_instruction hne' fun _ => x
      refine ⟨t.instruction fninit fun _ => x, .snoc ht (.instruction hne'), ?_, ?_, ?_⟩
      · rw [(Fpu.instruction_keeps fninit t _).1, (Fpu.instruction_keeps fninit u f).1, hcurrent]
      · rw [(Fpu.instruction_keeps fninit t _).2.1, (Fpu.instruction_keeps fninit u f).2.1, hlive]
      · rw [huses]
        intro use huse
        rcases List.mem_cons.mp huse with rfl | huse
        · rfl
        · exact hleft use huse

/-- After `fpu_init`, an interleaving keeps the tasks isolated, whatever the instructions do,
exactly when all its FPU instructions are executed by one task. -/
theorem fpuIsolated_iff_one_user [Nontrivial F] {fninit : F} {s₀ s : Fpu F} {ops : List (FpuOp F)}
    (hboot : s₀.Boot) (hrun : Run (FpuStep fninit) (s₀.fpuInit fninit true) ops s) :
    (∀ ops' s', ops'.map FpuOp.erase = ops.map FpuOp.erase →
      Run (FpuStep fninit) (s₀.fpuInit fninit true) ops' s' → Isolated fninit s'.uses) ↔
    ∀ t ∈ fpuUsers ops, ∀ u ∈ fpuUsers ops, t = u := by
  have hready : (s₀.fpuInit fninit true).Ready fninit := hboot.ready
  have husers : ∀ ops' s', ops'.map FpuOp.erase = ops.map FpuOp.erase →
      Run (FpuStep fninit) (s₀.fpuInit fninit true) ops' s' →
      s'.uses.map FpuUse.task = fpuUsers ops := by
    intro ops' s' herase hrun'
    have h := hready.users_eq hrun'
    have hcurrent : (s₀.fpuInit fninit true).currentTask = 0 := hboot.currentTask
    have huses : (s₀.fpuInit fninit true).uses = [] := hboot.uses
    rw [hcurrent, huses] at h
    rw [← fpuUsers_erase ops, ← herase, fpuUsers_erase]
    exact (congrArg Prod.snd h).symm
  constructor
  · intro h
    obtain ⟨x, hx⟩ := exists_ne fninit
    obtain ⟨t, ht, -, -, hleft⟩ := hready.exists_run_leaving hboot.uses x hrun
    have herase : (ops.map (FpuOp.leaving x)).map FpuOp.erase = ops.map FpuOp.erase := by
      simp [FpuOp.erase_leaving]
    rw [← husers _ t herase ht]
    exact (hready.run ht).shared.one_user hx hleft (h _ t herase ht)
  · intro hone ops' s' herase hrun'
    refine (hready.run hrun').shared.isolated ?_
    rw [husers ops' s' herase hrun']
    exact hone

/-- The state before `fpu_init`; the registers are 80 bits. -/
def fpuBoot : Fpu (BitVec 80) where
  regs := 7
  cr0 := 0x80000011
  cr4 := 0
  saved := fun _ => 0
  lastFpuTask := 0
  currentTask := 0
  tasks := fun _ => zeroTask
  live := fun _ => false
  uses := []

theorem boot_fpuBoot : fpuBoot.Boot := ⟨rfl, rfl, fun _ => rfl, rfl⟩

/-- There are two tasks; the first one has left 5 in the registers, and the second one runs. -/
def fpuLeft : Fpu (BitVec 80) :=
  (((((fpuBoot.fpuInit 0 true).create 0x1000).create 0x2000).switch 0x1000).instruction 0
    fun _ => 5).switch 0x2000

theorem run_fpuLeft : Run (FpuStep 0) (fpuBoot.fpuInit 0 true)
    [.create 0x1000, .create 0x2000, .switch 0x1000, .instruction fun _ => 5, .switch 0x2000]
    fpuLeft := by
  have h₁ := Run.snoc (.nil (fpuBoot.fpuInit 0 true))
    (show FpuStep 0 _ (.create 0x1000) _ from .create (by decide) rfl)
  have h₂ := Run.snoc h₁ (show FpuStep 0 _ (.create 0x2000) _ from .create (by decide) rfl)
  have h₃ := Run.snoc h₂ (show FpuStep 0 _ (.switch 0x1000) _ from .switch (by decide))
  have h₄ := Run.snoc h₃ (show FpuStep 0 _ (.instruction fun _ => 5) _ from
    .instruction (by decide))
  exact .snoc h₄ (.switch (by decide +kernel))

/-- Only the first task executes FPU instructions. -/
theorem fpuIsolated_iff_one_user_first :
    Isolated 0 ((fpuLeft.switch 0x1000).instruction 0 id).uses := by
  have : Nontrivial (BitVec 80) := ⟨0, 1, by decide⟩
  have hrun := Run.snoc (Run.snoc run_fpuLeft
    (show FpuStep 0 _ (.switch 0x1000) _ from .switch (by decide +kernel)))
    (show FpuStep 0 _ (.instruction id) _ from .instruction (by decide +kernel))
  have hone : ∀ t ∈ [(0x1000 : U32), 0x1000], ∀ u ∈ [(0x1000 : U32), 0x1000], t = u := by simp
  exact (fpuIsolated_iff_one_user boot_fpuBoot hrun).mpr hone _ _ rfl hrun

/-- The second task sees what the first one has left. -/
theorem not_fpuIsolated_of_two_users : ∃ ops, Run (FpuStep 0) (fpuBoot.fpuInit 0 true) ops
    (fpuLeft.instruction 0 id) ∧ ¬ Isolated 0 (fpuLeft.instruction 0 id).uses := by
  refine ⟨_, .snoc run_fpuLeft (.instruction (f := id) (by decide +kernel)), ?_⟩
  have huses : (fpuLeft.instruction 0 id).uses = [⟨0x2000, 5, 5⟩, ⟨0x1000, 0, 5⟩] := by
    decide +kernel
  rw [huses]
  exact fun h => absurd h.1 (by decide)

end PiggyOS
