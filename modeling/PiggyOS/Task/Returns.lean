import PiggyOS.Task.Preempt

/-!
# Returns from interrupts

An interrupt of a task ends with the registers it began with, whatever tasks were created and ran
meanwhile. What is not given back is room on the kernel stack of a user task: each time it is
preempted its later interrupts start lower.
-/

namespace PiggyOS

open Infra Mem

namespace World

variable {gdt : Gdt} {w w' : World} {r : Region} {p : Pending} {t : U32} {op : PreemptOp}
  {ops : List PreemptOp}

/-- A step adds one interrupt to those of a task, or takes the last one away. -/
theorem frames_step (t : U32) (hstep : PreemptStep gdt w op w') :
    w'.frames t = w.frames t ∨ (∃ p, w'.frames t = p :: w.frames t) ∨
      ∃ p, w.frames t = p :: w'.frames t := by
  cases hstep with
  | work hw => exact Or.inl (congrFun hw.frames t)
  | @interrupt g code handler ret n _ _ _ _ =>
    by_cases ht : t = w.currentTask
    · subst ht
      exact Or.inr (Or.inl ⟨_, Function.update_self ..⟩)
    · exact Or.inl (Function.update_of_ne ht _ _)
  | @leave p rest _ hframes _ =>
    by_cases ht : t = w.currentTask
    · subst ht
      refine Or.inr (Or.inr ⟨p, ?_⟩)
      have hcurrent : (w.leave gdt).frames w.currentTask = (w.frames w.currentTask).tail :=
        Function.update_self ..
      rw [hcurrent, hframes]
      rfl
    · exact Or.inl (Function.update_of_ne ht _ _)
  | create _ _ _ => exact Or.inl rfl
  | switch _ _ _ _ _ _ => exact Or.inl rfl

/-- Interrupts that are pending all the time stay at the end of the list. -/
theorem frames_run {t : U32} {l : List Pending} (hrun : Run (PreemptStep gdt) w ops w')
    (hl : ∃ before, w.frames t = before ++ l)
    (hpending : ∀ u, Passed (PreemptStep gdt) w ops w' u → l.length ≤ (u.frames t).length) :
    ∃ before, w'.frames t = before ++ l := by
  induction hrun with
  | nil => exact hl
  | @snoc v u ops op hrun hstep ih =>
    obtain ⟨before, hbefore⟩ := ih fun x hx => hpending x (hx.snoc hstep)
    have hlen := hpending u (hrun.snoc hstep).passed_end
    rcases frames_step t hstep with h | ⟨p, h⟩ | ⟨p, h⟩
    · exact ⟨before, h.trans hbefore⟩
    · exact ⟨p :: before, by rw [h, hbefore]; rfl⟩
    · cases before with
      | nil =>
        rw [h] at hbefore
        have hcount := congrArg List.length hbefore
        simp only [List.length_cons, List.nil_append] at hcount
        omega
      | cons q before =>
        rw [h] at hbefore
        exact ⟨before, (List.cons.inj hbefore).2⟩

/-- The user task `a` is interrupted in the state `w`, another task runs before it returns, and
the state is `w'` then. -/
structure Preempted (gdt : Gdt) (a : U32) (w w' : World) : Prop where
  currentTask : w.currentTask = a
  user : w.cpl ≠ 0
  returns : ∃ g code handler ret n w₁ ops w₂,
    PreemptStep gdt w (.interrupt g code handler ret n) w₁ ∧ Run (PreemptStep gdt) w₁ ops w₂ ∧
    (∃ u, Passed (PreemptStep gdt) w₁ ops w₂ u ∧ u.currentTask ≠ a) ∧
    (∀ u, Passed (PreemptStep gdt) w₁ ops w₂ u → u.frames a ≠ []) ∧
    w₂.currentTask = a ∧ PreemptStep gdt w₂ .leave w' ∧ w'.cpl ≠ 0

/-- The user task `a` runs in the state `w` and after `k` preemptions in the state `w'`. -/
inductive Preemptions (gdt : Gdt) (a : U32) : Nat → World → World → Prop
  | nil (w : World) : Preemptions gdt a 0 w w
  | work {k : Nat} {w w' w'' : World} : Preemptions gdt a k w w' → w'.Works w'' → w''.cpl ≠ 0 →
      Preemptions gdt a k w w''
  | preempt {k : Nat} {w w' w'' : World} : Preemptions gdt a k w w' → Preempted gdt a w' w'' →
      Preemptions gdt a (k + 1) w w''

/-- The next switch to `a` makes the processor push below the registers of `p`, and if `a` runs
then it does already. -/
structure PushesBelow (w : World) (a : U32) (p : Pending) : Prop where
  kstack : (w.kstack a).toNat + 28 ≤ p.addr.toNat
  esp0 : w.currentTask = a → w.tss.esp0.toNat + 28 ≤ p.addr.toNat

section Creep

variable {a : U32} {k : Nat}

theorem PushesBelow.step (h : w.PushesBelow a p) (hok : w.Ok gdt) (hp : p ∈ w.frames a)
    (hstep : PreemptStep gdt w op w') : w'.PushesBelow a p := by
  cases hstep with
  | work hw =>
    have hcurrent : w'.currentTask = w.currentTask := hw.machine.currentTask
    have hkstack : w'.kstack = w.kstack := hw.machine.kstack
    refine ⟨?_, ?_⟩
    · rw [hkstack]
      exact h.kstack
    · rw [hcurrent, hw.tss]
      exact h.esp0
  | interrupt _ _ _ _ => exact ⟨h.kstack, h.esp0⟩
  | leave _ _ _ => exact ⟨h.kstack, h.esp0⟩
  | @create t ifr func stack _ _ hfresh =>
    have ht : a ≠ t := by
      rintro rfl
      rw [hok.noFrames a hfresh.task] at hp
      cases hp
    refine ⟨?_, h.esp0⟩
    have hkstack : (w.create t stack ifr func).kstack a = w.kstack a := Function.update_of_ne ht _ _
    rw [hkstack]
    exact h.kstack
  | switch _ hin hbelow harg _ _ =>
    subst harg
    have hw := switched_switchTo w
    refine ⟨hok.suspended_switched hin hbelow hw hp, ?_⟩
    intro hcurrent
    rw [hw.esp0, ← hw.currentTask, hcurrent]
    exact h.kstack

/-- An interrupt of user code pushes 19 words. -/
theorem size_of_user (hcode : p.code.isSome = Cpu.errorCodeStub p.number) (huser : p.old.cpl ≠ 0) :
    p.size = 19 := by
  rw [Pending.size, Cpu.aboveNumber_of_user hcode huser]

/-- The stack of a task stays where it is. -/
theorem stackOf_step (hstep : PreemptStep gdt w op w') (hr : w.stackOf a = some r) :
    w'.stackOf a = some r := by
  cases hstep with
  | work hw => exact (congrFun hw.machine.stackOf a).trans hr
  | interrupt _ _ _ _ => exact hr
  | leave _ _ _ => exact hr
  | create _ _ hfresh =>
    refine (Function.update_of_ne ?_ _ _).trans hr
    rintro rfl
    exact absurd (hfresh.task.symm.trans hr) (by simp)
  | switch _ _ _ harg _ _ =>
    subst harg
    rw [(switched_switchTo w).stackOf]
    exact hr

theorem stackOf_run (hrun : Run (PreemptStep gdt) w ops w') (hr : w.stackOf a = some r) :
    w'.stackOf a = some r :=
  hrun.invariant (fun w => w.stackOf a = some r) (fun _ _ _ h hstep => stackOf_step hstep h) hr

/-- What a preemption leaves: the processor now pushes at least 104 bytes lower. -/
structure Lower (gdt : Gdt) (a : U32) (w w' : World) : Prop where
  currentTask : w'.currentTask = a
  user : w'.cpl ≠ 0
  ok : w'.Ok gdt
  esp0 : w'.tss.esp0.toNat + 104 ≤ w.tss.esp0.toNat
  room : ∃ r, w.stackOf a = some r ∧ w'.stackOf a = some r ∧
    r.base.toNat + 88 ≤ w.tss.esp0.toNat

theorem Preempted.lower (h : Preempted gdt a w w') (hok : w.Ok gdt) : Lower gdt a w w' := by
  obtain ⟨rfl, huser, g, code, handler, ret, n, w₁, ops, w₂, hint, hrun, hother, hpending,
    hcurrent, hleave, huser'⟩ := h
  have hstack : w.toCpu.interruptStack w.tss = w.tss.esp0 := if_neg huser
  have hempty := (hok.user huser).1
  cases hint with
  | interrupt hcode hgate hseg hroom =>
    obtain ⟨r, hin⟩ := hok.pushesIn hroom
    have hok₁ : (w.interrupt g code handler ret n).Ok gdt := hok.interrupt hcode hgate hseg hroom
    have hsize := size_of_user (p := w.pending code n) hcode huser
    have haddr := toNat_addr_pending code n hin
    have hroom := hin.low
    rw [hstack] at hroom
    rw [hstack, hsize] at haddr
    have hfirst : (w.interrupt g code handler ret n).frames w.currentTask = [w.pending code n] := by
      have hcons : (w.interrupt g code handler ret n).frames w.currentTask =
        w.pending code n :: w.frames w.currentTask := Function.update_self ..
      rw [hcons, hempty]
    -- the interrupt is pending in each state that is passed
    have hlast : ∀ u, Passed (PreemptStep gdt) (w.interrupt g code handler ret n) ops w₂ u →
        ∃ before, u.frames w.currentTask = before ++ [w.pending code n] := by
      rintro u ⟨first, rest, rfl, hu, hrest⟩
      refine frames_run hu ⟨[], hfirst⟩ fun x hx => ?_
      exact List.length_pos_iff.mpr (hpending x (hx.append hrest))
    have hmem : ∀ u, Passed (PreemptStep gdt) (w.interrupt g code handler ret n) ops w₂ u →
        w.pending code n ∈ u.frames w.currentTask := by
      intro u hu
      obtain ⟨before, hbefore⟩ := hlast u hu
      rw [hbefore]
      simp
    -- from the state in which another task runs on
    have hbelow : w₂.PushesBelow w.currentTask (w.pending code n) := by
      obtain ⟨u, hu, hne⟩ := hother
      have hmemu := hmem u hu
      obtain ⟨first, rest, rfl, hfirstrun, hrest⟩ := hu
      have hoku := hok₁.run hfirstrun
      have hu : u.PushesBelow w.currentTask (w.pending code n) :=
        ⟨hoku.suspended _ (Ne.symm hne) _ hmemu, fun h => absurd h hne⟩
      have hkeep : ∀ x op y, PassedStep (PreemptStep gdt) u rest w₂ x op y →
          x.PushesBelow w.currentTask (w.pending code n) →
          y.PushesBelow w.currentTask (w.pending code n) := by
        rintro x op y ⟨b, c, rfl, hb, hop, hc⟩ hx
        have hxrun := Run.append hfirstrun hb
        refine hx.step (hok₁.run hxrun) (hmem x ⟨first ++ b, op :: c, by simp, hxrun, ?_⟩) hop
        exact Run.append (.snoc (.nil x) hop) hc
      exact @Passed.invariant _ _ _ _ _ _ _
        (fun x => x.PushesBelow w.currentTask (w.pending code n)) hkeep hu hrest.passed_end
    have hok₂ := hok₁.run hrun
    cases hleave with
    | @leave p rest hcpl hframes hesp =>
      refine ⟨hcurrent, huser', hok₂.leave hcpl hframes hesp, ?_, ?_⟩
      · have hle := hbelow.esp0 hcurrent
        show w₂.tss.esp0.toNat + 104 ≤ w.tss.esp0.toNat
        omega
      · have hr₂ := stackOf_run hrun (a := w.currentTask) (r := r) hin.stack
        exact ⟨r, hin.stack, hr₂, hroom⟩

/-- Preemptions of a user task, one after the other. -/
theorem Preemptions.lower (h : Preemptions gdt a k w w') (hok : w.Ok gdt)
    (hcurrent : w.currentTask = a) (huser : w.cpl ≠ 0) (hr : w.stackOf a = some r) :
    (w'.currentTask = a ∧ w'.cpl ≠ 0 ∧ w'.Ok gdt ∧ w'.stackOf a = some r) ∧
      w'.tss.esp0.toNat + 104 * k ≤ w.tss.esp0.toNat ∧
      (0 < k → r.base.toNat + 104 * (k - 1) + 88 ≤ w.tss.esp0.toNat) := by
  induction h with
  | nil => exact ⟨⟨hcurrent, huser, hok, hr⟩, Nat.le_refl _, fun h => absurd h (Nat.lt_irrefl 0)⟩
  | @work k w w' w'' _ hw huser' ih =>
    obtain ⟨⟨hcurrent', _, hok', hr'⟩, hle, hroom⟩ := ih hok hcurrent huser hr
    refine ⟨⟨hw.machine.currentTask.trans hcurrent', huser', hok'.works hw, ?_⟩, ?_, hroom⟩
    · exact (congrFun hw.machine.stackOf a).trans hr'
    · rw [hw.tss]
      exact hle
  | @preempt k w w' w'' _ hp ih =>
    obtain ⟨⟨_, _, hok', hr'⟩, hle, _⟩ := ih hok hcurrent huser hr
    obtain ⟨hcurrent'', huser'', hok'', hesp, r', hr₁, hr₂, hroom⟩ := hp.lower hok'
    have hrr' : r' = r := Option.some.inj (hr₁.symm.trans hr')
    subst hrr'
    refine ⟨⟨hcurrent'', huser'', hok'', hr₂⟩, ?_, fun _ => ?_⟩
    · omega
    · rw [Nat.add_sub_cancel]
      omega

end Creep

end World

/-! ## A run -/

end PiggyOS
