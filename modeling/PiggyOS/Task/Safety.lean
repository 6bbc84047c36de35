import PiggyOS.Infra.Run
import PiggyOS.Task.Invariant

/-!
# Safety of the scheduler

`schedule` destroys the dead tasks it meets and keeps the pointer into the list with which it
met them. This is harmless at the end of the list, where `_pick_next` starts again from the
front. Behind the current task it is not: the freed node is read again.

* `SchedGood` — what is asked of every state
* `SchedOp.Safe` — the calls after which no dead task is met behind the current one, and a live
  one is left
* `schedGood_of_safe_run` — a run of such calls
-/

namespace PiggyOS

open Infra

variable {s s' : Sched} {l : ListT} {xs ys : List U32} {n t : U32} {op : SchedOp}

structure SchedGood (s : Sched) : Prop where
  switched : s.phase = .idle → Listed s s.currentTask ∧ s.liveTasks s.currentTask = true ∧
    (s.tasks s.currentTask).state ≠ .zombie
  once : ∀ t, s.destroyed.count t ≤ s.created.count t
  tasks : ∀ t ∈ s.faults, t = 0
  nodes : ∀ n ∈ s.nodes.faults, n = 0
  panics : ∀ nextNode, s.phase = .picking nextNode →
    (∀ t, Listed s t → (s.tasks t).state = .zombie) →
    ∃ ops s', Run SchedStep s ops s' ∧ (∀ op ∈ ops, ∃ ticks, op = .pick ticks) ∧
      s'.phase = .panicked

/-- The task behind the current one in the list, if there is one, is not dead. -/
def Sched.NextAlive (s : Sched) : Prop :=
  s.nodes.next (s.tasks s.currentTask).self ≠ 0 →
    (s.tasks (s.nodes.value (s.nodes.next (s.tasks s.currentTask).self))).state ≠ .zombie

namespace SchedOp

/-- Whenever `schedule` is entered, the task behind the current one is not dead; the last task of
the list does not exit as the last live one. -/
def Safe (s : Sched) : SchedOp → Prop
  | create _ => s.NextAlive
  | schedule => s.NextAlive
  | exit _ => s.NextAlive ∧ (s.nodes.next (s.tasks s.currentTask).self = 0 →
      ∃ t, t ≠ s.currentTask ∧ Listed s t ∧ (s.tasks t).state ≠ .zombie)
  | pick _ => True

end SchedOp

def SafeStep (s : Sched) (op : SchedOp) (s' : Sched) : Prop := SchedStep s op s' ∧ op.Safe s

/-- The bookkeeping is in order. -/
structure Tidy (s : Sched) : Prop where
  counts : ∀ t, s.destroyed.count t + (if s.liveTasks t then 1 else 0) = s.created.count t
  tasks : ∀ t ∈ s.faults, t = 0
  nodes : ∀ n ∈ s.nodes.faults, n = 0

/-- The task list is `xs ++ n :: ys` with the current task at `n`; a live task runs, or
`_pick_next` is going to find one. -/
structure SafeState (s : Sched) (l : ListT) (xs : List U32) (n : U32) (ys : List U32) :
    Prop extends Tidy s where
  ok : TaskListOk s l (xs ++ n :: ys)
  current : s.nodes.value n = s.currentTask
  phase : (s.phase = .idle ∧ (s.tasks s.currentTask).state ≠ .zombie) ∨
    (s.phase = .picking (s.nodes.next n) ∧
      (∀ y ∈ ys.head?, (s.tasks (s.nodes.value y)).state ≠ .zombie) ∧
      (ys = [] → ∃ x ∈ xs ++ [n], (s.tasks (s.nodes.value x)).state ≠ .zombie))

theorem Tidy.congr (h : Tidy s) (hcreated : s'.created = s.created)
    (hdestroyed : s'.destroyed = s.destroyed) (hlive : s'.liveTasks = s.liveTasks)
    (hfaults : s'.faults = s.faults) (hnodes : s'.nodes.faults = s.nodes.faults) : Tidy s' := by
  refine ⟨?_, ?_, ?_⟩
  · rw [hcreated, hdestroyed, hlive]
    exact h.counts
  · rw [hfaults]
    exact h.tasks
  · rw [hnodes]
    exact h.nodes

namespace SafeState

theorem mem (_ : SafeState s l xs n ys) : n ∈ xs ++ n :: ys := by simp

theorem self (h : SafeState s l xs n ys) : (s.tasks s.currentTask).self = n := by
  rw [← h.current, h.ok.self n h.mem]

theorem next (h : SafeState s l xs n ys) : s.nodes.next n = ys.headD 0 :=
  (linked_append.mp h.ok.represents.linked).2.2.1

theorem live (h : SafeState s l xs n ys) : s.liveTasks s.currentTask = true := by
  rw [← h.current, h.ok.live n h.mem]

/-- The task behind the current one, by its node. -/
theorem nextAlive (h : SafeState s l xs n ys) (hs : s.NextAlive) :
    ∀ y ∈ ys.head?, (s.tasks (s.nodes.value y)).state ≠ .zombie := by
  intro y hy
  unfold Sched.NextAlive at hs
  rw [h.self, h.next] at hs
  cases ys with
  | nil => simp at hy
  | cons z ys =>
    obtain rfl : z = y := by simpa using hy
    exact hs (h.ok.represents.ne_null z (by simp))

/-- A safe state is a good one. -/
theorem good (h : SafeState s l xs n ys) : SchedGood s := by
  refine ⟨?_, ?_, h.tasks, h.nodes, ?_⟩
  · intro hidle
    rcases h.phase with ⟨-, halive⟩ | ⟨hpick, -⟩
    · exact ⟨h.ok.listed_iff.mpr ⟨n, h.mem, h.current⟩, h.live, halive⟩
    · rw [hpick] at hidle
      exact Phase.noConfusion hidle
  · intro t
    have := h.counts t
    omega
  · intro nextNode hpick hdead
    -- a live task is left
    have hdead : ∀ m ∈ xs ++ n :: ys, (s.tasks (s.nodes.value m)).state = .zombie :=
      fun m hm => hdead _ (h.ok.listed_iff.mpr ⟨m, hm, rfl⟩)
    rcases h.phase with ⟨hidle, -⟩ | ⟨-, hnext, hlast⟩
    · rw [hidle] at hpick
      exact Phase.noConfusion hpick
    · cases ys with
      | nil =>
        obtain ⟨x, hx, halive⟩ := hlast rfl
        exact absurd (hdead x hx) halive
      | cons y ys => exact absurd (hdead y (by simp)) (hnext y rfl)

/-- `schedule` up to `_pick_next`. -/
theorem enterSchedule (h : Tidy s) (hok : TaskListOk s l (xs ++ n :: ys))
    (hcur : s.nodes.value n = s.currentTask)
    (hnext : ∀ y ∈ ys.head?, (s.tasks (s.nodes.value y)).state ≠ .zombie)
    (hlast : ys = [] → ∃ x ∈ xs ++ [n], (s.tasks (s.nodes.value x)).state ≠ .zombie) :
    SafeState s.enterSchedule l xs n ys := by
  rw [hok.enterSchedule (by simp) hcur]
  exact ⟨h.congr rfl rfl rfl rfl rfl, hok.congr rfl rfl rfl rfl fun _ => rfl, hcur,
    Or.inr ⟨rfl, hnext, hlast⟩⟩

/-- Switching to a live task of the list. -/
theorem switchTo (h : SafeState s l xs n ys) {m : U32} (hm : m ∈ xs ++ n :: ys)
    (halive : (s.tasks (s.nodes.value m)).state ≠ .zombie) (ticks : U32) :
    ∃ xs' ys', SafeState (s.switchTo (s.nodes.value m) ticks) l xs' m ys' := by
  obtain ⟨xs', ys', hsplit⟩ := List.append_of_mem hm
  have hok := h.ok.switchTo (s.nodes.value m) ticks
  rw [hsplit] at hok
  have hfaults : (s.switchTo (s.nodes.value m) ticks).faults = s.faults :=
    Sched.faults_switchTo h.live (h.ok.live m hm)
  refine ⟨xs', ys', h.toTidy.congr rfl rfl rfl hfaults rfl, hok, rfl, Or.inl ⟨rfl, ?_⟩⟩
  rw [Sched.state_switchTo]
  exact halive

/-- The first task of the list is dead and is destroyed. -/
theorem taskDestroy {x : U32} (h : SafeState s l (x :: xs) n []) (hpick : s.phase ≠ .idle)
    (hdead : (s.tasks (s.nodes.value x)).state = .zombie) :
    SafeState (s.taskDestroy l (s.nodes.value x)) (listRemoveFront s.nodes l).list xs n [] := by
  have hne : xs ++ [n] ≠ [] := by simp
  have hx : x ∈ x :: (xs ++ [n]) := List.mem_cons_self
  have hok := h.ok.taskDestroy hne rfl
  have heq := h.ok.taskDestroy_eq rfl
  have hvalue := value_listRemoveFront (m := s.nodes) (l := l)
  have hnext : (s.taskDestroy l (s.nodes.value x)).nodes.next n = s.nodes.next n := by
    rw [(linked_append.mp hok.represents.linked).2.2.1, h.next]
  -- a live task is behind the dead one
  obtain ⟨hphase, -, hlast⟩ := h.phase.resolve_left fun hc => hpick hc.1
  obtain ⟨y, hy, halive⟩ := hlast rfl
  have hy : y ∈ xs ++ [n] := by
    refine (List.mem_cons.mp hy).resolve_left ?_
    rintro rfl
    exact halive hdead
  refine ⟨⟨?_, ?_, ?_⟩, hok, ?_, Or.inr ⟨?_, by simp, fun _ => ⟨y, hy, ?_⟩⟩⟩
  · intro t
    have hcount := h.counts t
    rw [heq]
    show (s.nodes.value x :: s.destroyed).count t +
      (if Function.update s.liveTasks (s.nodes.value x) false t then 1 else 0) = s.created.count t
    by_cases ht : t = s.nodes.value x
    · rw [ht, h.ok.live x hx] at hcount
      rw [ht, Function.update_self, List.count_cons_self]
      simpa using hcount
    · rw [Function.update_of_ne ht, List.count_cons_of_ne (Ne.symm ht)]
      exact hcount
  · rw [heq]
    exact h.tasks
  · rw [heq]
    show ∀ m ∈ (listRemoveFront s.nodes l).nodes.faults, m = 0
    rw [h.ok.represents.faults_listRemoveFront]
    exact h.nodes
  · rw [heq]
    exact (hvalue n).trans h.current
  · rw [hnext, ← hphase, heq]
  · rw [heq]
    dsimp only
    rw [hvalue]
    exact halive

/-- A round of `_pick_next`. -/
theorem pick (h : SafeState s l xs n ys) (hphase : s.phase = .picking (s.nodes.next n))
    (ticks : U32) : ∃ l' xs' n' ys', SafeState (s.pick l (s.nodes.next n) ticks) l' xs' n' ys' := by
  have hcur0 : s.currentTask ≠ 0 := by
    rw [← h.current]
    exact h.ok.ne_null n h.mem
  have hpicking : s.phase ≠ .idle := by
    rw [hphase]
    exact Phase.noConfusion
  obtain ⟨-, hnext, hlast⟩ := h.phase.resolve_left fun hc => hpicking hc.1
  -- a live task is found
  have hswitch : ∀ m, (ys ++ xs).headD n = m → m ∈ xs ++ n :: ys →
      (s.tasks (s.nodes.value m)).state ≠ .zombie →
      ∃ l' xs' n' ys', SafeState (s.pick l (s.nodes.next n) ticks) l' xs' n' ys' := by
    intro m hhead hm halive
    rw [h.ok.pick_of_alive (by rw [h.ok.pickedNode_eq, hhead]; exact hm) hcur0
      (by rw [h.ok.pickedNode_eq, hhead]) halive]
    obtain ⟨xs', ys', hs⟩ := h.switchTo hm halive ticks
    exact ⟨l, xs', m, ys', hs⟩
  cases ys with
  | cons y ys => exact hswitch y rfl (by simp) (hnext y rfl)
  | nil =>
    obtain ⟨z, hz, halive⟩ := hlast rfl
    cases xs with
    | nil => exact hswitch n rfl (by simp) (List.mem_singleton.mp hz ▸ halive)
    | cons x xs =>
      by_cases hdead : (s.tasks (s.nodes.value x)).state = .zombie
      · rw [h.ok.pick_of_zombie (by rw [h.ok.pickedNode_eq]; simp)
          (by rw [h.ok.pickedNode_eq]; rfl) hdead]
        exact ⟨_, xs, n, [], h.taskDestroy hpicking hdead⟩
      · exact hswitch x rfl (by simp) hdead

/-- `task_exit` of the current task. -/
theorem exit (h : SafeState s l xs n ys) {code : U32} (hsafe : (SchedOp.exit code).Safe s) :
    SafeState (s.taskExit code) l xs n ys := by
  obtain ⟨hnext, hother⟩ := hsafe
  let s₁ : Sched := { s with
    tasks := Function.update s.tasks s.currentTask
      { s.tasks s.currentTask with exitCode := code, state := .zombie } }
  have hs₁ : s.taskExit code = s₁.enterSchedule := by
    unfold Sched.taskExit
    rw [Sched.touchTask_of_live h.live]
  have hself : ∀ t, (s₁.tasks t).self = (s.tasks t).self := by
    intro t
    by_cases ht : t = s.currentTask
    · rw [ht, show s₁.tasks s.currentTask = _ from Function.update_self ..]
    · exact congrArg Task.self (Function.update_of_ne ht ..)
  have hother' : ∀ t, t ≠ s.currentTask → s₁.tasks t = s.tasks t := fun t ht =>
    Function.update_of_ne ht ..
  -- the current task is at `n` only
  have hne : ∀ m ∈ xs ++ n :: ys, m ≠ n → s.nodes.value m ≠ s.currentTask := by
    intro m hm hmn hv
    exact hmn (h.ok.value_inj hm h.mem (hv.trans h.current.symm))
  have hndn := (List.nodup_append.mp h.ok.represents.nodup).2.1
  rw [hs₁]
  refine enterSchedule (h.toTidy.congr rfl rfl rfl rfl rfl) (h.ok.congr rfl rfl rfl rfl hself)
    h.current ?_ ?_
  · intro y hy
    have hy' : y ∈ ys := List.mem_of_mem_head? hy
    have hyn : y ≠ n := by
      rintro rfl
      exact (List.nodup_cons.mp hndn).1 hy'
    show (s₁.tasks (s.nodes.value y)).state ≠ .zombie
    rw [hother' _ (hne y (by simp [hy']) hyn)]
    exact h.nextAlive hnext y hy
  · rintro rfl
    obtain ⟨t, htne, hlisted, halive⟩ := hother (by rw [h.self, h.next]; rfl)
    obtain ⟨m, hm, rfl⟩ := h.ok.listed_iff.mp hlisted
    refine ⟨m, hm, ?_⟩
    show (s₁.tasks (s.nodes.value m)).state ≠ .zombie
    rw [hother' _ htne]
    exact halive

/-- `task_create` by the current task. -/
theorem create {a : TaskAllocs} (h : SafeState s l xs n ys) (hnext : s.NextAlive)
    (hf : a.Fresh s) (hs' : s.taskCreate a = some s') :
    ∃ l', SafeState s' l' (a.node :: xs) n ys := by
  rw [Sched.taskCreate_of_list h.ok.list hf] at hs'
  obtain rfl := Option.some.inj hs'
  have hstate : ∀ m ∈ xs ++ n :: ys,
      (((s.allocTask a).addTask l a).tasks (((s.allocTask a).addTask l a).nodes.value m)).state =
        (s.tasks (s.nodes.value m)).state := by
    intro m hm
    rw [h.ok.value_addTask hf hm, Sched.tasks_addTask,
      Function.update_of_ne (h.ok.value_ne hf.task hm)]
  refine ⟨_, enterSchedule ⟨?_, ?_, ?_⟩ (h.ok.addTask hf) ?_ ?_ fun _ => ⟨a.node, by simp, ?_⟩⟩
  · intro t
    have hcount := h.counts t
    show s.destroyed.count t + (if Function.update s.liveTasks a.task true t then 1 else 0) =
      (a.task :: s.created).count t
    by_cases ht : t = a.task
    · rw [ht, hf.task] at hcount
      rw [ht, Function.update_self, List.count_cons_self]
      simpa using hcount
    · rw [Function.update_of_ne ht, List.count_cons_of_ne (Ne.symm ht)]
      exact hcount
  · intro t ht
    rcases Sched.mem_faults_touchTask (s := s.allocTask a) ht with rfl | ht
    · -- the current task is in use
      have hlive : (s.allocTask a).liveTasks s.currentTask = true := by
        show Function.update s.liveTasks a.task true s.currentTask = true
        rw [Function.update_of_ne, h.live]
        rw [← h.current]
        exact h.ok.value_ne hf.task h.mem
      have ht : s.currentTask ∈ ((s.allocTask a).touchTask s.currentTask).faults := ht
      rw [Sched.touchTask_of_live hlive] at ht
      exact h.tasks _ ht
    · exact h.tasks t ht
  · show ∀ m ∈ (listInsertFront s.nodes l a.task a.node).nodes.faults, m = 0
    rw [h.ok.represents.faults_listInsertFront (by simp)]
    exact h.nodes
  · rw [h.ok.value_addTask hf h.mem]
    exact h.current
  · intro y hy
    rw [hstate y (by simp [List.mem_of_mem_head? hy])]
    exact h.nextAlive hnext y hy
  · rw [Sched.value_addTask_self hf, Sched.tasks_addTask, Function.update_self]
    exact TaskState.noConfusion

/-- Every safe step. -/
theorem step (h : SafeState s l xs n ys) (hs : SafeStep s op s') :
    ∃ l' xs' n' ys', SafeState s' l' xs' n' ys' := by
  obtain ⟨hs, hsafe⟩ := hs
  cases hs with
  | create hidle hf hc =>
    obtain ⟨l', h'⟩ := h.create hsafe hf hc
    exact ⟨_, _, _, _, h'⟩
  | exit hidle => exact ⟨_, _, _, _, h.exit hsafe⟩
  | schedule hidle =>
    have halive := (h.phase.resolve_right fun hc => by
      rw [hc.1] at hidle
      exact Phase.noConfusion hidle).2
    refine ⟨_, _, _, _, enterSchedule h.toTidy h.ok h.current (h.nextAlive hsafe) fun _ =>
      ⟨n, by simp, ?_⟩⟩
    rw [h.current]
    exact halive
  | pick hphase hl =>
    rcases h.phase with ⟨hidle, -⟩ | ⟨hpick, -⟩
    · rw [hidle] at hphase
      exact Phase.noConfusion hphase
    · rw [hpick] at hphase
      obtain rfl := Phase.picking.inj hphase
      obtain rfl := Option.some.inj (h.ok.list.symm.trans hl)
      exact h.pick hpick _

end SafeState

/-! ## Every run -/

theorem Started.safeState {a : TaskAllocs} (h : Started s a) : ∃ l, SafeState s l [] a.node [] := by
  obtain ⟨l, hok⟩ := h.ok
  refine ⟨l, ⟨?_, h.faults, h.nodeFaults⟩, hok, h.value.trans h.current.symm, Or.inl ⟨h.phase, ?_⟩⟩
  · intro t
    rw [h.destroyed, h.created, h.liveTasks]
    by_cases ht : t = a.task
    · simp [ht]
    · simp [ht, Ne.symm ht]
  · rw [h.current, h.alive]
    exact TaskState.noConfusion

/--
**Scheduler safety.** In every run of `task_create`, `task_exit` and `schedule` calls after
`multitasking_init` in which `schedule` is never entered with a dead task behind the current one
and the last task of the list never exits as the last live one, every state is good.
-/
theorem schedGood_of_safe_run {tasks : U32 → Task} {node : U32 → ListNode} {a : TaskAllocs}
    {s₀ s : Sched} {ops : List SchedOp} (hf : a.Fresh (Sched.boot tasks node))
    (hinit : (Sched.boot tasks node).multitaskingInit a = some s₀)
    (hrun : Run SafeStep s₀ ops s) : SchedGood s := by
  obtain ⟨s₁, hs₁, hstart⟩ := Sched.started_multitaskingInit hf
  obtain rfl := Option.some.inj (hinit.symm.trans hs₁)
  obtain ⟨l, xs, n, ys, h⟩ := hrun.invariant
    (fun u => ∃ l xs n ys, SafeState u l xs n ys)
    (fun _ _ _ ⟨_, _, _, _, h⟩ hs => h.step hs)
    (hstart.safeState.imp fun l hl => ⟨[], a.node, [], hl⟩)
  exact h.good

/-- A task is created and exits; the task list is `[second, first]` then, with the first one
running, and the first one calls `schedule`. -/
theorem schedGood_of_safe_run_exit : ∃ s₀ s, clearBoot.multitaskingInit firstAllocs = some s₀ ∧
    Run SafeStep s₀ ([] ++ [.create secondAllocs] ++ [.pick 1] ++ [.exit 0] ++ [.pick 2] ++
      [.schedule] ++ [.pick 3]) s ∧ s.destroyed = [0x7000] ∧ SchedGood s := by
  obtain ⟨s₀, hs₀, hstart⟩ := Sched.started_multitaskingInit fresh_firstAllocs
  cases hs₀
  have hcreate := Run.snoc (.nil _) (show SafeStep _ (.create secondAllocs) _ from
    ⟨.create hstart.phase ⟨rfl, by decide, rfl, by decide, by decide⟩ rfl, fun h => absurd rfl h⟩)
  have hpick := Run.snoc hcreate (show SafeStep _ (.pick 1) _ from ⟨.pick rfl rfl, trivial⟩)
  have hexit := Run.snoc hpick (show SafeStep _ (.exit 0) _ from
    ⟨.exit rfl, fun _ => TaskState.noConfusion, fun h => absurd h (by decide)⟩)
  have hpick₂ := Run.snoc hexit (show SafeStep _ (.pick 2) _ from ⟨.pick rfl rfl, trivial⟩)
  have hsched := Run.snoc hpick₂ (show SafeStep _ .schedule _ from
    ⟨.schedule rfl, fun h => absurd rfl h⟩)
  have hrun := Run.snoc hsched (show SafeStep _ (.pick 3) _ from ⟨.pick rfl rfl, trivial⟩)
  exact ⟨_, _, rfl, hrun, by decide +kernel, schedGood_of_safe_run fresh_firstAllocs rfl hrun⟩

/-- The only task exits: it is destroyed, and `schedule` goes on to switch to NULL. -/
theorem not_schedGood_of_run : ¬ ∀ (tasks : U32 → Task) (node : U32 → ListNode) (a : TaskAllocs)
    (s₀ s : Sched) (ops : List SchedOp), a.Fresh (Sched.boot tasks node) →
    (Sched.boot tasks node).multitaskingInit a = some s₀ → Run SchedStep s₀ ops s →
    SchedGood s := by
  intro h
  obtain ⟨s₀, hs₀, hstart⟩ := Sched.started_multitaskingInit fresh_firstAllocs
  cases hs₀
  have hexit := Run.snoc (.nil _) (show SchedStep _ (.exit 0) _ from .exit hstart.phase)
  have hpick := Run.snoc hexit (show SchedStep _ (.pick 1) _ from .pick rfl rfl)
  have hrun := Run.snoc hpick (show SchedStep _ (.pick 2) _ from .pick rfl rfl)
  obtain ⟨-, hlive, -⟩ := (h _ _ _ _ _ _ fresh_firstAllocs rfl hrun).switched rfl
  exact absurd hlive (by decide)

end PiggyOS
