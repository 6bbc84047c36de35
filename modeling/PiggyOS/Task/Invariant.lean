import PiggyOS.Dsa.Invariant
import PiggyOS.Task.Basic

/-!
# The task list

`TaskListOk s l ns` says that the task list consists of the nodes `ns`, each with a task that is
in use and knows its node. It is followed through the calls of the scheduler.
-/

namespace PiggyOS

open Infra

variable {s s' : Sched} {l : ListT} {ns : List U32} {a : TaskAllocs} {n t : U32}

structure TaskListOk (s : Sched) (l : ListT) (ns : List U32) : Prop where
  list : s.taskList = some l
  represents : Represents s.nodes l ns
  live : ∀ n ∈ ns, s.liveTasks (s.nodes.value n) = true
  self : ∀ n ∈ ns, (s.tasks (s.nodes.value n)).self = n
  ne_null : ∀ n ∈ ns, s.nodes.value n ≠ 0

/-- The task `t` is on the task list. -/
def Listed (s : Sched) (t : U32) : Prop :=
  ∃ l n, s.taskList = some l ∧ Member s.nodes l n ∧ s.nodes.value n = t

namespace TaskListOk

theorem listed_iff (h : TaskListOk s l ns) : Listed s t ↔ ∃ n ∈ ns, s.nodes.value n = t := by
  constructor
  · rintro ⟨l', n, hl, hn, ht⟩
    rw [h.list] at hl
    obtain rfl := Option.some.inj hl
    exact ⟨n, h.represents.mem_of_member hn, ht⟩
  · rintro ⟨n, hn, ht⟩
    exact ⟨l, n, h.list, h.represents.member_of_mem hn, ht⟩

/-- Different nodes hold different tasks. -/
theorem value_inj (h : TaskListOk s l ns) {n' : U32} (hn : n ∈ ns) (hn' : n' ∈ ns)
    (he : s.nodes.value n = s.nodes.value n') : n = n' := by
  rw [← h.self n hn, ← h.self n' hn', he]

/-- Accesses and changes to other fields of the tasks leave the list alone. -/
theorem congr (h : TaskListOk s l ns) (hlist : s'.taskList = s.taskList)
    (hnode : s'.nodes.node = s.nodes.node) (hlive : s'.nodes.live = s.nodes.live)
    (htasks : s'.liveTasks = s.liveTasks) (hself : ∀ t, (s'.tasks t).self = (s.tasks t).self) :
    TaskListOk s' l ns := by
  have hvalue : ∀ n, s'.nodes.value n = s.nodes.value n := by
    intro n
    rw [Nodes.value, hnode]
    rfl
  refine ⟨hlist.trans h.list, h.represents.congr ?_ ?_, ?_, ?_, ?_⟩
  · intro x _
    rw [hnode]
  · intro x _
    rw [hlive]
  · intro n hn
    rw [hvalue, htasks]
    exact h.live n hn
  · intro n hn
    rw [hvalue, hself]
    exact h.self n hn
  · intro n hn
    rw [hvalue]
    exact h.ne_null n hn

end TaskListOk

/-! ## Entering `schedule` -/

theorem Sched.tasks_enterSchedule (s : Sched) : s.enterSchedule.tasks = s.tasks := by
  unfold enterSchedule
  split
  · rfl
  · dsimp only
    split <;> rfl

theorem Sched.liveTasks_enterSchedule (s : Sched) : s.enterSchedule.liveTasks = s.liveTasks := by
  unfold enterSchedule
  split
  · rfl
  · dsimp only
    split <;> rfl

/-- `schedule` on behalf of a running task goes on to `_pick_next` with the node behind it. -/
theorem Sched.enterSchedule_of_current (hlist : s.taskList = some l) (hcur : s.currentTask ≠ 0) :
    s.enterSchedule =
      { s.touchTask s.currentTask with
        nodes := s.nodes.touch (s.tasks s.currentTask).self
        phase := .picking (s.nodes.next (s.tasks s.currentTask).self) } := by
  unfold enterSchedule
  rw [hlist]
  exact if_neg hcur

/-- With the current task on the list nothing else changes. -/
theorem TaskListOk.enterSchedule (h : TaskListOk s l ns) (hn : n ∈ ns)
    (hcur : s.nodes.value n = s.currentTask) :
    s.enterSchedule = { s with phase := .picking (s.nodes.next n) } := by
  have hself : (s.tasks s.currentTask).self = n := by rw [← hcur, h.self n hn]
  have hlive : s.liveTasks s.currentTask = true := by rw [← hcur, h.live n hn]
  rw [Sched.enterSchedule_of_current h.list (by rw [← hcur]; exact h.ne_null n hn), hself,
    Nodes.touch_of_live (h.represents.live n hn), Sched.touchTask, hlive, if_pos rfl]

/-- The first call goes to the front of the list at once. -/
theorem TaskListOk.enterSchedule_first (h : TaskListOk s l (n :: ns)) (h0 : s.currentTask = 0) :
    s.enterSchedule = s.contextSwitch (s.nodes.value n) := by
  have hhead : l.head = n := h.represents.head
  have hn : n ∈ n :: ns := List.mem_cons_self
  unfold Sched.enterSchedule
  rw [h.list]
  dsimp only
  rw [if_pos h0, listPeekFront, hhead, if_neg (h.represents.ne_null n hn),
    Nodes.touch_of_live (h.represents.live n hn), ← h.list]

/-! ## Rounds of `_pick_next` -/

section

variable {nextNode ticks next : U32}

theorem Sched.touchTask_of_live (h : s.liveTasks t = true) : s.touchTask t = s := by
  rw [touchTask, h, if_pos rfl]

theorem Sched.mem_faults_touchTask {x : U32} (hx : x ∈ (s.touchTask t).faults) :
    x = t ∨ x ∈ s.faults := by
  unfold touchTask at hx
  dsimp only at hx
  split at hx
  · exact Or.inr hx
  · exact List.mem_cons.mp hx

/-- Switching changes no task but for the time it has used. -/
theorem Sched.field_switchTo {β : Type} (f : Task → β) (hf : ∀ (task : Task) u,
    f { task with usage := u } = f task) (s : Sched) (next ticks t : U32) :
    f ((s.switchTo next ticks).tasks t) = f (s.tasks t) := by
  show f (Function.update s.tasks s.currentTask { s.tasks s.currentTask with
    usage := (s.tasks s.currentTask).usage + (ticks - s.prevTicks) } t) = f (s.tasks t)
  by_cases ht : t = s.currentTask
  · subst ht
    rw [Function.update_self, hf]
  · rw [Function.update_of_ne ht]

theorem Sched.self_switchTo (s : Sched) (next ticks t : U32) :
    ((s.switchTo next ticks).tasks t).self = (s.tasks t).self :=
  s.field_switchTo Task.self (fun _ _ => rfl) next ticks t

theorem Sched.state_switchTo (s : Sched) (next ticks t : U32) :
    ((s.switchTo next ticks).tasks t).state = (s.tasks t).state :=
  s.field_switchTo Task.state (fun _ _ => rfl) next ticks t

theorem Sched.faults_switchTo {ticks : U32} (hcur : s.liveTasks s.currentTask = true)
    (hnext : s.liveTasks next = true) : (s.switchTo next ticks).faults = s.faults := by
  unfold switchTo contextSwitch touchTask
  simp [hcur, hnext]

theorem TaskListOk.switchTo (h : TaskListOk s l ns) (next ticks : U32) :
    TaskListOk (s.switchTo next ticks) l ns :=
  h.congr rfl rfl rfl rfl fun t => s.self_switchTo next ticks t

/-- The node `_pick_next` goes to. -/
def pickedNode (l : ListT) (nextNode : U32) : U32 := if nextNode = 0 then l.head else nextNode

/-- The node behind `n`, or the first. -/
theorem TaskListOk.pickedNode_eq {xs ys : List U32} (h : TaskListOk s l (xs ++ n :: ys)) :
    pickedNode l (s.nodes.next n) = (ys ++ xs).headD n := by
  obtain ⟨-, -, hnext, -⟩ := linked_append.mp h.represents.linked
  unfold pickedNode
  rw [hnext, h.represents.head]
  cases ys with
  | nil =>
    cases xs with
    | nil => rfl
    | cons x xs => rfl
  | cons y ys => exact if_neg (h.represents.ne_null y (by simp))

theorem TaskListOk.pickNext (h : TaskListOk s l ns) (hn : pickedNode l nextNode ∈ ns) :
    s.pickNext l nextNode = (s, s.nodes.value (pickedNode l nextNode)) := by
  unfold pickedNode at hn ⊢
  unfold Sched.pickNext
  split
  · next h0 =>
    rw [if_pos h0] at hn
    rw [listPeekFront, if_neg (h.represents.ne_null _ hn),
      Nodes.touch_of_live (h.represents.live _ hn)]
  · next h0 =>
    rw [if_neg h0] at hn
    rw [Nodes.touch_of_live (h.represents.live _ hn)]

/-- A round that finds a live task switches to it. -/
theorem TaskListOk.pick_of_alive (h : TaskListOk s l ns) (hn : pickedNode l nextNode ∈ ns)
    (hcur0 : s.currentTask ≠ 0) (hnext : s.nodes.value (pickedNode l nextNode) = next)
    (halive : (s.tasks next).state ≠ .zombie) :
    s.pick l nextNode ticks = s.switchTo next ticks := by
  have hlive : s.liveTasks next = true := by rw [← hnext, h.live _ hn]
  unfold Sched.pick
  rw [h.pickNext hn, hnext]
  dsimp only
  rw [Sched.touchTask_of_live hlive, if_neg halive, if_neg hcur0]

/-- A round that finds a dead task destroys it. -/
theorem TaskListOk.pick_of_zombie (h : TaskListOk s l ns) (hn : pickedNode l nextNode ∈ ns)
    (hnext : s.nodes.value (pickedNode l nextNode) = next)
    (hdead : (s.tasks next).state = .zombie) : s.pick l nextNode ticks = s.taskDestroy l next := by
  have hlive : s.liveTasks next = true := by rw [← hnext, h.live _ hn]
  unfold Sched.pick
  rw [h.pickNext hn, hnext]
  dsimp only
  rw [Sched.touchTask_of_live hlive, if_pos hdead]

end

/-! ## Creation -/

theorem TaskListOk.value_ne (h : TaskListOk s l ns) (ht : s.liveTasks t = false) (hn : n ∈ ns) :
    s.nodes.value n ≠ t := by
  rintro rfl
  rw [h.live n hn] at ht
  exact Bool.noConfusion ht

/-- The values after a task has been put in front. -/
theorem TaskListOk.value_addTask (h : TaskListOk s l ns) (hf : a.Fresh s) (hn : n ∈ ns) :
    ((s.allocTask a).addTask l a).nodes.value n = s.nodes.value n := by
  show (listInsertFront s.nodes l a.task a.node).nodes.value n = _
  rw [value_listInsertFront (h.represents.ne_null n hn),
    if_neg (h.represents.ne_of_not_live hf.node hn)]

theorem Sched.value_addTask_self (hf : a.Fresh s) :
    ((s.allocTask a).addTask l a).nodes.value a.node = a.task := by
  show (listInsertFront s.nodes l a.task a.node).nodes.value a.node = _
  rw [value_listInsertFront hf.node_ne, if_pos rfl]

/-- The tasks after a task has been put in front. -/
theorem Sched.tasks_addTask (s : Sched) (l : ListT) (a : TaskAllocs) :
    ((s.allocTask a).addTask l a).tasks = Function.update s.tasks a.task
      { s.newTask a with
        kstack := initialKstack a.stack ((s.allocTask a).tasks s.currentTask).ifr
        self := a.node } := by
  unfold addTask
  show Function.update (Function.update s.tasks a.task (s.newTask a)) a.task
    { (s.allocTask a).tasks a.task with kstack := _, self := _ } = _
  rw [Function.update_idem]
  have : (s.allocTask a).tasks a.task = s.newTask a := Function.update_self ..
  rw [this]
  rfl

theorem TaskListOk.addTask (h : TaskListOk s l ns) (hf : a.Fresh s) :
    TaskListOk ((s.allocTask a).addTask l a) (listInsertFront s.nodes l a.task a.node).list
      (a.node :: ns) := by
  have hrep : Represents (listInsertFront s.nodes l a.task a.node).nodes
      (listInsertFront s.nodes l a.task a.node).list (a.node :: ns) :=
    h.represents.insertFront hf.node hf.node_ne
  refine ⟨rfl, hrep, ?_, ?_, ?_⟩
  · intro n hn
    show Function.update s.liveTasks a.task true _ = true
    rcases List.mem_cons.mp hn with rfl | hn
    · rw [Sched.value_addTask_self hf, Function.update_self]
    · rw [h.value_addTask hf hn, Function.update_of_ne (h.value_ne hf.task hn)]
      exact h.live n hn
  · intro n hn
    rw [Sched.tasks_addTask]
    rcases List.mem_cons.mp hn with rfl | hn
    · rw [Sched.value_addTask_self hf, Function.update_self]
    · rw [h.value_addTask hf hn, Function.update_of_ne (h.value_ne hf.task hn)]
      exact h.self n hn
  · intro n hn
    rcases List.mem_cons.mp hn with rfl | hn
    · rw [Sched.value_addTask_self hf]
      exact hf.task_ne
    · rw [h.value_addTask hf hn]
      exact h.ne_null n hn

/-- `task_create` with a list to put the task in. -/
theorem Sched.taskCreate_of_list (hlist : s.taskList = some l) (hf : a.Fresh s) :
    s.taskCreate a = some ((s.allocTask a).addTask l a).enterSchedule := by
  unfold taskCreate
  rw [if_neg hf.stack_ne]
  show s.taskList.map _ = _
  rw [hlist]
  rfl

theorem Sched.exists_of_taskCreate (hf : a.Fresh s) (h : s.taskCreate a = some s') :
    ∃ l, s.taskList = some l ∧ s' = ((s.allocTask a).addTask l a).enterSchedule := by
  cases hl : s.taskList with
  | none =>
    unfold taskCreate at h
    rw [if_neg hf.stack_ne, show (s.allocTask a).taskList = none from hl] at h
    exact nomatch h
  | some l =>
    rw [taskCreate_of_list hl hf] at h
    exact ⟨l, rfl, (Option.some.inj h).symm⟩

/-- `task_create` leaves the other tasks alone. -/
theorem Sched.tasks_taskCreate (hf : a.Fresh s) (h : s.taskCreate a = some s') :
    ∃ kstack, s'.tasks = Function.update s.tasks a.task
      { s.newTask a with kstack := kstack, self := a.node } := by
  obtain ⟨l, -, rfl⟩ := exists_of_taskCreate hf h
  rw [tasks_enterSchedule]
  exact ⟨_, tasks_addTask s l a⟩

theorem Sched.liveTasks_taskCreate (hf : a.Fresh s) (h : s.taskCreate a = some s') :
    s'.liveTasks = Function.update s.liveTasks a.task true := by
  obtain ⟨l, -, rfl⟩ := exists_of_taskCreate hf h
  exact liveTasks_enterSchedule _

/-! ## Start -/

section

variable {tasks : U32 → Task} {node : U32 → ListNode}

/-- What `multitasking_init` leaves: the list of the first task, which runs. -/
structure Started (s : Sched) (a : TaskAllocs) : Prop where
  ok : ∃ l, TaskListOk s l [a.node]
  value : s.nodes.value a.node = a.task
  current : s.currentTask = a.task
  phase : s.phase = .idle
  alive : (s.tasks a.task).state = .ready
  created : s.created = [a.task]
  destroyed : s.destroyed = []
  liveTasks : s.liveTasks = Function.update (fun _ => false) a.task true
  faults : ∀ t ∈ s.faults, t = 0
  nodeFaults : ∀ x ∈ s.nodes.faults, x = 0

/-- The store through the empty list and the accesses through `current_task` go to NULL. -/
theorem Sched.started_multitaskingInit (hf : a.Fresh (boot tasks node)) :
    ∃ s, (boot tasks node).multitaskingInit a = some s ∧ Started s a := by
  let s₁ : Sched := { boot tasks node with taskList := some listCreate }
  have hempty : TaskListOk s₁ listCreate [] :=
    ⟨rfl, represents_listCreate _, by simp, by simp, by simp⟩
  have hf₁ : a.Fresh s₁ := ⟨hf.task, hf.task_ne, hf.node, hf.node_ne, hf.stack_ne⟩
  have hadd := hempty.addTask hf₁
  have hvalue := value_addTask_self (l := listCreate) hf₁
  have htasks := tasks_addTask s₁ listCreate a
  refine ⟨_, taskCreate_of_list rfl hf₁, ?_⟩
  rw [hadd.enterSchedule_first rfl, hvalue]
  refine ⟨⟨_, hadd.congr rfl rfl rfl rfl fun _ => rfl⟩, hvalue, rfl, rfl, ?_, rfl, rfl, rfl, ?_, ?_⟩
  · show (((s₁.allocTask a).addTask listCreate a).tasks a.task).state = .ready
    rw [htasks, Function.update_self]
    rfl
  · intro t ht
    have hlive : ((s₁.allocTask a).addTask listCreate a).liveTasks a.task = true := by
      rw [← hvalue]
      exact hadd.live _ List.mem_cons_self
    unfold contextSwitch at ht
    rw [touchTask_of_live (s := (((s₁.allocTask a).addTask listCreate a).touchTask _)) hlive] at ht
    rcases mem_faults_touchTask ht with rfl | ht
    · rfl
    · rcases mem_faults_touchTask (s := s₁.allocTask a) ht with rfl | ht
      · rfl
      · exact absurd ht List.not_mem_nil
  · intro x hx
    have hx : x ∈ (listInsertFront s₁.nodes listCreate a.task a.node).nodes.faults := hx
    rw [faults_listInsertFront_of_empty rfl rfl hf.node_ne] at hx
    exact List.mem_singleton.mp hx

end

/-- A machine whose memory is clear, and the memory its heap gives to the first two tasks. -/
def clearBoot : Sched := Sched.boot (fun _ => zeroTask) fun _ => ⟨0, 0, 0⟩

def firstAllocs : TaskAllocs := ⟨0x1000, 0x2000, 0x5000, 0x6000⟩

def secondAllocs : TaskAllocs := ⟨0x7000, 0x8000, 0xB000, 0xC000⟩

theorem fresh_firstAllocs : firstAllocs.Fresh clearBoot :=
  ⟨rfl, by decide, rfl, by decide, by decide⟩

/-! ## Destruction -/

/-- Destroying the first task of the list. -/
theorem TaskListOk.taskDestroy_eq (h : TaskListOk s l (n :: ns)) (ht : s.nodes.value n = t) :
    s.taskDestroy l t = { s with
      nodes := (listRemoveFront s.nodes l).nodes
      taskList := some (listRemoveFront s.nodes l).list
      liveTasks := Function.update s.liveTasks t false
      destroyed := t :: s.destroyed
      frees := [t, (s.tasks t).pageDir, (s.tasks t).kstackMem] ++ s.frees } := by
  have hn : n ∈ n :: ns := List.mem_cons_self
  have hlive : s.liveTasks t = true := by rw [← ht, h.live n hn]
  have hself : (s.tasks t).self = n := by rw [← ht, h.self n hn]
  have hrem : listRemoveNode s.nodes l n = listRemoveFront s.nodes l := by
    unfold listRemoveNode
    rw [if_pos (show l.head = n from h.represents.head),
      Nodes.touch_of_live (h.represents.live n hn)]
  unfold Sched.taskDestroy
  rw [Sched.touchTask_of_live hlive]
  dsimp only
  rw [hself, hrem]

theorem TaskListOk.taskDestroy (h : TaskListOk s l (n :: ns)) (hne : ns ≠ [])
    (ht : s.nodes.value n = t) :
    TaskListOk (s.taskDestroy l t) (listRemoveFront s.nodes l).list ns := by
  have hn : n ∈ n :: ns := List.mem_cons_self
  have hvalue := value_listRemoveFront (m := s.nodes) (l := l)
  have hsub : ∀ x ∈ ns, x ∈ n :: ns := fun x hx => List.mem_cons_of_mem n hx
  rw [h.taskDestroy_eq ht]
  refine ⟨rfl, h.represents.removeFront hne, ?_, ?_, ?_⟩
  · intro x hx
    show Function.update s.liveTasks t false _ = true
    rw [hvalue, Function.update_of_ne, h.live x (hsub x hx)]
    intro hxt
    have := h.value_inj (hsub x hx) hn (hxt.trans ht.symm)
    exact (List.nodup_cons.mp h.represents.nodup).1 (this ▸ hx)
  · intro x hx
    show (s.tasks _).self = x
    rw [hvalue]
    exact h.self x (hsub x hx)
  · intro x hx
    rw [hvalue]
    exact h.ne_null x (hsub x hx)

end PiggyOS
