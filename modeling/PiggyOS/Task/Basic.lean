import PiggyOS.Dsa.List

/-!
# Tasks and the scheduler (`task.c`)

Tasks are kept as objects under their addresses, like list nodes. The scheduler is a machine
that takes one step at a time: a call enters `schedule`, and each round of its `_pick_next` loop
is a step of its own, so that a loop that does not end is a run without end.

The addresses that the heap answers with are arguments of `taskCreate`.
-/

namespace PiggyOS

open Infra

/-- `enum task_state` -/
inductive TaskState
  | ready
  | sleeping
  | zombie
  deriving DecidableEq, Repr

/-- `task_t` -/
structure Task where
  kstack : U32
  kstackMem : U32
  pageDir : U32
  ifr : U32
  fpuState : U32
  fpuUsed : Bool
  self : U32
  tid : U32
  state : TaskState
  exitCode : U32
  usage : U32
  deriving DecidableEq, Repr

/-- A task after `kcalloc`; `TASK_READY` is 0. -/
def zeroTask : Task := ⟨0, 0, 0, 0, 0, false, 0, 0, .ready, 0, 0⟩

/-- `KSTACK_SIZE` -/
def kstackSize : U32 := 0x1000

/-- `sizeof(struct context)` -/
def sizeofContext : U32 := 24

/-- `sizeof(regs_t)` -/
def sizeofRegs : U32 := 76

/-- Where the stack pointer of a new task starts; a saved interrupt frame of the creating task is
copied below the top. -/
def initialKstack (stack ifr : U32) : U32 :=
  let kstack := stack + kstackSize - sizeofContext
  if ifr ≠ 0 then kstack - sizeofRegs else kstack

/-- What `malloc` returns to the four allocations of `task_create`: for the task, inside
`kmalloc_a` for the page directory, for the kernel stack and for the list node. -/
structure TaskAllocs where
  task : U32
  dir : U32
  stack : U32
  node : U32
  deriving DecidableEq, Repr

/-- The pointer `kmalloc_a` makes of what `malloc` returned. -/
def kmallocAligned (addr : U32) : U32 := (addr &&& 0xFFFFF000) + 0x1000

/-- Where the scheduler is: a task runs, `_pick_next` is about to look at `nextNode`, or the
kernel has panicked. -/
inductive Phase
  | idle
  | picking (nextNode : U32)
  | panicked
  deriving DecidableEq, Repr

/-- The variables of `task.c` and the tasks. The last six fields are bookkeeping: which tasks are
in use, the tasks used although they are not, the tasks created, destroyed and switched to, and
the pointers passed to `kfree`; the logs are kept last one first. -/
structure Sched where
  nodes : Nodes
  taskList : Option ListT
  currentTask : U32
  tasks : U32 → Task
  nextTid : U32
  prevTicks : U32
  phase : Phase
  liveTasks : U32 → Bool
  faults : List U32
  created : List U32
  destroyed : List U32
  selected : List U32
  frees : List U32

namespace Sched

variable (s : Sched)

/-- An access to the task at `t`. -/
def touchTask (t : U32) : Sched :=
  { s with faults := if s.liveTasks t then s.faults else t :: s.faults }

/-- `context_switch(next)`: the stack pointer is stored in the current task, also if there is
none, and from here on `next` runs. -/
def contextSwitch (next : U32) : Sched :=
  { (s.touchTask s.currentTask).touchTask next with
    currentTask := next, phase := .idle, selected := next :: s.selected }

/-- `schedule` up to `_pick_next`. -/
def enterSchedule : Sched :=
  match s.taskList with
  | none => s
  | some l =>
    -- this only happens for the first task
    if s.currentTask = 0 then
      let r := listPeekFront s.nodes l
      { s with nodes := r.nodes }.contextSwitch r.ret
    else
      let s := s.touchTask s.currentTask
      let node := (s.tasks s.currentTask).self
      { s with nodes := s.nodes.touch node, phase := .picking (s.nodes.next node) }

/-- The task that `_pick_next` looks at: the front of the list once its end is reached. -/
def pickNext (l : ListT) (nextNode : U32) : Sched × U32 :=
  if nextNode = 0 then
    let r := listPeekFront s.nodes l
    ({ s with nodes := r.nodes }, r.ret)
  else ({ s with nodes := s.nodes.touch nextNode }, s.nodes.value nextNode)

/-- `task_destroy` -/
def taskDestroy (l : ListT) (t : U32) : Sched :=
  let s := s.touchTask t
  let r := listRemoveNode s.nodes l (s.tasks t).self
  { s with
    nodes := r.nodes
    taskList := some r.list
    liveTasks := Function.update s.liveTasks t false
    destroyed := t :: s.destroyed
    frees := [t, (s.tasks t).pageDir, (s.tasks t).kstackMem] ++ s.frees }

/-- The end of `schedule`, at the time `ticks`: charges the current task and switches. -/
def switchTo (next ticks : U32) : Sched :=
  let s := s.touchTask s.currentTask
  let current := s.tasks s.currentTask
  { s with
    tasks := Function.update s.tasks s.currentTask
      { current with usage := current.usage + (ticks - s.prevTicks) }
    prevTicks := ticks }.contextSwitch next

/-- One round of `_pick_next`. A dead task is destroyed and `next_node` stays as it is. -/
def pick (l : ListT) (nextNode ticks : U32) : Sched :=
  let (s, next) := s.pickNext l nextNode
  let s := s.touchTask next
  if (s.tasks next).state = .zombie then s.taskDestroy l next
  else if s.currentTask = 0 then { s with phase := .panicked }
  else s.switchTo next ticks

/-- The task that `task_create` sets up. -/
def newTask (a : TaskAllocs) : Task :=
  { zeroTask with
    tid := s.nextTid
    state := .ready
    exitCode := 0
    ifr := 0
    pageDir := kmallocAligned a.dir
    kstackMem := a.stack }

/-- `task_create` up to the allocation of the kernel stack. -/
def allocTask (a : TaskAllocs) : Sched :=
  { s with
    tasks := Function.update s.tasks a.task (s.newTask a)
    nextTid := s.nextTid + 1
    liveTasks := Function.update s.liveTasks a.task true
    created := a.task :: s.created }

/-- The rest of `task_create` before it calls `schedule`. -/
def addTask (l : ListT) (a : TaskAllocs) : Sched :=
  -- `current_task->ifr`, also while there is no current task
  let s := s.touchTask s.currentTask
  let kstack := initialKstack a.stack (s.tasks s.currentTask).ifr
  let r := listInsertFront s.nodes l a.task a.node
  { s with
    nodes := r.nodes
    taskList := some r.list
    tasks := Function.update s.tasks a.task
      { s.tasks a.task with kstack := kstack, self := r.ret } }

/-- `task_create`; the new page directory and the new stack are in `Task/Shared.lean` and
`Task/Switch.lean`. `none` without a task list. -/
def taskCreate (a : TaskAllocs) : Option Sched :=
  let s := s.allocTask a
  if a.stack = 0 then some { s with frees := 0 :: s.frees }
  else s.taskList.map fun l => (s.addTask l a).enterSchedule

/-- `task_exit` -/
def taskExit (code : U32) : Sched :=
  let s := s.touchTask s.currentTask
  { s with
    tasks := Function.update s.tasks s.currentTask
      { s.tasks s.currentTask with exitCode := code, state := .zombie } }.enterSchedule

/-- `multitasking_init` -/
def multitaskingInit (a : TaskAllocs) : Option Sched :=
  { s with taskList := some listCreate }.taskCreate a

/-- Before `multitasking_init`, whatever the memory of tasks and nodes holds. -/
def boot (tasks : U32 → Task) (node : U32 → ListNode) : Sched where
  nodes := ⟨node, fun _ => false, [], []⟩
  taskList := none
  currentTask := 0
  tasks := tasks
  nextTid := 0
  prevTicks := 0
  phase := .idle
  liveTasks := fun _ => false
  faults := []
  created := []
  destroyed := []
  selected := []
  frees := []

end Sched

/-! ## Steps -/

/-- A step of the system: the running task makes a call, or `_pick_next` makes a round. -/
inductive SchedOp
  | create (a : TaskAllocs)
  | exit (code : U32)
  | schedule
  | pick (ticks : U32)

/-- The heap answers with memory that is not in use. -/
structure TaskAllocs.Fresh (a : TaskAllocs) (s : Sched) : Prop where
  task : s.liveTasks a.task = false
  task_ne : a.task ≠ 0
  node : s.nodes.live a.node = false
  node_ne : a.node ≠ 0
  stack_ne : a.stack ≠ 0

inductive SchedStep : Sched → SchedOp → Sched → Prop
  | create {s s' : Sched} {a : TaskAllocs} : s.phase = .idle → a.Fresh s →
      s.taskCreate a = some s' → SchedStep s (.create a) s'
  | exit {s : Sched} {code : U32} : s.phase = .idle → SchedStep s (.exit code) (s.taskExit code)
  | schedule {s : Sched} : s.phase = .idle → SchedStep s .schedule s.enterSchedule
  | pick {s : Sched} {l : ListT} {nextNode ticks : U32} : s.phase = .picking nextNode →
      s.taskList = some l → SchedStep s (.pick ticks) (s.pick l nextNode ticks)

end PiggyOS
