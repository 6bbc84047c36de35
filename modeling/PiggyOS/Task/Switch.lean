import PiggyOS.Infra.Region
import PiggyOS.Infra.Run
import PiggyOS.Task.Basic

/-!
# Context switches (`context_switch.asm`)

`context_switch` is run instruction by instruction on registers and memory, and the stack of a new
task is laid out word by word as `task_create` does. Between two switches the running task does
what it likes, except in the stacks of other tasks.
-/

namespace PiggyOS

open Infra

/-- The registers that `context_switch` uses, the memory, `current_task` and the field `kstack` of
the tasks. `stackOf` is bookkeeping: the stack of each task. Before the first task runs,
`current_task` is 0 and the boot stack is kept under this address. -/
structure Machine where
  eax : U32
  ebx : U32
  esi : U32
  edi : U32
  ebp : U32
  esp : U32
  eip : U32
  eflags : U32
  cs : U32
  mem : Mem
  currentTask : U32
  kstack : U32 → U32
  stackOf : U32 → Option Region

namespace Machine

variable (m : Machine)

/-! ## Instructions -/

/-- `push` -/
def push (v : U32) : Machine := { m with esp := m.esp - 4, mem := m.mem.write32 (m.esp - 4) v }

/-- `pop eax` -/
def popEax : Machine := { m with eax := m.mem.read32 m.esp, esp := m.esp + 4 }

/-- `pop ebx` -/
def popEbx : Machine := { m with ebx := m.mem.read32 m.esp, esp := m.esp + 4 }

/-- `pop esi` -/
def popEsi : Machine := { m with esi := m.mem.read32 m.esp, esp := m.esp + 4 }

/-- `pop edi` -/
def popEdi : Machine := { m with edi := m.mem.read32 m.esp, esp := m.esp + 4 }

/-- `pop ebp` -/
def popEbp : Machine := { m with ebp := m.mem.read32 m.esp, esp := m.esp + 4 }

/-- `cli` -/
def cli : Machine := { m with eflags := m.eflags &&& ~~~0x200 }

/-- `iret` without a change of privilege. -/
def iret : Machine :=
  { m with
    eip := m.mem.read32 m.esp
    cs := m.mem.read32 (m.esp + 4)
    eflags := m.mem.read32 (m.esp + 8)
    esp := m.esp + 12 }

/-- `ret`: how a call ends that does not switch. -/
def ret : Machine := { m with eip := m.mem.read32 m.esp, esp := m.esp + 4 }

/-! ## `context_switch` -/

/-- The first half: saves the registers and the stack pointer of the caller. The flags `RF` and
`VM`, which `pushfd` would clear, are clear in kernel code. -/
def saveContext : Machine :=
  let m := m.popEax
  let m := m.push m.eflags
  let m := m.push m.eax
  let m := m.push m.ebp
  let m := m.push m.edi
  let m := m.push m.esi
  let m := m.push m.ebx
  let m := m.cli
  let m := { m with eax := m.currentTask }
  { m with kstack := Function.update m.kstack m.eax m.esp }

/-- The second half: goes on with the task that was passed. -/
def restoreContext : Machine :=
  let m := { m with eax := m.mem.read32 (m.esp + 24) }
  let m := { m with currentTask := m.eax }
  let m := { m with esp := m.kstack m.eax }
  let m := m.popEbx
  let m := m.popEsi
  let m := m.popEdi
  let m := m.popEbp
  -- setup iretd stack frame properly
  let m := m.popEax
  let m := m.push m.cs
  let m := m.push m.eax
  m.iret

/-- `context_switch`; the argument `next` lies above the return address. -/
def contextSwitch : Machine := m.saveContext.restoreContext

/-- The argument of a call about to be made. -/
def arg : U32 := m.mem.read32 (m.esp + 4)

/-- The stack of a new task: the part of `task_create` that fills `struct context`, whose fields
are `edi`, `esi`, `ebx`, `ebp`, `eip` and `eflags`. The first three keep what the memory holds. The
creating task has no saved interrupt frame. -/
def initStack (t : U32) (stack : Region) (func : U32) : Machine :=
  let kstack := initialKstack stack.base 0
  let mem := m.mem.write32 (kstack + 12) kstack
  let mem := mem.write32 (kstack + 16) func
  -- enable interrupts
  let mem := mem.write32 (kstack + 20) 0x202
  { m with
    mem := mem
    kstack := Function.update m.kstack t kstack
    stackOf := Function.update m.stackOf t (some stack) }

end Machine

/-! ## Steps -/

/-- A step of the system: the running task works until the state is `m'`, creates a task, or
calls `context_switch`. -/
inductive SwitchOp
  | work (m' : Machine)
  | create (t : U32) (stack : Region) (func : U32)
  | switch (next : U32)

/-- What a task may do between two switches. -/
structure Machine.Works (m m' : Machine) : Prop where
  currentTask : m'.currentTask = m.currentTask
  kstack : m'.kstack = m.kstack
  stackOf : m'.stackOf = m.stackOf
  mem : ∀ t r, t ≠ m.currentTask → m.stackOf t = some r → Mem.SameOn r m.mem m'.mem

/-- The heap answers with a stack that is disjoint from the stacks in use. -/
structure Machine.FreshStack (m : Machine) (t : U32) (stack : Region) : Prop where
  task : m.stackOf t = none
  size : stack.size = kstackSize.toNat
  disjoint : ∀ u r, m.stackOf u = some r → stack.Disjoint r

/-- The words that a call of `context_switch` reads and writes lie in the stack of the caller. -/
def Machine.CallInStack (m : Machine) : Prop :=
  ∃ r, m.stackOf m.currentTask = some r ∧ 20 ≤ m.esp.toNat ∧ r.Covers (m.esp.toNat - 20) 28

inductive SwitchStep : Machine → SwitchOp → Machine → Prop
  | work {m m' : Machine} : m.Works m' → SwitchStep m (.work m') m'
  | create {m : Machine} {t func : U32} {stack : Region} : m.FreshStack t stack →
      SwitchStep m (.create t stack func) (m.initStack t stack func)
  | switch {m : Machine} {next : U32} : m.CallInStack → m.arg = next → m.stackOf next ≠ none →
      SwitchStep m (.switch next) m.contextSwitch

/-- Before `multitasking_init`: there is only the boot stack. -/
structure Machine.Boot (m : Machine) : Prop where
  currentTask : m.currentTask = 0
  bootStack : m.stackOf 0 ≠ none
  noStack : ∀ t, t ≠ 0 → m.stackOf t = none

end PiggyOS
