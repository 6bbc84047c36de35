import PiggyOS.Kheap.Termination
import PiggyOS.Task.RoundRobin

/-!
# The kernel half of the address spaces

`task_create` copies the directory in use, so that the new one has the tables that the kernel's
has at that time. Tables that heap growth makes later are entered in the kernel's directory only.

* `TaskSpaceStep` — what happens after boot: the heap grows, tasks are created and take turns
* `KernelShared` — what the kernel's directory maps above `KERN_BASE`, all tasks map alike
* `kernel_half_shared_iff` — so it is as long as no page table is made once there are tasks
-/

namespace PiggyOS

open Infra

/-! ## Steps -/

/-- The memory and the tasks. -/
structure TaskSpaces where
  physical : Physical
  sched : Sched

inductive TaskSpaceOp
  | sbrk (size : U32)
  | init (a : TaskAllocs)
  | create (a : TaskAllocs)
  | schedule
  | pick (ticks : U32)

namespace TaskSpaces

variable (s : TaskSpaces)

abbrev kernel : Kernel := s.physical.kernel

abbrev vmm : Vmm := s.physical.kernel.vmm

/-- No directory in use is at `d`. -/
structure FreshDir (d : U32) : Prop where
  ne_kernel : d ≠ s.vmm.kernelPageDir
  ne_task : ∀ t, s.sched.liveTasks t = true → (s.sched.tasks t).pageDir ≠ d

end TaskSpaces

/-- `switch_page_directory(next->page_dir)` at the end of `schedule`, if a round of `_pick_next`
comes to it. -/
def Physical.switchTo (p : Physical) (t : Sched) : Physical :=
  if t.phase = .idle then
    { p with
      kernel := { p.kernel with
        vmm := p.kernel.vmm.switchPageDirectory (t.tasks t.currentTask).pageDir } }
  else p

/-- Steps after boot. The heap grows in steps of its own, also for the allocations of
`task_create`: those before the directory is copied come before the step that creates the task,
those behind come after it. -/
inductive TaskSpaceStep : TaskSpaces → TaskSpaceOp → TaskSpaces → Prop
  | sbrk {s : TaskSpaces} {n : Nat} {size r : U32} {k : Kernel} : 0 < size.toInt →
      Kernel.ksbrk n s.kernel size = some (k, r) →
      TaskSpaceStep s (.sbrk size) ⟨{ s.physical with kernel := k }, s.sched⟩
  | init {s : TaskSpaces} {a : TaskAllocs} {kmallocA : Fin 1024 → TableSource} {p : Physical}
      {t : Sched} : s.sched.taskList = none → a.Fresh s.sched →
      s.FreshDir (kmallocAligned a.dir) → s.physical.copyPageDirectory kmallocA
        (kmallocAligned a.dir) s.vmm.currentPageDir = some p →
      s.sched.multitaskingInit a = some t → TaskSpaceStep s (.init a) ⟨p, t⟩
  | create {s : TaskSpaces} {a : TaskAllocs} {kmallocA : Fin 1024 → TableSource} {p : Physical}
      {t : Sched} : s.FreshDir (kmallocAligned a.dir) → s.physical.copyPageDirectory kmallocA
        (kmallocAligned a.dir) s.vmm.currentPageDir = some p →
      SchedStep s.sched (.create a) t → TaskSpaceStep s (.create a) ⟨p, t⟩
  | schedule {s : TaskSpaces} {t : Sched} : SchedStep s.sched .schedule t →
      TaskSpaceStep s .schedule ⟨s.physical, t⟩
  | pick {s : TaskSpaces} {ticks : U32} {t : Sched} : SchedStep s.sched (.pick ticks) t →
      TaskSpaceStep s (.pick ticks) ⟨s.physical.switchTo t, t⟩

namespace TaskSpaces

/-- What the kernel's directory maps above `KERN_BASE`, the directories of all tasks map to the
same frames. -/
def KernelShared (s : TaskSpaces) : Prop :=
  ∀ t, s.sched.liveTasks t = true → ∀ va page, kernBase ≤ va →
    s.vmm.lookup s.vmm.kernelPageDir va = some page →
    ∃ page', s.vmm.lookup (s.sched.tasks t).pageDir va = some page' ∧ page'.frame = page.frame

/-- Once there are tasks, the heap grows only where there are page tables. -/
def Safe (s : TaskSpaces) : TaskSpaceOp → Prop
  | .sbrk size => (∃ t, s.sched.liveTasks t = true) → ¬ s.kernel.NeedsTable size
  | _ => True

end TaskSpaces

/-! ## What the scheduler does to the directories of tasks -/

namespace Sched

variable {s s' : Sched} {a : TaskAllocs}

theorem pageDir_taskCreate (hf : a.Fresh s) (h : s.taskCreate a = some s') (t : U32) :
    (s'.tasks t).pageDir = if t = a.task then kmallocAligned a.dir else (s.tasks t).pageDir := by
  obtain ⟨kstack, htasks⟩ := tasks_taskCreate hf h
  rw [htasks]
  by_cases ht : t = a.task
  · rw [if_pos ht, ht, Function.update_self]
    rfl
  · rw [if_neg ht, Function.update_of_ne ht]

end Sched

/-- Among tasks that take turns a round always finds one to switch to. -/
theorem InTurn.exists_pick {s : Sched} {r : TurnRing U32} {l : ListT} {xs ys : List U32} {n : U32}
    (h : InTurn s r l xs n ys) (ticks : U32) :
    ∃ next, s.pick l (s.nodes.next n) ticks = s.switchTo next ticks := by
  have hmem : pickedNode l (s.nodes.next n) ∈ xs ++ n :: ys := by
    rw [h.ok.pickedNode_eq]
    cases ys with
    | cons y ys => simp
    | nil => cases xs <;> simp
  exact ⟨_, h.ok.pick_of_alive hmem h.currentTask_ne rfl (h.alive _ hmem)⟩

/-- A round of `_pick_next` leaves the directories of the tasks alone. -/
theorem Turns.pageDir_pick {s t : Sched} {r : TurnRing U32} {ticks : U32} (h : Turns s r)
    (hs : SchedStep s (.pick ticks) t) : t.liveTasks = s.liveTasks ∧
      ∀ x, (t.tasks x).pageDir = (s.tasks x).pageDir := by
  obtain ⟨l, xs, n, ys, h⟩ := h
  cases hs with
  | @pick l' nextNode _ hphase hl =>
    obtain rfl := Option.some.inj (h.ok.list.symm.trans hl)
    have hnode : nextNode = s.nodes.next n := by
      rcases h.phase with hidle | hpick
      · rw [hidle] at hphase
        cases hphase
      · rw [hpick] at hphase
        exact (Phase.picking.inj hphase).symm
    obtain ⟨next, hnext⟩ := h.exists_pick ticks
    rw [hnode, hnext]
    exact ⟨rfl, fun x => s.field_switchTo Task.pageDir (fun _ _ => rfl) next ticks x⟩

/-! ## The invariant -/

/-- All directories are copies of the kernel's, and the one in use is among them. -/
structure SharedOk (s : TaskSpaces) : Prop where
  order : s.kernel.TableOrder
  turns : (∃ tasks node, s.sched = Sched.boot tasks node) ∨ ∃ r, Turns s.sched r
  current : s.vmm.currentPageDir = s.vmm.kernelPageDir ∨
    ∃ t, s.sched.liveTasks t = true ∧ (s.sched.tasks t).pageDir = s.vmm.currentPageDir
  ne_kernel : ∀ t, s.sched.liveTasks t = true →
    (s.sched.tasks t).pageDir ≠ s.vmm.kernelPageDir
  copies : ∀ t, s.sched.liveTasks t = true →
    s.vmm.dirs (s.sched.tasks t).pageDir = s.vmm.dirs s.vmm.kernelPageDir

namespace SharedOk

variable {s s' : TaskSpaces} {op : TaskSpaceOp} {a : TaskAllocs} {p : Physical} {t : Sched}

theorem kernelShared (h : SharedOk s) : s.KernelShared := by
  intro t ht va page _ hpage
  refine ⟨page, ?_, rfl⟩
  unfold Vmm.lookup Vmm.tableOf at hpage ⊢
  rw [h.copies t ht]
  exact hpage

theorem dirs_current (h : SharedOk s) :
    s.vmm.dirs s.vmm.currentPageDir = s.vmm.dirs s.vmm.kernelPageDir := by
  rcases h.current with he | ⟨t, ht, he⟩
  · rw [he]
  · rw [← he]
    exact h.copies t ht

/-- A growing call that needs no table, or that comes before the first task. -/
theorem sbrk (h : SharedOk s) {n : Nat} {size r : U32} {k : Kernel} (hpos : 0 < size.toInt)
    (hk : Kernel.ksbrk n s.kernel size = some (k, r)) (hsafe : s.Safe (.sbrk size)) :
    SharedOk ⟨{ s.physical with kernel := k }, s.sched⟩ := by
  have hcall := h.order.ksbrk n hpos hk
  obtain ⟨hkernel, hcurrent, -⟩ := hcall.others
  refine ⟨hcall.toTableOrder, h.turns, ?_, ?_, ?_⟩
  · exact h.current.imp (fun he => hcurrent.trans (he.trans hkernel.symm))
      fun ⟨t, ht, he⟩ => ⟨t, ht, he.trans hcurrent.symm⟩
  · intro t ht
    exact (h.ne_kernel t ht).trans_eq hkernel.symm
  · intro t ht
    have hdirs : k.vmm.dirs = s.vmm.dirs := h.order.dirs_of_ksbrk hpos (hsafe ⟨t, ht⟩) hk
    show k.vmm.dirs (s.sched.tasks t).pageDir = k.vmm.dirs k.vmm.kernelPageDir
    rw [hdirs, hkernel]
    exact h.copies t ht

/-- A growing call that makes a table maps a page that the tasks do not see. -/
theorem not_kernelShared_sbrk (h : SharedOk s) {n : Nat} {size r : U32} {k : Kernel}
    (hpos : 0 < size.toInt) (hk : Kernel.ksbrk n s.kernel size = some (k, r))
    (hsafe : ¬ s.Safe (.sbrk size)) :
    ¬ TaskSpaces.KernelShared ⟨{ s.physical with kernel := k }, s.sched⟩ := by
  obtain ⟨⟨t, ht⟩, hneeds⟩ := Classical.not_imp.mp hsafe
  have hcall := h.order.ksbrk n hpos hk
  obtain ⟨va, hva, hnone, hlookup⟩ :=
    h.order.exists_mapped_of_needsTable hpos (not_not.mp hneeds) hk
  intro hshared
  obtain ⟨page, hpage⟩ := Option.ne_none_iff_exists'.mp hlookup
  have hbase : kernBase ≤ va := BitVec.le_def.mpr (by rw [kernBase_toNat]; omega)
  obtain ⟨page', hpage', -⟩ := hshared t ht va page hbase hpage
  have htable : k.vmm.tableOf (s.sched.tasks t).pageDir va = 0 := by
    rw [Vmm.tableOf, hcall.others.dirs _ (h.ne_kernel t ht), h.copies t ht]
    exact hnone
  unfold Vmm.lookup at hpage'
  rw [htable] at hpage'
  simp at hpage'

/-- The copy of the directory in use. -/
theorem copyPageDirectory_eq (h : SharedOk s) {d : U32} (hfresh : s.FreshDir d)
    {kmallocA : Fin 1024 → TableSource}
    (hcopy : s.physical.copyPageDirectory kmallocA d s.vmm.currentPageDir = some p) :
    p = s.physical.withDirectory d (s.vmm.dirs s.vmm.kernelPageDir) := by
  have hsrc : d ≠ s.vmm.currentPageDir := by
    rcases h.current with he | ⟨t, ht, he⟩
    · rw [he]
      exact hfresh.ne_kernel
    · rw [← he]
      exact (hfresh.ne_task t ht).symm
  have hshared : ∀ i, s.vmm.Shared s.vmm.currentPageDir i := by
    intro i
    unfold Vmm.Shared
    rw [h.dirs_current]
  rw [Physical.copyPageDirectory_of_shared kmallocA hsrc hfresh.ne_kernel hshared,
    h.dirs_current] at hcopy
  exact (Option.some.inj hcopy).symm

/-- A new task `n` with the directory `d`. -/
theorem create (h : SharedOk s) {d n : U32} (hfresh : s.FreshDir d)
    {kmallocA : Fin 1024 → TableSource}
    (hcopy : s.physical.copyPageDirectory kmallocA d s.vmm.currentPageDir = some p)
    (hf : s.sched.liveTasks n = false)
    (hlive : t.liveTasks = Function.update s.sched.liveTasks n true)
    (hdir : ∀ x, (t.tasks x).pageDir = if x = n then d else (s.sched.tasks x).pageDir)
    (hturns : ∃ r, Turns t r) : SharedOk ⟨p, t⟩ := by
  rw [h.copyPageDirectory_eq hfresh hcopy]
  -- a live task is not the new one
  have hold : ∀ x, s.sched.liveTasks x = true → t.liveTasks x = true ∧
      (t.tasks x).pageDir = (s.sched.tasks x).pageDir := by
    intro x hx
    have hne : x ≠ n := by
      rintro rfl
      rw [hf] at hx
      cases hx
    rw [hlive, hdir, if_neg hne, Function.update_of_ne hne]
    exact ⟨hx, rfl⟩
  have hcases : ∀ x, t.liveTasks x = true → (t.tasks x).pageDir = d ∨
      s.sched.liveTasks x = true ∧ (t.tasks x).pageDir = (s.sched.tasks x).pageDir := by
    intro x hx
    by_cases he : x = n
    · exact Or.inl (by rw [hdir, if_pos he])
    · rw [hlive, Function.update_of_ne he] at hx
      exact Or.inr ⟨hx, (hold x hx).2⟩
  have hkernel : Function.update s.vmm.dirs d (s.vmm.dirs s.vmm.kernelPageDir)
      s.vmm.kernelPageDir = s.vmm.dirs s.vmm.kernelPageDir :=
    Function.update_of_ne hfresh.ne_kernel.symm _ _
  refine ⟨h.order.of_dir rfl hkernel, Or.inr hturns, ?_, ?_, ?_⟩
  · refine h.current.imp_right ?_
    rintro ⟨x, hx, he⟩
    exact ⟨x, (hold x hx).1, (hold x hx).2.trans he⟩
  · intro x hx
    show (t.tasks x).pageDir ≠ s.vmm.kernelPageDir
    rcases hcases x hx with he | ⟨hx, he⟩
    · rw [he]
      exact hfresh.ne_kernel
    · rw [he]
      exact h.ne_kernel x hx
  · intro x hx
    show Function.update s.vmm.dirs d (s.vmm.dirs s.vmm.kernelPageDir) (t.tasks x).pageDir =
      Function.update s.vmm.dirs d (s.vmm.dirs s.vmm.kernelPageDir) s.vmm.kernelPageDir
    rw [hkernel]
    rcases hcases x hx with he | ⟨hx, he⟩
    · rw [he, Function.update_self]
    · rw [he, Function.update_of_ne (hfresh.ne_task x hx)]
      exact h.copies x hx

/-- A step that leaves the tasks and their directories alone. -/
theorem of_sched (h : SharedOk s) (hlive : t.liveTasks = s.sched.liveTasks)
    (hdir : ∀ x, (t.tasks x).pageDir = (s.sched.tasks x).pageDir)
    (hturns : (∃ tasks node, t = Sched.boot tasks node) ∨ ∃ r, Turns t r) :
    SharedOk ⟨s.physical, t⟩ := by
  refine ⟨h.order, hturns, ?_, ?_, ?_⟩
  · refine h.current.imp_right ?_
    rintro ⟨x, hx, he⟩
    exact ⟨x, by rw [hlive]; exact hx, (hdir x).trans he⟩
  · intro x hx
    rw [hlive] at hx
    exact (hdir x).trans_ne (h.ne_kernel x hx)
  · intro x hx
    rw [hlive] at hx
    show s.vmm.dirs (t.tasks x).pageDir = s.vmm.dirs s.vmm.kernelPageDir
    rw [hdir]
    exact h.copies x hx

/-- The switch to the directory of a task. -/
theorem switchTo (h : SharedOk s) (hlive : s.sched.liveTasks s.sched.currentTask = true) :
    SharedOk ⟨s.physical.switchTo s.sched, s.sched⟩ := by
  unfold Physical.switchTo
  split
  · exact ⟨h.order.of_dir rfl rfl, h.turns, Or.inr ⟨_, hlive, rfl⟩, h.ne_kernel, h.copies⟩
  · exact h

/-- A task can be created, and `_pick_next` makes rounds, only among tasks that take turns. -/
theorem exists_turns (h : SharedOk s) {op : SchedOp} (hs : SchedStep s.sched op t)
    (hop : op ≠ .schedule) (hexit : ∀ code, op ≠ .exit code) :
    ∃ r, Turns s.sched r ∧ ∃ r', Turns t r' := by
  rcases h.turns with ⟨tasks, node, hboot⟩ | ⟨r, hturns⟩
  · rw [hboot] at hs
    cases hs with
    | create _ hf hs =>
      obtain ⟨l, hl, -⟩ := Sched.exists_of_taskCreate hf hs
      cases hl
    | exit _ => exact absurd rfl (hexit _)
    | schedule _ => exact absurd rfl hop
    | pick hphase _ => cases hphase
  · obtain ⟨r', hr'⟩ := hturns.run (.snoc (.nil _) ⟨hs, hexit⟩)
    exact ⟨r, hturns, r', hr'⟩

/-- **Safe steps keep the directories alike.** -/
theorem step (h : SharedOk s) (hstep : TaskSpaceStep s op s') (hsafe : s.Safe op) :
    SharedOk s' := by
  cases hstep with
  | sbrk hpos hk => exact h.sbrk hpos hk hsafe
  | init hnone hf hfresh hcopy hinit =>
    rcases h.turns with ⟨tasks, node, hboot⟩ | ⟨r, l, xs, n, ys, hturns⟩
    · rw [hboot] at hf hinit
      obtain ⟨t, ht, hstarted⟩ := Sched.started_multitaskingInit hf
      rw [hinit] at ht
      cases ht
      obtain ⟨r, hr, -⟩ := Turns.exists_of_wellFormed hstarted.wellFormed
      have hf₁ : TaskAllocs.Fresh _ { Sched.boot tasks node with taskList := some listCreate } :=
        ⟨hf.task, hf.task_ne, hf.node, hf.node_ne, hf.stack_ne⟩
      have hlive := Sched.liveTasks_taskCreate hf₁ hinit
      have hdir := Sched.pageDir_taskCreate hf₁ hinit
      rw [← hboot] at hf
      refine h.create hfresh hcopy hf.task ?_ ?_ ⟨r, hr⟩
      · rw [hboot]
        exact hlive
      · rw [hboot]
        exact hdir
    · rw [hturns.ok.list] at hnone
      cases hnone
  | create hfresh hcopy hs =>
    obtain ⟨-, -, hturns⟩ := h.exists_turns hs SchedOp.noConfusion fun _ => SchedOp.noConfusion
    cases hs with
    | create _ hf hs =>
      exact h.create hfresh hcopy hf.task (Sched.liveTasks_taskCreate hf hs)
        (Sched.pageDir_taskCreate hf hs) hturns
  | schedule hs =>
    cases hs with
    | schedule hidle =>
      refine h.of_sched (Sched.liveTasks_enterSchedule _) (fun x => ?_) ?_
      · rw [Sched.tasks_enterSchedule]
      · rcases h.turns with ⟨tasks, node, hboot⟩ | ⟨r, hturns⟩
        · exact Or.inl ⟨tasks, node, by rw [hboot]; rfl⟩
        · exact Or.inr (hturns.run (.snoc (.nil _) ⟨.schedule hidle, fun _ => SchedOp.noConfusion⟩))
  | pick hs =>
    obtain ⟨r, hturns, r', hturns'⟩ := h.exists_turns hs SchedOp.noConfusion
      fun _ => SchedOp.noConfusion
    obtain ⟨hlive, hdir⟩ := hturns.pageDir_pick hs
    have hnext := h.of_sched hlive hdir (Or.inr ⟨r', hturns'⟩)
    obtain ⟨l, xs, n, ys, hturn⟩ := hturns'
    exact hnext.switchTo hturn.currentTask_live

/-- After boot there are no tasks, and the kernel's directory is in use. -/
theorem of_booted {k₀ k₁ : Kernel} {kmallocA : TableSource} (hbooted : Kernel.Booted k₀ k₁)
    (hroom : BootRoom k₀.vmm.pmm.bitmapEnd) (hempty : k₀.heap.freelist = 0)
    (hboot : k₀.vmmInit kmallocA = some k₁) (phys : Mem) (tasks : U32 → Task)
    (node : U32 → ListNode) : SharedOk ⟨⟨k₁.kheapInit, phys⟩, Sched.boot tasks node⟩ := by
  refine ⟨Kernel.tableOrder_kheapInit hbooted hroom hempty, Or.inl ⟨tasks, node, rfl⟩, Or.inl ?_,
    ?_, ?_⟩
  · have hcurrent := Kernel.currentPageDir_vmmInit hboot
    exact hcurrent
  · intro t ht
    cases ht
  · intro t ht
    cases ht

end SharedOk

/-- **The kernel half is shared exactly as long as no page table is made once there are tasks.** -/
theorem kernel_half_shared_iff {p : Pmm} {mem : Mem} {kernelEndVirt : U32} {kmallocA : TableSource}
    {k₁ : Kernel} (hroom : BootRoom p.bitmapEnd)
    (hboot : (Kernel.loaded p mem kernelEndVirt).vmmInit kmallocA = some k₁) (phys : Mem)
    (tasks : U32 → Task) (node : U32 → ListNode) (ops : List TaskSpaceOp) (s : TaskSpaces) :
    (∀ u, Passed TaskSpaceStep ⟨⟨k₁.kheapInit, phys⟩, Sched.boot tasks node⟩ ops s u →
        u.KernelShared) ↔
      ∀ u op v,
        PassedStep TaskSpaceStep ⟨⟨k₁.kheapInit, phys⟩, Sched.boot tasks node⟩ ops s u op v →
        u.Safe op := by
  obtain ⟨k₂, hk₂, hbooted⟩ := Kernel.vmmInit_spec
    (show (Kernel.loaded p mem kernelEndVirt).heap.kheapEnabled = false from rfl) rfl hroom kmallocA
  rw [hboot] at hk₂
  cases hk₂
  refine Run.good_iff_safe (fun _ h => SharedOk.kernelShared h)
    (fun _ _ _ h hstep hsafe => h.step hstep hsafe) ?_
    (SharedOk.of_booted hbooted hroom rfl hboot phys tasks node)
  intro u op v h hstep hsafe
  cases hstep with
  | sbrk hpos hk => exact h.not_kernelShared_sbrk hpos hk hsafe
  | init => exact absurd trivial hsafe
  | create => exact absurd trivial hsafe
  | schedule => exact absurd trivial hsafe
  | pick => exact absurd trivial hsafe

/-- `multitasking_init` while the kernel's directory is in use. -/
theorem taskSpaceStep_init {s : TaskSpaces} {a : TaskAllocs} {t : Sched}
    (hnone : s.sched.taskList = none) (hf : a.Fresh s.sched)
    (hfresh : s.FreshDir (kmallocAligned a.dir))
    (hcurrent : s.vmm.currentPageDir = s.vmm.kernelPageDir)
    (hinit : s.sched.multitaskingInit a = some t) :
    TaskSpaceStep s (.init a) ⟨s.physical.withDirectory (kmallocAligned a.dir)
      (s.vmm.dirs s.vmm.kernelPageDir), t⟩ := by
  have hcopy : s.physical.copyPageDirectory (fun _ _ _ => none) (kmallocAligned a.dir)
      s.vmm.currentPageDir = some (s.physical.withDirectory (kmallocAligned a.dir)
        (s.vmm.dirs s.vmm.kernelPageDir)) := by
    rw [hcurrent]
    exact Physical.copyPageDirectory_of_shared _ hfresh.ne_kernel hfresh.ne_kernel fun _ => rfl
  exact .init hnone hf hfresh hcopy hinit

/-- Memory in the initial heap for the first task. -/
def heapAllocs : TaskAllocs := ⟨0xC0500000, 0xC0501000, 0xC0505000, 0xC0507000⟩

theorem fresh_heapAllocs : heapAllocs.Fresh clearBoot :=
  ⟨rfl, by decide, rfl, by decide, by decide⟩

/-- The machine with 16 MiB after boot. -/
def started16 (k₁ : Kernel) : TaskSpaces := ⟨⟨k₁.kheapInit, fun _ => 0⟩, clearBoot⟩

/-- After boot with 16 MiB the first task is created. -/
theorem exists_first_task : ∃ k₁, Kernel.machine16.vmmInit (fun _ _ => none) = some k₁ ∧
    Kernel.Booted Kernel.machine16 k₁ ∧ SharedOk (started16 k₁) ∧
    ∃ s, TaskSpaceStep (started16 k₁) (.init heapAllocs) s ∧
      s.sched.liveTasks 0xC0500000 = true := by
  obtain ⟨k₁, hk₁, hbooted⟩ := Kernel.vmmInit_spec Kernel.heap_machine16 Kernel.paging_machine16
    Kernel.bootRoom_machine16 (fun _ _ => none)
  obtain ⟨t, ht, hstarted⟩ := Sched.started_multitaskingInit fresh_heapAllocs
  have hdir : k₁.vmm.kernelPageDir = 0xC0181000 := hbooted.dir
  have hne : kmallocAligned heapAllocs.dir ≠ k₁.vmm.kernelPageDir := by
    rw [hdir]
    decide
  have hcurrent := Kernel.currentPageDir_vmmInit hk₁
  have hok := SharedOk.of_booted hbooted Kernel.bootRoom_machine16 rfl hk₁ (fun _ => 0)
    (fun _ => zeroTask) fun _ => ⟨0, 0, 0⟩
  refine ⟨k₁, hk₁, hbooted, hok, _, taskSpaceStep_init rfl fresh_heapAllocs ⟨hne, ?_⟩ hcurrent ht,
    ?_⟩
  · intro x hx
    cases hx
  · rw [hstarted.liveTasks]
    exact Function.update_self ..

/-- The new directory is all that the first task changes in the memory managers. -/
theorem SharedOk.kernel_of_init {s s' : TaskSpaces} {a : TaskAllocs} (h : SharedOk s)
    (hstep : TaskSpaceStep s (.init a) s') : s'.kernel.heap = s.kernel.heap ∧
      s'.vmm.kernelPageDir = s.vmm.kernelPageDir ∧
      s'.vmm.currentPageDir = s.vmm.currentPageDir ∧
      s'.vmm.dirs s'.vmm.kernelPageDir = s.vmm.dirs s.vmm.kernelPageDir ∧
      s'.vmm.tabs = s.vmm.tabs := by
  cases hstep with
  | init _ _ hfresh hcopy _ =>
    rw [h.copyPageDirectory_eq hfresh hcopy]
    generalize kmallocAligned a.dir = d at hfresh
    exact ⟨rfl, rfl, rfl, Function.update_of_ne hfresh.ne_kernel.symm _ _, rfl⟩

/-- A small allocation after the first task has been created. -/
theorem kernel_half_shared_iff_small : ∃ k₁ s,
    Kernel.machine16.vmmInit (fun _ _ => none) = some k₁ ∧
    Run TaskSpaceStep (started16 k₁) ([] ++ [.init heapAllocs] ++ [.sbrk 16]) s ∧
    s.sched.liveTasks 0xC0500000 = true ∧
    ∀ u, Passed TaskSpaceStep (started16 k₁) ([] ++ [.init heapAllocs] ++ [.sbrk 16]) s u →
      u.KernelShared := by
  obtain ⟨k₁, hk₁, -, hok, s, hstep, hlive⟩ := exists_first_task
  have hfits : k₁.kheapInit.heap.heapCurr + 16 ≤ k₁.kheapInit.heap.heapEnd :=
    show Kernel.kheapStart + 16 ≤ Kernel.kheapStart + Kernel.kheapInitialSize by decide
  have hsbrk := Kernel.ksbrk_move (k := s.kernel) (n := 0) (show 0 < (16 : U32).toInt by decide)
    (by rw [(hok.kernel_of_init hstep).1]; exact hfits)
  have hrun := Run.snoc (.snoc (.nil _) hstep) (.sbrk (by decide) hsbrk)
  refine ⟨k₁, _, hk₁, hrun, hlive, ?_⟩
  refine (kernel_half_shared_iff Kernel.bootRoom_machine16 hk₁ _ _ _ _ _).mpr ?_
  rintro u op v ⟨before, after, hops, hbefore, -, -⟩
  rcases before with _ | ⟨first, before⟩
  · obtain ⟨rfl, -⟩ := List.cons.inj hops
    trivial
  · obtain ⟨rfl, hrest⟩ := List.cons.inj hops
    obtain ⟨u₁, hfirst, hsecond⟩ := hbefore.exists_first
    rcases before with _ | ⟨second, before⟩
    · obtain ⟨rfl, -⟩ := List.cons.inj hrest
      rintro - ⟨hlt, -⟩
      rw [hsecond.eq_of_nil, (hok.kernel_of_init hfirst).1] at hlt
      exact absurd hfits (BitVec.not_le.mpr hlt)
    · simp at hrest

/-- After the first task has been created, `ksbrk(9 MB)` makes a page table that the task does
not have. -/
theorem not_kernel_half_shared : ∃ k₁ s,
    Kernel.machine16.vmmInit (fun _ _ => none) = some k₁ ∧
    Run TaskSpaceStep (started16 k₁) ([] ++ [.init heapAllocs] ++ [.sbrk 0x900000]) s ∧
    ¬ s.KernelShared := by
  obtain ⟨k₁, hk₁, hbooted, hok, s, hstep, hlive⟩ := exists_first_task
  obtain ⟨hheap, hkernel, hcurrent, hdir, htabs⟩ := hok.kernel_of_init hstep
  have hs := hok.step hstep trivial
  have hcurr : s.kernel.heap.heapCurr = Kernel.kheapStart := congrArg Heap.heapCurr hheap
  have hend : s.kernel.heap.heapEnd = Kernel.kheapStart + Kernel.kheapInitialSize :=
    congrArg Heap.heapEnd hheap
  have hmax : s.kernel.heap.heapMax = Kernel.kheapMaxAddress := congrArg Heap.heapMax hheap
  have horderly : s.kernel.Orderly := Kernel.Orderly.of_eq
    (Kernel.orderly_kheapInit hbooted Kernel.bootFits_machine16
      (show 0xC0000000 ≤ Kernel.machine16.vmm.pmm.bitmapEnd by decide) rfl
      (Kernel.currentPageDir_vmmInit hk₁)) hheap hkernel hcurrent hdir htabs
  -- the initial heap is not used up, so there is room for the table
  have hfree : ¬ s.kernel.Stuck 0x900000 := by
    rintro ⟨-, a, hlo, -, hwin, -⟩
    rw [hend] at hlo
    rw [hcurr] at hwin
    have hlo : 0xC0C00000 ≤ a.toNat := hlo
    have hwin : a.toNat < 0xC0400000 + 32820 := hwin
    omega
  obtain ⟨⟨k, r⟩, hk⟩ := horderly.exists_ksbrkPaged (fun _ _ => none)
    (show 0 < (0x900000 : U32).toInt by decide) (by decide) s.vmm.missing (Nat.le_refl _) hfree
  have hk := hs.order.toGrowthOk.ksbrk_of_paged _ (by decide) hk
  have hneeds : s.kernel.NeedsTable 0x900000 := by
    refine ⟨?_, ?_, Kernel.kheapStart + Kernel.kheapInitialSize, ?_, ?_, ?_⟩
    · rw [hcurr, hend]
      decide
    · rw [hcurr, hmax]
      decide
    · rw [hend]
    · rw [hcurr]
      decide
    · show (s.vmm.dirs s.vmm.kernelPageDir).refTables _ = 0
      rw [hdir]
      exact hbooted.rest _ (by decide)
  have hsafe : ¬ s.Safe (.sbrk 0x900000) := fun hc => hc ⟨_, hlive⟩ hneeds
  exact ⟨k₁, _, hk₁, .snoc (.snoc (.nil _) hstep) (.sbrk (by decide) hk),
    hs.not_kernelShared_sbrk (by decide) hk hsafe⟩

end PiggyOS
