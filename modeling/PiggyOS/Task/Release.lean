import Mathlib.Data.List.Perm.Subperm
import PiggyOS.Infra.Run
import PiggyOS.Kheap.Alloc
import PiggyOS.Task.Invariant

/-!
# The memory of a destroyed task

`task_create` allocates the task, its page directory, its kernel stack and its list node;
`task_destroy` passes four pointers to `kfree`. The page directory comes from `kmalloc_a`, which
moves the pointer that `malloc` returned to the next page, and it is the moved pointer that is
freed.
-/

namespace PiggyOS

open Infra

variable {s s' : Sched} {l : ListT} {a : TaskAllocs} {op : SchedOp} {n t : U32}

/-- What `malloc` returned for the task. -/
def TaskAllocs.pointers (a : TaskAllocs) : List U32 := [a.task, a.dir, a.stack, a.node]

/-- The pointers in `freed` are passed to `kfree` to destroy the task of `a`, while `live` are the
pointers that `malloc` returned and nobody freed. -/
structure ReleasedValidly (live freed : List U32) (a : TaskAllocs) : Prop where
  valid : freed.Subperm live
  once : ∀ p ∈ a.pointers, freed.count p = 1

/-- `kmallocAligned` is what `kmalloc_a` does to the answer of `malloc`. -/
theorem Kernel.kmallocAWith_eq {k : Kernel} (hheap : k.heap.heapStart ≠ 0)
    (ksbrk : Kernel → U32 → Option (Kernel × U32)) (sz : U32) :
    k.kmallocAWith ksbrk sz =
      (k.mallocWith ksbrk (sz + 4096)).map fun (k, r) => (k, kmallocAligned r.ptr) := by
  unfold kmallocAWith kmallocIntWith
  rw [if_pos hheap]
  rfl

/-- `kmalloc_a` never returns what `malloc` returned. -/
theorem kmallocAligned_ne (addr : U32) : kmallocAligned addr ≠ addr := by
  intro h
  have haddr := congrArg BitVec.toNat h
  unfold kmallocAligned at haddr
  rw [BitVec.toNat_add, toNat_and_pageMask, show (0x1000 : U32).toNat = 4096 from rfl] at haddr
  have := addr.isLt
  omega

/-! ## The fields that remember the memory -/

/-- The fields of a task that `task_destroy` frees. -/
def Task.memory (task : Task) : U32 × U32 × U32 := (task.self, task.kstackMem, task.pageDir)

theorem Sched.memory_update {f : Task → Task} (hf : ∀ task, (f task).memory = task.memory)
    (s : Sched) (c t : U32) :
    (Function.update s.tasks c (f (s.tasks c)) t).memory = (s.tasks t).memory := by
  by_cases ht : t = c
  · rw [ht, Function.update_self, hf]
  · rw [Function.update_of_ne ht]

theorem Sched.memory_taskExit (s : Sched) (code t : U32) :
    ((s.taskExit code).tasks t).memory = (s.tasks t).memory := by
  unfold taskExit
  rw [tasks_enterSchedule]
  exact s.memory_update (f := fun task => { task with exitCode := code, state := .zombie })
    (fun _ => rfl) s.currentTask t

theorem Sched.memory_pick (s : Sched) (l : ListT) (nextNode ticks t : U32) :
    ((s.pick l nextNode ticks).tasks t).memory = (s.tasks t).memory := by
  have hpick : (s.pickNext l nextNode).1.tasks = s.tasks := by
    unfold pickNext
    split <;> rfl
  unfold pick
  split
  next s₁ next he =>
  have hs₁ : s₁.tasks = s.tasks := by
    rw [← hpick, he]
  dsimp only
  split
  · show (s₁.tasks t).memory = _
    rw [hs₁]
  · split
    · show (s₁.tasks t).memory = _
      rw [hs₁]
    · rw [Sched.field_switchTo Task.memory fun _ _ => rfl]
      show (s₁.tasks t).memory = _
      rw [hs₁]

/-- Only `task_create` changes the fields, and only those of the new task. -/
theorem SchedStep.memory (h : SchedStep s op s') (hop : ∀ a, op = .create a → a.task ≠ t) :
    (s'.tasks t).memory = (s.tasks t).memory := by
  cases h with
  | create _ hf hc =>
    obtain ⟨kstack, htasks⟩ := Sched.tasks_taskCreate hf hc
    rw [htasks, Function.update_of_ne (Ne.symm (hop _ rfl))]
  | exit _ => exact s.memory_taskExit _ t
  | schedule _ => rw [Sched.tasks_enterSchedule]
  | pick _ _ => exact s.memory_pick _ _ _ t

theorem SchedStep.run_memory {ops : List SchedOp} (h : Run SchedStep s ops s')
    (hops : ∀ a, .create a ∈ ops → a.task ≠ t) : (s'.tasks t).memory = (s.tasks t).memory := by
  induction h with
  | nil => rfl
  | snoc _ hstep ih =>
    rw [hstep.memory fun a ha => hops a (by simp [ha])]
    exact ih fun a ha => hops a (List.mem_append_left _ ha)

/-! ## What is freed -/

/-- `list_remove_node` frees the node, or nothing. -/
theorem frees_listRemoveNode (m : Nodes) (l : ListT) (n : U32) :
    (listRemoveNode m l n).nodes.frees = m.frees ∨
      (listRemoveNode m l n).nodes.frees = n :: m.frees := by
  have hprev : ∀ (m : Nodes) (x v : U32), (m.setPrevIf x v).frees = m.frees := by
    intro m x v
    unfold Nodes.setPrevIf
    split <;> rfl
  have hnext : ∀ (m : Nodes) (x v : U32), (m.setNextIf x v).frees = m.frees := by
    intro m x v
    unfold Nodes.setNextIf
    split <;> rfl
  unfold listRemoveNode
  dsimp only
  split
  · next hhead =>
    unfold listRemoveFront
    split
    · exact Or.inl rfl
    · right
      show l.head :: (Nodes.setPrevIf _ _ _).frees = _
      rw [hprev, hhead]
      rfl
  · split
    · next htail =>
      unfold listRemoveBack
      split
      · exact Or.inl rfl
      · right
        show l.tail :: (Nodes.setNextIf _ _ _).frees = _
        rw [hnext, htail]
        rfl
    · exact Or.inr rfl

/--
**The page directory is never released.** Whatever happens between the creation of a task and its
destruction, the pointer that `malloc` returned for the page directory is not among those passed
to `kfree`.
-/
theorem not_releasedValidly {ops : List SchedOp} {s₁ s₂ : Sched} {live freed freedNodes : List U32}
    (hcreate : SchedStep s (.create a) s₁) (hrun : Run SchedStep s₁ ops s₂)
    (hown : ∀ a', .create a' ∈ ops → a'.task ≠ a.task) (hdistinct : a.pointers.Nodup)
    (hfreed : (s₂.taskDestroy l a.task).frees = freed ++ s₂.frees)
    (hnodes : (s₂.taskDestroy l a.task).nodes.frees = freedNodes ++ s₂.nodes.frees) :
    ¬ ReleasedValidly live (freedNodes ++ freed) a := by
  intro hvalid
  -- the task still has what `task_create` stored in it
  have hmemory : (s₂.tasks a.task).memory = (a.node, a.stack, kmallocAligned a.dir) := by
    rw [SchedStep.run_memory hrun hown]
    cases hcreate with
    | create _ hf hc =>
      obtain ⟨kstack, htasks⟩ := Sched.tasks_taskCreate hf hc
      rw [htasks, Function.update_self]
      rfl
  obtain ⟨hself, hstack, hdir⟩ : (s₂.tasks a.task).self = a.node ∧
      (s₂.tasks a.task).kstackMem = a.stack ∧
      (s₂.tasks a.task).pageDir = kmallocAligned a.dir := by
    simpa [Task.memory] using hmemory
  have hfreed : freed = [a.task, kmallocAligned a.dir, a.stack] := by
    have : (s₂.taskDestroy l a.task).frees =
        [a.task, (s₂.tasks a.task).pageDir, (s₂.tasks a.task).kstackMem] ++ s₂.frees := rfl
    rw [this, hdir, hstack] at hfreed
    exact (List.append_cancel_right hfreed).symm
  have hnodes : freedNodes = [] ∨ freedNodes = [a.node] := by
    have : (s₂.taskDestroy l a.task).nodes.frees =
        (listRemoveNode s₂.nodes l (s₂.tasks a.task).self).nodes.frees := rfl
    rw [this, hself] at hnodes
    rcases frees_listRemoveNode s₂.nodes l a.node with hf | hf
    · rw [hf] at hnodes
      exact Or.inl (List.append_cancel_right (hnodes.symm.trans (List.nil_append _).symm))
    · rw [hf] at hnodes
      exact Or.inr (List.append_cancel_right (hnodes.symm.trans List.singleton_append.symm))
  have hmem : a.dir ∈ freedNodes ++ freed :=
    List.count_pos_iff.mp (by rw [hvalid.once a.dir (by simp [TaskAllocs.pointers])]; decide)
  have hne := kmallocAligned_ne a.dir
  simp [TaskAllocs.pointers] at hdistinct
  rcases hnodes with rfl | rfl
  · simp [hfreed] at hmem
    grind
  · simp [hfreed] at hmem
    grind

/-- A second task is created and destroyed at once. -/
theorem not_releasedValidly_second : ∃ s₀ s₁, clearBoot.multitaskingInit firstAllocs = some s₀ ∧
    SchedStep s₀ (.create secondAllocs) s₁ ∧ s₁.taskList = some ⟨0xC000, 0x6000, 2⟩ ∧
    ¬ ReleasedValidly (firstAllocs.pointers ++ secondAllocs.pointers)
      ([0xC000] ++ [0x7000, 0x9000, 0xB000]) secondAllocs := by
  obtain ⟨s₀, hs₀, hstart⟩ := Sched.started_multitaskingInit fresh_firstAllocs
  cases hs₀
  have hcreate : SchedStep _ (.create secondAllocs) _ :=
    .create hstart.phase ⟨rfl, by decide, rfl, by decide, by decide⟩ rfl
  exact ⟨_, _, rfl, hcreate, rfl, not_releasedValidly (l := ⟨0xC000, 0x6000, 2⟩) hcreate (.nil _)
    (by simp) (by decide) rfl rfl⟩

/-- The first task is created and destroyed: of `malloc`'s pointers, 0x2000 is not freed, and
0x3000, which is freed, is none of them. -/
theorem not_releasedValidly_first : ¬ ∀ (a : TaskAllocs) (s s₁ : Sched) (l : ListT)
    (freed freedNodes : List U32), SchedStep s (.create a) s₁ → a.pointers.Nodup →
    s₁.taskList = some l → (s₁.taskDestroy l a.task).frees = freed ++ s₁.frees →
    (s₁.taskDestroy l a.task).nodes.frees = freedNodes ++ s₁.nodes.frees →
    ReleasedValidly a.pointers (freedNodes ++ freed) a := by
  intro h
  have hcreate : SchedStep { clearBoot with taskList := some listCreate } (.create firstAllocs) _ :=
    .create rfl ⟨rfl, by decide, rfl, by decide, by decide⟩ rfl
  have hvalid := h _ _ _ ⟨0x6000, 0x6000, 1⟩ [0x1000, 0x3000, 0x5000] [0x6000] hcreate (by decide)
    rfl rfl rfl
  exact absurd (hvalid.once 0x2000 (by decide)) (by decide)

end PiggyOS
