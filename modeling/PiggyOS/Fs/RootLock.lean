import PiggyOS.Fs.Registry
import PiggyOS.Infra.Exclusive
import PiggyOS.Infra.Run

/-!
# The lock of the root directory (`rootfs.c`, `spinlock.c`)

Any number of tasks execute `rootfs_finddir`, `fs_register` and `rootfs_readdir`, one access to the
lock, to a list node or to a node at a time. The first two take the lock before they look at the
list and give it back at the end; `rootfs_readdir` gives it back without having taken it.
-/

namespace PiggyOS

open Infra

/-- `struct dirent` -/
structure Dirent where
  name : Chars
  flags : U32
  inode : U32
  offset : U32

/-- A call that works under the lock. -/
inductive RootCall
  | finddir (name : Chars)
  | register (a : U32)

namespace RootCall

/-- The name that is looked for. -/
def name (node : U32 → FsNode) : RootCall → Chars
  | finddir name => name
  | register a => (node a).name

end RootCall

/-- What a task does next. `out` is outside of the three functions, with what the last of them has
returned; `readdirWalk` is in the loop of `list_get_node_by_index`. -/
inductive RootPc
  | out (ret : U32)
  | lock (c : RootCall)
  | head (c : RootCall)
  | search (c : RootCall) (d : U32)
  | insert (a : U32)
  | count
  | unlock (ret : U32)
  | readdir (index : U32)
  | readdirSize (index : U32)
  | readdirWalk (index curr d : U32)
  | readdirValue (index entry : U32)
  | readdirFill (index rnode : U32)
  | readdirUnlock (ret : U32)

/-- The task is between its `spin_lock` and the `spin_unlock` that belongs to it. -/
def RootPc.holds : RootPc → Bool
  | .head _ | .search .. | .insert _ | .count | .unlock _ => true
  | _ => false

namespace RootCall

/-- Where a search goes when it has come to the node `a` with the name. -/
def found (a : U32) : RootCall → RootPc
  | finddir _ => .unlock a
  | register _ => .unlock 0

/-- Where it goes at the end of the list. -/
def notFound : RootCall → RootPc
  | finddir _ => .unlock 0
  | register a => .insert a

/-- Where it goes from the list node `d` that it stops at. -/
def after (m : Nodes) (d : U32) (c : RootCall) : RootPc :=
  if d = 0 then c.notFound else c.found (m.value d)

end RootCall

/-- The file systems, the `dirent`s and the tasks. `strays` collects the tasks that have released
the lock without holding it, last one first. -/
structure RootTasks (ι : Type _) where
  fs : FsState
  dirent : U32 → Dirent
  pc : ι → RootPc
  strays : List ι

namespace RootTasks

variable {ι : Type _} [DecidableEq ι] (s : RootTasks ι) (i : ι)

def goto (p : RootPc) : RootTasks ι := { s with pc := Function.update s.pc i p }

def setLock (lock : U32) : RootTasks ι :=
  { s with fs := { s.fs with root := { s.fs.root with lock := lock } } }

/-- `spin_lock`, which goes on only if the lock is free. -/
def acquire (p : RootPc) : Option (RootTasks ι) :=
  (spinLock s.fs.root.lock).map fun lock => (s.setLock lock).goto i p

/-- `spin_unlock` before the return. -/
def release (ret : U32) : RootTasks ι :=
  { (s.setLock spinUnlock).goto i (.out ret) with
    strays := if (s.pc i).holds then s.strays else i :: s.strays }

/-- One round of the loops of `rootfs_finddir` and `fs_register`, at the list node `d`. -/
def searchStep (c : RootCall) (d : U32) : Option (RootTasks ι) :=
  if d = 0 then some (s.goto i c.notFound)
  else
    (strcmp (c.name s.fs.node) (s.fs.node (s.fs.heap.value d)).name).map fun r =>
      if r = 0 then s.goto i (c.found (s.fs.heap.value d))
      else s.goto i (.search c (s.fs.heap.next d))

/-- `list_insert_front`, with the answer `t` of its `kcalloc`. -/
def insertFront (a t : U32) : RootTasks ι :=
  let r := listInsertFront s.fs.heap s.fs.root.nodes a t
  { s with fs := { s.fs with heap := r.nodes, root := { s.fs.root with nodes := r.list } } }

/-- `root_files++` -/
def countFile : RootTasks ι :=
  { s with fs := { s.fs with rootFiles := s.fs.rootFiles + 1 } }

/-- The `dirent` for a node, at the address `d` that `kmalloc` has answered with. -/
def fillDirent (index rnode d : U32) : Option (RootTasks ι) :=
  (strcpy (s.dirent d).name (s.fs.node rnode).name).map fun name =>
    { s with
      dirent := Function.update s.dirent d ⟨name, (s.fs.node rnode).flags, rnode, index⟩ }

/-- The next step of the task `i`; the heap answers with `t` if it is called. -/
def step (t : U32) : Option (RootTasks ι) :=
  match s.pc i with
  | .out _ => none
  | .lock c => s.acquire i (.head c)
  | .head c => some (s.goto i (.search c s.fs.root.nodes.head))
  | .search c d => s.searchStep i c d
  | .insert a => some ((s.insertFront a t).goto i .count)
  | .count => some (s.countFile.goto i (.unlock 0))
  | .unlock ret => some (s.release i ret)
  | .readdir index =>
    if index ≥ s.fs.rootFiles then some (s.goto i (.out 0))
    else some (s.goto i (.readdirSize index))
  | .readdirSize index =>
    if index ≥ s.fs.root.nodes.size then some (s.goto i (.readdirValue index 0))
    else some (s.goto i (.readdirWalk index 0 s.fs.root.nodes.head))
  | .readdirWalk index curr d =>
    if d = 0 then some (s.goto i (.readdirValue index 0))
    else if index = curr then some (s.goto i (.readdirValue index d))
    else some (s.goto i (.readdirWalk index (curr + 1) (s.fs.heap.next d)))
  | .readdirValue index entry =>
    if s.fs.heap.value entry ≠ 0 then some (s.goto i (.readdirFill index (s.fs.heap.value entry)))
    else some (s.goto i (.readdirUnlock 0))
  | .readdirFill index rnode =>
    if t = 0 then some (s.goto i (.out 0))
    else (s.fillDirent index rnode t).map fun s => s.goto i (.readdirUnlock t)
  | .readdirUnlock ret => some (s.release i ret)

/-- A task that is in none of the three functions calls one. -/
def call (p : RootPc) : Option (RootTasks ι) :=
  match s.pc i with
  | .out _ => some (s.goto i p)
  | _ => none

end RootTasks

/-! ## The lock -/

variable {ι : Type _}

namespace RootTasks

/-- At most one task is between its `spin_lock` and its `spin_unlock`, and nobody has released the
lock without holding it. -/
structure LockOk (s : RootTasks ι) : Prop where
  exclusive : ∀ i j, (s.pc i).holds = true → (s.pc j).holds = true → i = j
  no_strays : s.strays = []

/-- The lock is free and no task is in one of the functions. -/
structure Ready (s : RootTasks ι) : Prop where
  unlocked : s.fs.root.lock = 0
  out : ∀ i, ∃ ret, s.pc i = .out ret
  no_strays : s.strays = []

/-- The lock belongs to the task that is between its `spin_lock` and its `spin_unlock`. -/
structure Inv (s : RootTasks ι) : Prop where
  owned : Exclusive (fun i (_ : Unit) => (s.pc i).holds = true) fun _ => s.fs.root.lock ≠ 0
  no_strays : s.strays = []

theorem Ready.inv {s : RootTasks ι} (h : s.Ready) : s.Inv where
  owned := by
    have hfree : ∀ i, (s.pc i).holds ≠ true := by
      intro i
      obtain ⟨ret, hret⟩ := h.out i
      rw [hret]
      exact Bool.false_ne_true
    exact ⟨fun i _ hi => absurd hi (hfree i), fun i _ _ hi => absurd hi (hfree i)⟩
  no_strays := h.no_strays

theorem Inv.lockOk {s : RootTasks ι} (h : s.Inv) : s.LockOk :=
  ⟨fun i j hi hj => h.owned.owner i j () hi hj, h.no_strays⟩

end RootTasks

/-! ## Interleavings -/

inductive RootOp (ι : Type _)
  | finddir (i : ι) (name : Chars)
  | register (i : ι) (a : U32)
  | readdir (i : ι) (index : U32)
  | step (i : ι) (t : U32)

variable [DecidableEq ι]

def RootOp.exec (s : RootTasks ι) : RootOp ι → Option (RootTasks ι)
  | finddir i name => s.call i (.lock (.finddir name))
  | register i a => s.call i (.lock (.register a))
  | readdir i index => s.call i (.readdir index)
  | step i t => s.step i t

/-- The step is not the `spin_unlock` of `rootfs_readdir`. -/
def RootOp.Safe (s : RootTasks ι) : RootOp ι → Prop
  | step i _ => ∀ ret, s.pc i ≠ .readdirUnlock ret
  | _ => True

def RootStep (s : RootTasks ι) (op : RootOp ι) (t : RootTasks ι) : Prop := op.exec s = some t

namespace RootTasks

variable {s t : RootTasks ι} {op : RootOp ι} {i j : ι} {p : RootPc} {ret answer : U32}

theorem holds_goto : ((s.goto i p).pc j).holds = true ↔
    (j = i ∧ p.holds = true) ∨ (j ≠ i ∧ (s.pc j).holds = true) := by
  show (Function.update s.pc i p j).holds = true ↔ _
  by_cases h : j = i
  · rw [h, Function.update_self]
    simp
  · rw [Function.update_of_ne h]
    simp [h]

/-- What a step of a task does to the lock: nothing, while the task stays on its side of it; or it
takes the lock, gives it back, or releases it in `rootfs_readdir`. -/
inductive LockStep (s : RootTasks ι) (i : ι) : RootTasks ι → Prop
  | keep {u : RootTasks ι} {p : RootPc} (hpc : u.pc = s.pc)
      (hlock : u.fs.root.lock = s.fs.root.lock)
      (hstrays : u.strays = s.strays) (hp : p.holds = (s.pc i).holds) : LockStep s i (u.goto i p)
  | acquire {p : RootPc} (hlock : s.fs.root.lock = 0) (hp : p.holds = true) :
      LockStep s i ((s.setLock 1).goto i p)
  | release {ret : U32} (hpc : (s.pc i).holds = true) : LockStep s i (s.release i ret)
  | stray {ret : U32} (hpc : s.pc i = .readdirUnlock ret) : LockStep s i (s.release i ret)

/-- Going on to the place `p`. -/
theorem LockStep.goto (hp : p.holds = (s.pc i).holds) : LockStep s i (s.goto i p) :=
  .keep rfl rfl rfl hp

theorem spinLock_eq_some {lock v : U32} (h : spinLock lock = some v) : lock = 0 ∧ v = 1 := by
  unfold spinLock at h
  split at h
  · cases h
  · next hlock => exact ⟨not_not.mp hlock, (Option.some.inj h).symm⟩

theorem lockStep_searchStep {c : RootCall} {d : U32} (hpc : s.pc i = .search c d)
    (h : s.searchStep i c d = some t) : LockStep s i t := by
  have hheld : (s.pc i).holds = true := by
    rw [hpc]
    rfl
  unfold searchStep at h
  split at h
  · obtain rfl := Option.some.inj h
    refine .goto ?_
    rw [hheld]
    cases c <;> rfl
  · obtain ⟨r, -, rfl⟩ := Option.map_eq_some_iff.mp h
    split
    · refine .goto ?_
      rw [hheld]
      cases c <;> rfl
    · exact .goto hheld.symm

theorem lockStep_of_step (h : s.step i answer = some t) : LockStep s i t := by
  unfold step at h
  split at h
  · cases h
  · obtain ⟨v, hv, rfl⟩ := Option.map_eq_some_iff.mp h
    obtain ⟨hlock, rfl⟩ := spinLock_eq_some hv
    exact .acquire hlock rfl
  · next hpc =>
    obtain rfl := Option.some.inj h
    exact .goto (by rw [hpc]; rfl)
  · next hpc => exact lockStep_searchStep hpc h
  · next hpc =>
    obtain rfl := Option.some.inj h
    exact .keep rfl rfl rfl (by rw [hpc]; rfl)
  · next hpc =>
    obtain rfl := Option.some.inj h
    exact .keep rfl rfl rfl (by rw [hpc]; rfl)
  · next hpc =>
    obtain rfl := Option.some.inj h
    exact .release (by rw [hpc]; rfl)
  -- from here on the steps of `rootfs_readdir`, which is never under the lock
  · next hpc => split at h <;> cases h <;> exact .goto (by rw [hpc]; rfl)
  · next hpc => split at h <;> cases h <;> exact .goto (by rw [hpc]; rfl)
  · next hpc =>
    split at h
    · cases h
      exact .goto (by rw [hpc]; rfl)
    · split at h <;> cases h <;> exact .goto (by rw [hpc]; rfl)
  · next hpc => split at h <;> cases h <;> exact .goto (by rw [hpc]; rfl)
  · next hpc =>
    split at h
    · cases h
      exact .goto (by rw [hpc]; rfl)
    · obtain ⟨u, hu, rfl⟩ := Option.map_eq_some_iff.mp h
      obtain ⟨name, -, rfl⟩ := Option.map_eq_some_iff.mp hu
      exact .keep rfl rfl rfl (by rw [hpc]; rfl)
  · next hpc =>
    obtain rfl := Option.some.inj h
    exact .stray hpc

theorem call_eq_some (h : s.call i p = some t) : (∃ ret, s.pc i = .out ret) ∧ t = s.goto i p := by
  unfold call at h
  split at h
  · next hpc => exact ⟨⟨_, hpc⟩, (Option.some.inj h).symm⟩
  · cases h

/-- A call begins outside of the lock. -/
theorem lockStep_call (hp : p.holds = false) (h : s.call i p = some t) : LockStep s i t := by
  obtain ⟨⟨ret, hpc⟩, rfl⟩ := call_eq_some h
  exact .goto (by rw [hpc, hp]; rfl)

/-! ## The invariant -/

theorem Inv.keep {u : RootTasks ι} (hs : s.Inv) (hpc : u.pc = s.pc)
    (hlock : u.fs.root.lock = s.fs.root.lock) (hstrays : u.strays = s.strays)
    (hp : p.holds = (s.pc i).holds) : (u.goto i p).Inv where
  owned := by
    refine hs.owned.mono (fun j _ hj => ?_) fun _ h => ?_
    · rcases holds_goto.mp hj with ⟨rfl, hheld⟩ | ⟨-, hheld⟩
      · exact hp ▸ hheld
      · exact hpc ▸ hheld
    · show u.fs.root.lock ≠ 0
      rw [hlock]
      exact h
  no_strays := hstrays.trans hs.no_strays

theorem Inv.acquire (hs : s.Inv) (hlock : s.fs.root.lock = 0) :
    ((s.setLock 1).goto i p).Inv where
  owned := by
    refine (hs.owned.acquire (i := i) (r := ()) (not_not.mpr hlock)).mono (fun j _ hj => ?_)
      fun _ _ => ?_
    · exact (holds_goto.mp hj).imp (fun h => ⟨h.1, rfl⟩) And.right
    · show (1 : U32) ≠ 0
      decide
  no_strays := hs.no_strays

theorem Inv.release (hs : s.Inv) (hpc : (s.pc i).holds = true) : (s.release i ret).Inv where
  owned := by
    refine (hs.owned.release (i := i) (r := ()) hpc).mono (fun j _ hj => ?_) fun _ h => ?_
    · exact (holds_goto.mp hj).resolve_left fun h => Bool.false_ne_true h.2
    · exact absurd rfl h.1
  no_strays := (if_pos hpc).trans hs.no_strays

theorem not_lockOk_stray (hpc : s.pc i = .readdirUnlock ret) : ¬ (s.release i ret).LockOk := by
  intro h
  have hstrays : (s.release i ret).strays = i :: s.strays := by
    show (if (s.pc i).holds = true then s.strays else i :: s.strays) = _
    rw [hpc]
    rfl
  exact List.cons_ne_nil _ _ (hstrays.symm.trans h.no_strays)

theorem Inv.lockStep (hs : s.Inv) (h : LockStep s i t)
    (hsafe : ∀ ret, s.pc i ≠ .readdirUnlock ret) :
    t.Inv := by
  cases h with
  | keep hpc hlock hstrays hp => exact hs.keep hpc hlock hstrays hp
  | acquire hlock _ => exact hs.acquire hlock
  | release hpc => exact hs.release hpc
  | stray hpc => exact absurd hpc (hsafe _)

theorem Inv.call (hs : s.Inv) (hp : p.holds = false) (h : s.call i p = some t) : t.Inv := by
  obtain ⟨⟨ret, hpc⟩, -⟩ := call_eq_some h
  refine hs.lockStep (lockStep_call hp h) fun ret' => ?_
  rw [hpc]
  exact RootPc.noConfusion

theorem Inv.step (hs : s.Inv) (h : RootStep s op t) (hsafe : op.Safe s) : t.Inv := by
  cases op with
  | finddir i name => exact hs.call rfl h
  | register i a => exact hs.call rfl h
  | readdir i index => exact hs.call rfl h
  | step i t => exact hs.lockStep (lockStep_of_step h) hsafe

theorem not_lockOk (h : RootStep s op t) (hsafe : ¬ op.Safe s) : ¬ t.LockOk := by
  cases op with
  | finddir i name => exact absurd trivial hsafe
  | register i a => exact absurd trivial hsafe
  | readdir i index => exact absurd trivial hsafe
  | step i answer =>
    obtain ⟨ret, hret⟩ := not_forall.mp hsafe
    have hpc := not_not.mp hret
    have h : s.step i answer = some t := h
    unfold RootTasks.step at h
    rw [hpc] at h
    exact Option.some.inj h ▸ not_lockOk_stray hpc

end RootTasks

/-- In every interleaving the lock excludes and is released by its holders only exactly when no call
of `rootfs_readdir` comes to its `spin_unlock`. -/
theorem root_lock_ok_iff (ops : List (RootOp ι)) (s t : RootTasks ι) (hs : s.Ready) :
    (∀ u, Passed RootStep s ops t u → u.LockOk) ↔
      ∀ u op v, PassedStep RootStep s ops t u op v → op.Safe u :=
  Run.good_iff_safe (fun _ h => RootTasks.Inv.lockOk h)
    (fun _ _ _ h hstep hsafe => h.step hstep hsafe)
    (fun _ _ _ _ hstep hsafe => RootTasks.not_lockOk hstep hsafe) hs.inv

/-! ## Runs without `rootfs_readdir` -/

/-- The task is in `rootfs_readdir`. -/
def RootPc.inReaddir : RootPc → Bool
  | .readdir _ | .readdirSize _ | .readdirWalk .. | .readdirValue .. | .readdirFill ..
  | .readdirUnlock _ => true
  | _ => false

def RootOp.isReaddir : RootOp ι → Bool
  | readdir .. => true
  | _ => false

namespace RootTasks

variable {s t : RootTasks ι} {op : RootOp ι} {i j : ι} {p : RootPc} {answer a : U32} {fs : FsState}
  {name : Chars}

theorem inReaddir_goto (hs : ∀ j, (s.pc j).inReaddir = false) (hp : p.inReaddir = false) (j : ι) :
    ((s.goto i p).pc j).inReaddir = false := by
  show (Function.update s.pc i p j).inReaddir = false
  by_cases h : j = i
  · rw [h, Function.update_self]
    exact hp
  · rw [Function.update_of_ne h]
    exact hs j

theorem inReaddir_step (hs : ∀ j, (s.pc j).inReaddir = false) (h : s.step i answer = some t) :
    ∀ j, (t.pc j).inReaddir = false := by
  have hi := hs i
  unfold step at h
  split at h
  · cases h
  · obtain ⟨v, -, rfl⟩ := Option.map_eq_some_iff.mp h
    exact inReaddir_goto hs rfl
  · exact Option.some.inj h ▸ inReaddir_goto hs rfl
  · next c d hpc =>
    unfold searchStep at h
    split at h
    · exact Option.some.inj h ▸ inReaddir_goto hs (by cases c <;> rfl)
    · obtain ⟨r, -, rfl⟩ := Option.map_eq_some_iff.mp h
      split
      · exact inReaddir_goto hs (by cases c <;> rfl)
      · exact inReaddir_goto hs rfl
  · exact Option.some.inj h ▸ inReaddir_goto hs rfl
  · exact Option.some.inj h ▸ inReaddir_goto hs rfl
  · exact Option.some.inj h ▸ inReaddir_goto hs rfl
  all_goals
    next hpc =>
      rw [hpc] at hi
      cases hi

theorem inReaddir_exec (hs : ∀ j, (s.pc j).inReaddir = false) (hop : op.isReaddir = false)
    (h : RootStep s op t) : ∀ j, (t.pc j).inReaddir = false := by
  cases op with
  | finddir i name =>
    obtain ⟨-, rfl⟩ := call_eq_some h
    exact inReaddir_goto hs rfl
  | register i a =>
    obtain ⟨-, rfl⟩ := call_eq_some h
    exact inReaddir_goto hs rfl
  | readdir i index => cases hop
  | step i t => exact inReaddir_step hs h

theorem inReaddir_run {ops : List (RootOp ι)} (hs : s.Ready)
    (hops : ∀ op ∈ ops, op.isReaddir = false) (h : Run RootStep s ops t) :
    ∀ j, (t.pc j).inReaddir = false := by
  induction h with
  | nil =>
    intro j
    obtain ⟨ret, hret⟩ := hs.out j
    rw [hret]
    rfl
  | snoc _ hstep ih =>
    exact inReaddir_exec (ih fun op hop => hops op (List.mem_append_left _ hop))
      (hops _ (List.mem_append_right _ List.mem_cons_self)) hstep

/-- As long as nobody calls `rootfs_readdir`, nobody comes to its `spin_unlock`. -/
theorem safe_of_no_readdir {ops : List (RootOp ι)} (hs : s.Ready)
    (hops : ∀ op ∈ ops, op.isReaddir = false) :
    ∀ u op v, PassedStep RootStep s ops t u op v → op.Safe u := by
  rintro u op v ⟨before, after, rfl, hrun, -, -⟩
  have hu := inReaddir_run hs (fun op hop => hops op (List.mem_append_left _ hop)) hrun
  cases op with
  | step i answer =>
    intro ret hpc
    have hi := hu i
    rw [hpc] at hi
    cases hi
  | _ => trivial

/-! ## A task alone

A call whose steps nobody else interrupts does what the function does as a whole. -/

/-- Steps of the task `i` lead from `s` to `t`. -/
def Alone (i : ι) (s t : RootTasks ι) : Prop :=
  ∃ answers : List U32, Run RootStep s (answers.map (.step i)) t

theorem Alone.refl (i : ι) (s : RootTasks ι) : Alone i s s := ⟨[], .nil s⟩

theorem Alone.cons {u : RootTasks ι} (h : s.step i answer = some u) (h' : Alone i u t) :
    Alone i s t := by
  obtain ⟨answers, hrun⟩ := h'
  exact ⟨answer :: answers, Run.append (.snoc (.nil s) h) hrun⟩

theorem Alone.trans {u : RootTasks ι} (h : Alone i s t) (h' : Alone i t u) : Alone i s u := by
  obtain ⟨answers, hrun⟩ := h
  obtain ⟨answers', hrun'⟩ := h'
  refine ⟨answers ++ answers', ?_⟩
  rw [List.map_append]
  exact hrun.append hrun'

@[simp] theorem pc_goto : (s.goto i p).pc i = p := Function.update_self ..

@[simp] theorem goto_goto {q : RootPc} : (s.goto i p).goto i q = s.goto i q := by
  unfold goto
  simp

theorem goto_insertFront {t : U32} :
    (s.goto i p).insertFront a t = (s.insertFront a t).goto i p := rfl

theorem goto_countFile : (s.goto i p).countFile = s.countFile.goto i p := rfl

/-- The rounds of a search come to the list node where the search as a whole stops. -/
theorem alone_search {c : RootCall} {d x : U32} {n : Nat} (hpc : s.pc i = .search c d)
    (h : findFrom s.fs.heap s.fs.node (c.name s.fs.node) n d = some x) :
    Alone i s (s.goto i (c.after s.fs.heap x)) := by
  induction n generalizing s d with
  | zero => cases h
  | succ n ih =>
    have hstep : s.step i 0 = s.searchStep i c d := by
      unfold step
      rw [hpc]
    unfold searchStep at hstep
    rw [findFrom] at h
    split at h
    · next hd =>
      obtain rfl := Option.some.inj h
      rw [if_pos hd] at hstep
      exact .cons hstep (.refl i _)
    · next hd =>
      rw [if_neg hd] at hstep
      obtain ⟨r, hr, h⟩ := Option.bind_eq_some_iff.mp h
      rw [hr, Option.map_some] at hstep
      split at h
      · next hr0 =>
        obtain rfl := Option.some.inj h
        rw [if_pos hr0] at hstep
        rw [RootCall.after, if_neg hd]
        exact .cons hstep (.refl i _)
      · next hr0 =>
        rw [if_neg hr0] at hstep
        have hrest := ih (s := s.goto i (.search c (s.fs.heap.next d))) pc_goto h
        rw [goto_goto] at hrest
        exact .cons hstep hrest

/-- From `spin_lock` to the end of the search. -/
theorem alone_locked {c : RootCall} {x : U32} (hpc : s.pc i = .lock c)
    (hlock : s.fs.root.lock = 0)
    (h : findNode s.fs.heap s.fs.node s.fs.root.nodes (c.name s.fs.node) = some x) :
    Alone i s ((s.setLock 1).goto i (c.after s.fs.heap x)) := by
  have hacquire : s.step i 0 = some ((s.setLock 1).goto i (.head c)) := by
    unfold step acquire
    rw [hpc]
    simp only [hlock, spinLock_zero]
    rfl
  have hhead : ((s.setLock 1).goto i (.head c)).step i 0 =
      some ((s.setLock 1).goto i (.search c s.fs.root.nodes.head)) := by
    unfold step
    rw [pc_goto]
    simp only [goto_goto]
    rfl
  have hsearch := alone_search (s := (s.setLock 1).goto i (.search c s.fs.root.nodes.head))
    pc_goto h
  rw [goto_goto] at hsearch
  exact .cons hacquire (.cons hhead hsearch)

/-- From the end of the work under the lock to the return. -/
theorem Alone.unlock {u : RootTasks ι} {ret : U32} (h : Alone i s (u.goto i (.unlock ret))) :
    Alone i s ((u.setLock spinUnlock).goto i (.out ret)) := by
  have hstep :
      (u.goto i (.unlock ret)).step i 0 = some ((u.goto i (.unlock ret)).release i ret) := by
    unfold step
    rw [pc_goto]
  have hrelease : (u.goto i (.unlock ret)).release i ret =
      (u.setLock spinUnlock).goto i (.out ret) := by
    unfold release
    rw [pc_goto]
    unfold goto setLock
    simp [RootPc.holds]
  rw [hrelease] at hstep
  exact h.trans (.cons hstep (.refl i _))

/-- A call of `rootfs_finddir` that nobody interrupts. -/
theorem alone_finddir (hpc : s.pc i = .lock (.finddir name))
    (h : s.fs.rootfsFinddir name = some (fs, a)) :
    Alone i s ({ s with fs := fs }.goto i (.out a)) := by
  obtain ⟨⟨r, x⟩, hr, heq⟩ := Option.map_eq_some_iff.mp h
  obtain ⟨rfl, rfl⟩ := Prod.mk.inj heq
  obtain ⟨lock, hlock, hfind⟩ := Option.bind_eq_some_iff.mp hr
  obtain ⟨d, hd, heq⟩ := Option.map_eq_some_iff.mp hfind
  obtain ⟨rfl, rfl⟩ := Prod.mk.inj heq
  have hafter : (RootCall.finddir name).after s.fs.heap d = .unlock (foundNode s.fs.heap d) := by
    unfold RootCall.after foundNode
    split <;> rfl
  have hlocked := alone_locked hpc (spinLock_eq_some hlock).1 hd
  rw [hafter] at hlocked
  exact hlocked.unlock

/-- A call of `fs_register` that nobody interrupts; the heap answers with `answer` if it is
asked. -/
theorem alone_register (hpc : s.pc i = .lock (.register a))
    (h : s.fs.fsRegister a answer = some fs) :
    Alone i s ({ s with fs := fs }.goto i (.out 0)) := by
  obtain ⟨⟨heap, r, added⟩, hr, rfl⟩ := Option.map_eq_some_iff.mp h
  obtain ⟨lock, hlock, hbody⟩ := Option.bind_eq_some_iff.mp hr
  obtain ⟨⟨heap', nodes, added'⟩, hinsert, heq⟩ := Option.map_eq_some_iff.mp hbody
  obtain ⟨d, hd, hresult⟩ := Option.map_eq_some_iff.mp hinsert
  have hlocked := alone_locked hpc (spinLock_eq_some hlock).1 hd
  unfold RootCall.after at hlocked
  split at hresult
  · next hd0 =>
    rw [if_neg hd0] at hlocked
    cases hresult
    cases heq
    exact hlocked.unlock
  · next hd0 =>
    rw [if_pos (not_not.mp hd0)] at hlocked
    cases hresult
    cases heq
    have hinsert : ((s.setLock 1).goto i (.insert a)).step i answer =
        some (((s.setLock 1).insertFront a answer).goto i .count) := by
      unfold step
      rw [pc_goto]
      simp only [goto_insertFront, goto_goto]
    have hcount : (((s.setLock 1).insertFront a answer).goto i .count).step i 0 =
        some (((s.setLock 1).insertFront a answer).countFile.goto i (.unlock 0)) := by
      unfold step
      rw [pc_goto]
      simp only [goto_countFile, goto_goto]
    exact (hlocked.trans (.cons hinsert (.cons hcount (.refl i _)))).unlock

end RootTasks

/-- No node has been registered, and no task is in one of the functions. -/
def bootTasks : RootTasks Nat where
  fs := emptyRegistries.fs
  dirent := fun _ => ⟨devNode.name, 0, 0, 0⟩
  pc := fun _ => .out 0
  strays := []

theorem ready_bootTasks : bootTasks.Ready := ⟨rfl, fun _ => ⟨0, rfl⟩, rfl⟩

/-- Two tasks that want the lock. -/
def twoFinddirs : List (RootOp Nat) :=
  [.finddir 1 devNode.name, .finddir 2 devNode.name, .step 1 0]

/-- One of them gets it. -/
theorem root_lock_ok_finddirs : ∃ t, Run RootStep bootTasks twoFinddirs t ∧
    ∀ u, Passed RootStep bootTasks twoFinddirs t u → u.LockOk := by
  obtain ⟨t, ht⟩ : ∃ t, twoFinddirs.foldlM RootOp.exec bootTasks = some t := ⟨_, rfl⟩
  refine ⟨t, Run.of_foldlM ht, ?_⟩
  refine (root_lock_ok_iff _ _ _ ready_bootTasks).mpr ?_
  exact RootTasks.safe_of_no_readdir ready_bootTasks (by decide)

/-- The node `dev` is registered; then a task takes the lock, another one reads the first entry of
the directory, and a third one takes the lock. -/
def readdirBetween : List (RootOp Nat) :=
  [.register 0 0x1000, .step 0 0, .step 0 0, .step 0 0, .step 0 0x2000, .step 0 0, .step 0 0,
    .finddir 1 devNode.name, .step 1 0,
    .readdir 0 0, .step 0 0, .step 0 0, .step 0 0, .step 0 0, .step 0 0x3000, .step 0 0,
    .finddir 2 devNode.name, .step 2 0]

/-- Two tasks are under the lock. -/
theorem not_root_lock_ok_readdir : ∃ t, Run RootStep bootTasks readdirBetween t ∧ ¬ t.LockOk := by
  have hboth : (readdirBetween.foldlM RootOp.exec bootTasks).map
      (fun t => (t.pc 1).holds && (t.pc 2).holds) = some true := by decide +kernel
  obtain ⟨t, ht, hheld⟩ := Option.map_eq_some_iff.mp hboth
  obtain ⟨h1, h2⟩ := Bool.and_eq_true_iff.mp hheld
  exact ⟨t, Run.of_foldlM ht, fun hok => absurd (hok.exclusive 1 2 h1 h2) (by decide)⟩

end PiggyOS
