import PiggyOS.Dsa.Invariant
import PiggyOS.Fs.Node

/-!
# The directories of the root and of the devices (`rootfs.c`, `devfs.c`)

Both file systems keep a list of nodes under a lock, search it by name, and add a node in front
unless one with its name is there. Along every run the nodes in such a list are the first ones of
the calls so far under their names.
-/

namespace PiggyOS

open Infra

/-- `spin_lock`; it does not come back while the lock is taken. -/
def spinLock (lock : U32) : Option U32 := if lock ≠ 0 then none else some 1

/-- `spin_unlock` -/
def spinUnlock : U32 := 0

/-- A list of nodes and the lock for it. -/
structure LockedDir where
  nodes : ListT
  lock : U32
  deriving DecidableEq

/-- What a register function does under the lock, and whether it has added the node. -/
def searchOrInsert (m : Nodes) (node : U32 → FsNode) (l : ListT) (a t : U32) :
    Option (Nodes × ListT × Bool) :=
  (findNode m node l (node a).name).map fun d =>
    if d ≠ 0 then (m, l, false)
    else ((listInsertFront m l a t).nodes, (listInsertFront m l a t).list, true)

namespace LockedDir

variable (r : LockedDir) (m : Nodes) (node : U32 → FsNode)

def finddir (name : Chars) : Option (LockedDir × U32) :=
  (spinLock r.lock).bind fun lock =>
    let r := { r with lock := lock }
    (findNode m node r.nodes name).map fun d => ({ r with lock := spinUnlock }, foundNode m d)

/-- The address `t` is the one that `kcalloc` answers with if the node is added. -/
def register (a t : U32) : Option (Nodes × LockedDir × Bool) :=
  (spinLock r.lock).bind fun lock =>
    let r := { r with lock := lock }
    (searchOrInsert m node r.nodes a t).map fun x => (x.1, ⟨x.2.1, spinUnlock⟩, x.2.2)

end LockedDir

/-- The nodes, the list nodes, and the variables of `rootfs.c` and `devfs.c`. `dirs` gives the
lists that the `inode`s of other directories lead to. -/
structure FsState where
  node : U32 → FsNode
  heap : Nodes
  root : LockedDir
  rootFiles : U32
  dev : LockedDir
  dirs : U32 → ListT

namespace FsState

variable (s : FsState)

/-- `rootfs_finddir` -/
def rootfsFinddir (name : Chars) : Option (FsState × U32) :=
  (s.root.finddir s.heap s.node name).map fun x => ({ s with root := x.1 }, x.2)

/-- `fs_register` -/
def fsRegister (a t : U32) : Option FsState :=
  (s.root.register s.heap s.node a t).map fun x =>
    { s with
      heap := x.1
      root := x.2.1
      rootFiles := if x.2.2 then s.rootFiles + 1 else s.rootFiles }

/-- `devfs_finddir` -/
def devfsFinddir (name : Chars) : Option (FsState × U32) :=
  (s.dev.finddir s.heap s.node name).map fun x => ({ s with dev := x.1 }, x.2)

/-- `devfs_register` -/
def devfsRegister (a t : U32) : Option FsState :=
  (s.dev.register s.heap s.node a t).map fun x => { s with heap := x.1, dev := x.2.1 }

end FsState

/-! ## First registrations -/

/-- The first of the nodes `log` that has the name `cs`. -/
noncomputable def firstOf (node : U32 → FsNode) (log : List U32) (cs : List (BitVec 8)) :
    Option U32 :=
  open Classical in log.find? fun a => decide (Named node a cs)

section

variable {m m' : Nodes} {node node' : U32 → FsNode} {log ns : List U32} {cs : List (BitVec 8)}
  {a b t : U32} {l l' : ListT} {name : Chars}

theorem firstOf_eq_some : firstOf node log cs = some a ↔ Named node a cs ∧
    ∃ before after, log = before ++ a :: after ∧ ∀ b ∈ before, ¬ Named node b cs := by
  unfold firstOf
  rw [List.find?_eq_some_iff_append]
  simp

theorem firstOf_eq_none : firstOf node log cs = none ↔ ∀ b ∈ log, ¬ Named node b cs := by
  unfold firstOf
  rw [List.find?_eq_none]
  simp

theorem firstOf_append_of_some (h : firstOf node log cs = some a) (b : U32) :
    firstOf node (log ++ [b]) cs = some a := by
  unfold firstOf at h ⊢
  rw [List.find?_append, h]
  rfl

theorem firstOf_append_of_none (h : firstOf node log cs = none) (b : U32) :
    firstOf node (log ++ [b]) cs = firstOf node [b] cs := by
  unfold firstOf at h ⊢
  rw [List.find?_append, h]
  rfl

theorem firstOf_singleton_eq_some : firstOf node [b] cs = some a ↔ a = b ∧ Named node a cs := by
  rw [firstOf_eq_some]
  constructor
  · rintro ⟨hnamed, before, after, hsingle, -⟩
    have hmem : a ∈ [b] := hsingle ▸ List.mem_append_right _ List.mem_cons_self
    exact ⟨List.mem_singleton.mp hmem, hnamed⟩
  · rintro ⟨rfl, hnamed⟩
    exact ⟨hnamed, [], [], rfl, fun _ hx => absurd hx List.not_mem_nil⟩

/-- If the names are different, every node is the first one with its name. -/
theorem firstOf_of_nodup {xs : List (U32 × List (BitVec 8))}
    (hnames : ∀ x ∈ xs, Named node x.1 x.2) (hnodup : (xs.map Prod.snd).Nodup)
    {x : U32 × List (BitVec 8)} (hx : x ∈ xs) : firstOf node (xs.map Prod.fst) x.2 = some x.1 := by
  obtain ⟨before, after, rfl⟩ := List.append_of_mem hx
  refine firstOf_eq_some.mpr ⟨hnames x hx, before.map Prod.fst, after.map Prod.fst, by simp, ?_⟩
  intro b hb hnamed
  obtain ⟨y, hy, rfl⟩ := List.mem_map.mp hb
  have hsame : y.2 = x.2 := (hnames y (List.mem_append_left _ hy)).unique hnamed
  rw [List.map_append, List.nodup_append] at hnodup
  exact hnodup.2.2 _ (List.mem_map_of_mem hy) _ (List.mem_map_of_mem List.mem_cons_self) hsame

/-- The list `ns` holds the first of the nodes `log` under each name. -/
structure Tracks (m : Nodes) (node : U32 → FsNode) (ns log : List U32) : Prop where
  named : ∀ a ∈ log, ∃ cs, Named node a cs
  logged : ∀ d ∈ ns, m.value d ∈ log
  distinct : ∀ d ∈ ns, ∀ d' ∈ ns, ∀ cs, Named node (m.value d) cs → Named node (m.value d') cs →
    d = d'
  first : ∀ cs a, firstOf node log cs = some a → ∃ d ∈ ns, m.value d = a

namespace Tracks

theorem nil : Tracks m node [] [] where
  named := fun _ h => absurd h List.not_mem_nil
  logged := fun _ h => absurd h List.not_mem_nil
  distinct := fun _ h => absurd h List.not_mem_nil
  first := fun cs a h => by cases h

theorem named_value (h : Tracks m node ns log) : ∀ d ∈ ns, ∃ cs, Named node (m.value d) cs :=
  fun d hd => h.named _ (h.logged d hd)

/-- The nodes with the name in the list are the first one of the calls. -/
theorem firstOf_of_named (h : Tracks m node ns log) {d : U32} (hd : d ∈ ns)
    (hcs : Named node (m.value d) cs) : firstOf node log cs = some (m.value d) := by
  cases hf : firstOf node log cs with
  | none => exact absurd hcs (firstOf_eq_none.mp hf _ (h.logged d hd))
  | some a =>
    obtain ⟨d', hd', rfl⟩ := h.first cs a hf
    rw [h.distinct d hd d' hd' cs hcs (firstOf_eq_some.mp hf).1]

theorem firstOf_of_none (h : Tracks m node ns log)
    (hnone : ∀ d ∈ ns, ¬ Named node (m.value d) cs) : firstOf node log cs = none := by
  cases hf : firstOf node log cs with
  | none => rfl
  | some a =>
    obtain ⟨d, hd, rfl⟩ := h.first cs a hf
    exact absurd (firstOf_eq_some.mp hf).1 (hnone d hd)

/-- The list and the values of its nodes are all that counts. -/
theorem congr (h : Tracks m node ns log) (hvalue : ∀ d ∈ ns, m'.value d = m.value d) :
    Tracks m' node ns log where
  named := h.named
  logged := fun d hd => hvalue d hd ▸ h.logged d hd
  distinct := fun d hd d' hd' cs h1 h2 =>
    h.distinct d hd d' hd' cs (hvalue d hd ▸ h1) (hvalue d' hd' ▸ h2)
  first := fun cs a hf => by
    obtain ⟨d, hd, hv⟩ := h.first cs a hf
    exact ⟨d, hd, (hvalue d hd).trans hv⟩

/-- Names that stay as they are. -/
theorem rename (h : Tracks m node ns log)
    (hkept : ∀ a ∈ log, ∀ cs, Named node a cs → Named node' a cs) : Tracks m node' ns log := by
  have hiff : ∀ a ∈ log, ∀ cs, Named node' a cs ↔ Named node a cs := by
    intro a ha cs
    refine ⟨fun h' => ?_, hkept a ha cs⟩
    obtain ⟨cs', hcs'⟩ := h.named a ha
    exact h'.unique (hkept a ha cs' hcs') ▸ hcs'
  refine ⟨fun a ha => ?_, h.logged, fun d hd d' hd' cs h1 h2 => ?_, fun cs a hf => ?_⟩
  · obtain ⟨cs, hcs⟩ := h.named a ha
    exact ⟨cs, hkept a ha cs hcs⟩
  · exact h.distinct d hd d' hd' cs ((hiff _ (h.logged d hd) cs).mp h1)
      ((hiff _ (h.logged d' hd') cs).mp h2)
  · refine h.first cs a ?_
    obtain ⟨hn, before, after, hlog, hbefore⟩ := firstOf_eq_some.mp hf
    refine firstOf_eq_some.mpr ⟨(hiff a ?_ cs).mp hn, before, after, hlog, fun b hb h' => ?_⟩
    · rw [hlog]
      exact List.mem_append_right _ List.mem_cons_self
    · refine hbefore b hb (hkept b ?_ cs h')
      rw [hlog]
      exact List.mem_append_left _ hb

/-- A call for a name that is taken changes nothing. -/
theorem reject (h : Tracks m node ns log) (ha : Named node a cs) {d : U32} (hd : d ∈ ns)
    (hcs : Named node (m.value d) cs) : Tracks m node ns (log ++ [a]) where
  named := fun b hb => by
    rcases List.mem_append.mp hb with hb | hb
    · exact h.named b hb
    · exact ⟨cs, (List.mem_singleton.mp hb) ▸ ha⟩
  logged := fun d hd => List.mem_append_left _ (h.logged d hd)
  distinct := h.distinct
  first := fun cs' b hf => by
    cases hold : firstOf node log cs' with
    | some c =>
      rw [firstOf_append_of_some hold] at hf
      exact h.first cs' b (hold.trans hf)
    | none =>
      rw [firstOf_append_of_none hold] at hf
      obtain ⟨rfl, hb⟩ := firstOf_singleton_eq_some.mp hf
      rw [hb.unique ha, h.firstOf_of_named hd hcs] at hold
      cases hold

/-- A node with a new name is put in front. -/
theorem insert (h : Tracks m node ns log) (ha : Named node a cs)
    (hnone : ∀ d ∈ ns, ¬ Named node (m.value d) cs) (ht : m'.value t = a)
    (hvalue : ∀ d ∈ ns, m'.value d = m.value d) : Tracks m' node (t :: ns) (log ++ [a]) where
  named := fun b hb => by
    rcases List.mem_append.mp hb with hb | hb
    · exact h.named b hb
    · exact ⟨cs, (List.mem_singleton.mp hb) ▸ ha⟩
  logged := List.forall_mem_cons.mpr ⟨by simp [ht], fun d hd => by
    rw [hvalue d hd]
    exact List.mem_append_left _ (h.logged d hd)⟩
  distinct := by
    have hnew : ∀ d ∈ ns, ∀ cs', Named node a cs' → ¬ Named node (m'.value d) cs' := by
      intro d hd cs' h1 h2
      rw [hvalue d hd, h1.unique ha] at h2
      exact hnone d hd h2
    intro d hdm d' hdm' cs' h1 h2
    rcases List.mem_cons.mp hdm with rfl | hd <;> rcases List.mem_cons.mp hdm' with rfl | hd'
    · rfl
    · rw [ht] at h1
      exact absurd h2 (hnew d' hd' cs' h1)
    · rw [ht] at h2
      exact absurd h1 (hnew d hd cs' h2)
    · rw [hvalue d hd] at h1
      rw [hvalue d' hd'] at h2
      exact h.distinct d hd d' hd' cs' h1 h2
  first := fun cs' b hf => by
    cases hold : firstOf node log cs' with
    | some c =>
      rw [firstOf_append_of_some hold] at hf
      obtain ⟨d, hd, hv⟩ := h.first cs' b (hold.trans hf)
      exact ⟨d, List.mem_cons_of_mem _ hd, (hvalue d hd).trans hv⟩
    | none =>
      rw [firstOf_append_of_none hold] at hf
      obtain ⟨rfl, -⟩ := firstOf_singleton_eq_some.mp hf
      exact ⟨t, List.mem_cons_self, ht⟩

end Tracks

end

/-! ## One call -/

section

variable {m : Nodes} {node : U32 → FsNode} {r : LockedDir} {ns log : List U32} {l : ListT}
  {cs : List (BitVec 8)} {a t : U32} {name : Chars}

theorem spinLock_zero : spinLock 0 = some 1 := rfl

/-- A search in an unlocked directory leaves it as it is. -/
theorem LockedDir.finddir_of_unlocked (h : r.lock = 0) : r.finddir m node name =
    (findNode m node r.nodes name).map fun d => (r, foundNode m d) := by
  have hr : { r with lock := spinUnlock } = r := by
    rw [show spinUnlock = r.lock from h.symm]
  rw [LockedDir.finddir, h, spinLock_zero, Option.bind_some]
  exact congrArg (fun r' => (findNode m node r.nodes name).map fun d => (r', foundNode m d)) hr

/-- An unlocked directory whose list holds the nodes `ns`, the first ones of `log`. -/
structure LockedDir.Holds (r : LockedDir) (m : Nodes) (node : U32 → FsNode) (ns log : List U32) :
    Prop where
  unlocked : r.lock = 0
  represents : Represents m r.nodes ns
  tracks : Tracks m node ns log

/-- The body of a register function, for a name that is taken or a new one. -/
theorem searchOrInsert_spec (h : Represents m l ns)
    (hnames : ∀ d ∈ ns, ∃ cs', Named node (m.value d) cs') (ha : Named node a cs) :
    ((∃ d ∈ ns, Named node (m.value d) cs) ∧ searchOrInsert m node l a t = some (m, l, false)) ∨
      (∀ d ∈ ns, ¬ Named node (m.value d) cs) ∧ searchOrInsert m node l a t =
        some ((listInsertFront m l a t).nodes, (listInsertFront m l a t).list, true) := by
  unfold searchOrInsert
  rcases h.findNode hnames ha with ⟨d, hd, hfirst⟩ | ⟨hd, hnone⟩
  · rw [hd]
    exact Or.inl ⟨⟨d, hfirst.mem, hfirst.named⟩, congrArg some (if_pos (h.ne_null d hfirst.mem))⟩
  · rw [hd]
    exact Or.inr ⟨hnone, rfl⟩

namespace LockedDir.Holds

theorem finddir (h : r.Holds m node ns log) (hname : IsString name cs) :
    r.finddir m node name = some (r, (firstOf node log cs).getD 0) := by
  rw [LockedDir.finddir_of_unlocked h.unlocked]
  rcases h.represents.findNode h.tracks.named_value hname with ⟨d, hd, hfirst⟩ | ⟨hd, hnone⟩
  · rw [hd, Option.map_some, h.represents.foundNode hfirst.mem,
      h.tracks.firstOf_of_named hfirst.mem hfirst.named]
    rfl
  · rw [hd, Option.map_some, foundNode_zero, h.tracks.firstOf_of_none hnone]
    rfl

theorem register_eq (h : r.Holds m node ns log) (a t : U32) : r.register m node a t =
    (searchOrInsert m node r.nodes a t).map fun x => (x.1, ⟨x.2.1, 0⟩, x.2.2) := by
  rw [LockedDir.register, h.unlocked, spinLock_zero, Option.bind_some]
  rfl

/-- A name that is taken. -/
theorem register_taken (h : r.Holds m node ns log) (ha : Named node a cs) {d : U32} (hd : d ∈ ns)
    (hcs : Named node (m.value d) cs) (t : U32) : r.register m node a t = some (m, r, false) := by
  rw [h.register_eq]
  rcases searchOrInsert_spec h.represents h.tracks.named_value ha (t := t) with
    ⟨-, heq⟩ | ⟨hnone, -⟩
  · rw [heq, Option.map_some, ← h.unlocked]
  · exact absurd hcs (hnone d hd)

/-- A new name. -/
theorem register_new (h : r.Holds m node ns log) (ha : Named node a cs)
    (hnone : ∀ d ∈ ns, ¬ Named node (m.value d) cs) (t : U32) : r.register m node a t =
      some ((listInsertFront m r.nodes a t).nodes, ⟨(listInsertFront m r.nodes a t).list, 0⟩,
        true) := by
  rw [h.register_eq]
  rcases searchOrInsert_spec h.represents h.tracks.named_value ha (t := t) with
    ⟨⟨d, hd, hcs⟩, -⟩ | ⟨-, heq⟩
  · exact absurd hcs (hnone d hd)
  · rw [heq]
    rfl

theorem reject (h : r.Holds m node ns log) (ha : Named node a cs) {d : U32} (hd : d ∈ ns)
    (hcs : Named node (m.value d) cs) : r.Holds m node ns (log ++ [a]) :=
  ⟨h.unlocked, h.represents, h.tracks.reject ha hd hcs⟩

theorem insert (h : r.Holds m node ns log) (ha : Named node a cs)
    (hnone : ∀ d ∈ ns, ¬ Named node (m.value d) cs) (ht : m.live t = false) (ht0 : t ≠ 0) :
    LockedDir.Holds ⟨(listInsertFront m r.nodes a t).list, 0⟩ (listInsertFront m r.nodes a t).nodes
      node (t :: ns) (log ++ [a]) where
  unlocked := rfl
  represents := h.represents.insertFront ht ht0
  tracks := by
    refine h.tracks.insert ha hnone ?_ fun d hd => ?_
    · rw [value_listInsertFront ht0, if_pos rfl]
    · rw [value_listInsertFront (h.represents.ne_null d hd),
        if_neg (h.represents.ne_of_not_live ht hd)]

/-- A directory is not touched by an insertion into another one. -/
theorem of_untouched {m' : Nodes} {ns' : List U32} (h : r.Holds m node ns log)
    (hu : Untouched m m' ns') (hd : ns.Disjoint ns') : r.Holds m' node ns log where
  unlocked := h.unlocked
  represents := h.represents.of_untouched hu hd
  tracks := h.tracks.congr fun d hm => congrArg ListNode.value (hu d (hd hm)).1

/-- A registration touches the list nodes of the directory only. -/
theorem register_frame (h : r.Holds m node ns log) (ha : Named node a cs) (t : U32) :
    ∃ m' r' added, r.register m node a t = some (m', r', added) ∧ Untouched m m' (t :: ns) := by
  by_cases hfirst : ∃ d ∈ ns, Named node (m.value d) cs
  · obtain ⟨d, hd, hcs⟩ := hfirst
    exact ⟨m, r, false, h.register_taken ha hd hcs t, fun _ _ => ⟨rfl, rfl⟩⟩
  · have hnone : ∀ d ∈ ns, ¬ Named node (m.value d) cs := fun d hd hcs => hfirst ⟨d, hd, hcs⟩
    exact ⟨_, _, true, h.register_new ha hnone t, h.represents.untouched_listInsertFront⟩

theorem rename {node' : U32 → FsNode} (h : r.Holds m node ns log)
    (hkept : ∀ a ∈ log, ∀ cs, Named node a cs → Named node' a cs) : r.Holds m node' ns log :=
  ⟨h.unlocked, h.represents, h.tracks.rename hkept⟩

end LockedDir.Holds

end

namespace FsState

variable {s fs : FsState} {a t : U32}

theorem live_searchOrInsert {m m' : Nodes} {node : U32 → FsNode} {l l' : ListT} {added : Bool}
    (h : searchOrInsert m node l a t = some (m', l', added)) {x : U32} (hx : x ≠ t) :
    m'.live x = m.live x := by
  obtain ⟨d, -, h⟩ := Option.map_eq_some_iff.mp h
  split at h
  · cases h
    rfl
  · cases h
    rw [live_listInsertFront, if_neg hx]

theorem live_register {r r' : LockedDir} {m m' : Nodes} {node : U32 → FsNode} {added : Bool}
    (h : r.register m node a t = some (m', r', added)) {x : U32} (hx : x ≠ t) :
    m'.live x = m.live x := by
  obtain ⟨lock, -, h⟩ := Option.bind_eq_some_iff.mp h
  obtain ⟨⟨m₁, l₁, added₁⟩, hinsert, h⟩ := Option.map_eq_some_iff.mp h
  cases h
  exact live_searchOrInsert hinsert hx

/-- What `fs_register` leaves alone. -/
theorem fsRegister_frame (h : s.fsRegister a t = some fs) :
    fs.node = s.node ∧ fs.dirs = s.dirs ∧ ∀ x, x ≠ t → fs.heap.live x = s.heap.live x := by
  obtain ⟨⟨m, r, added⟩, hreg, rfl⟩ := Option.map_eq_some_iff.mp h
  exact ⟨rfl, rfl, fun x hx => live_register hreg hx⟩

/-- What `devfs_register` leaves alone. -/
theorem devfsRegister_frame (h : s.devfsRegister a t = some fs) :
    fs.node = s.node ∧ fs.dirs = s.dirs ∧ ∀ x, x ≠ t → fs.heap.live x = s.heap.live x := by
  obtain ⟨⟨m, r, added⟩, hreg, rfl⟩ := Option.map_eq_some_iff.mp h
  exact ⟨rfl, rfl, fun x hx => live_register hreg hx⟩

end FsState

/-! ## Runs -/

/-- The file systems, and the nodes that each register function has been called with, in
order. -/
structure RegistryRun where
  fs : FsState
  rootLog : List U32
  devLog : List U32

/-- A call, with the address that `kcalloc` answers with, or anything else that happens to the
nodes. -/
inductive RegistryOp
  | fsRegister (a t : U32)
  | devfsRegister (a t : U32)
  | rootfsFinddir (name : Chars)
  | devfsFinddir (name : Chars)
  | change (node : U32 → FsNode)

inductive RegistryStep : RegistryRun → RegistryOp → RegistryRun → Prop
  | fsRegister {s : RegistryRun} {fs : FsState} {a t : U32} : (∃ cs, Named s.fs.node a cs) →
      s.fs.heap.live t = false → t ≠ 0 → s.fs.fsRegister a t = some fs →
      RegistryStep s (.fsRegister a t) ⟨fs, s.rootLog ++ [a], s.devLog⟩
  | devfsRegister {s : RegistryRun} {fs : FsState} {a t : U32} : (∃ cs, Named s.fs.node a cs) →
      s.fs.heap.live t = false → t ≠ 0 → s.fs.devfsRegister a t = some fs →
      RegistryStep s (.devfsRegister a t) ⟨fs, s.rootLog, s.devLog ++ [a]⟩
  | rootfsFinddir {s : RegistryRun} {fs : FsState} {name : Chars} {a : U32} :
      (∃ cs, IsString name cs) → s.fs.rootfsFinddir name = some (fs, a) →
      RegistryStep s (.rootfsFinddir name) { s with fs := fs }
  | devfsFinddir {s : RegistryRun} {fs : FsState} {name : Chars} {a : U32} :
      (∃ cs, IsString name cs) → s.fs.devfsFinddir name = some (fs, a) →
      RegistryStep s (.devfsFinddir name) { s with fs := fs }
  | change {s : RegistryRun} {node : U32 → FsNode} :
      (∀ a ∈ s.rootLog ++ s.devLog, ∀ cs, Named s.fs.node a cs → Named node a cs) →
      RegistryStep s (.change node) { s with fs := { s.fs with node := node } }

namespace RegistryRun

/-- The lists have been created and are empty. -/
structure Boot (s : RegistryRun) : Prop where
  root : s.fs.root = ⟨listCreate, 0⟩
  dev : s.fs.dev = ⟨listCreate, 0⟩
  rootFiles : s.fs.rootFiles = 0
  rootLog : s.rootLog = []
  devLog : s.devLog = []

/-- What a list of nodes with different names is. -/
def DistinctNames (s : RegistryRun) (l : ListT) : Prop :=
  ∀ d d' cs, Member s.fs.heap l d → Member s.fs.heap l d' →
    Named s.fs.node (s.fs.heap.value d) cs → Named s.fs.node (s.fs.heap.value d') cs → d = d'

/-- Both directories are in order: they are unlocked and hold nodes of different names, each name
leads to the first node that has been registered under it, a name that is taken is rejected, and
`root_files` counts the nodes of the root. -/
structure Ok (s : RegistryRun) : Prop where
  unlocked : s.fs.root.lock = 0 ∧ s.fs.dev.lock = 0
  rootNames : s.DistinctNames s.fs.root.nodes
  devNames : s.DistinctNames s.fs.dev.nodes
  rootFinds : ∀ name cs, IsString name cs →
    s.fs.rootfsFinddir name = some (s.fs, (firstOf s.fs.node s.rootLog cs).getD 0)
  devFinds : ∀ name cs, IsString name cs →
    s.fs.devfsFinddir name = some (s.fs, (firstOf s.fs.node s.devLog cs).getD 0)
  rootRejects : ∀ a cs t, Named s.fs.node a cs → firstOf s.fs.node s.rootLog cs ≠ none →
    s.fs.fsRegister a t = some s.fs
  devRejects : ∀ a cs t, Named s.fs.node a cs → firstOf s.fs.node s.devLog cs ≠ none →
    s.fs.devfsRegister a t = some s.fs
  registers : ∀ a cs t, Named s.fs.node a cs →
    s.fs.fsRegister a t ≠ none ∧ s.fs.devfsRegister a t ≠ none
  rootFiles : ∃ ns, Represents s.fs.heap s.fs.root.nodes ns ∧ s.fs.rootFiles.toNat = ns.length

/-- The list nodes of the root and of the devices. -/
structure Rep (s : RegistryRun) (rs ds : List U32) : Prop where
  root : s.fs.root.Holds s.fs.heap s.fs.node rs s.rootLog
  dev : s.fs.dev.Holds s.fs.heap s.fs.node ds s.devLog
  disjoint : rs.Disjoint ds
  rootFiles : s.fs.rootFiles.toNat = rs.length

variable {s t : RegistryRun} {rs ds : List U32}

theorem Rep.boot (h : s.Boot) : s.Rep [] [] where
  root := by
    rw [h.root, h.rootLog]
    exact ⟨rfl, represents_listCreate _, .nil⟩
  dev := by
    rw [h.dev, h.devLog]
    exact ⟨rfl, represents_listCreate _, .nil⟩
  disjoint := List.disjoint_nil_left _
  rootFiles := by
    rw [h.rootFiles]
    rfl

theorem distinctNames_of_holds {r : LockedDir} {ns log : List U32}
    (h : r.Holds s.fs.heap s.fs.node ns log) : s.DistinctNames r.nodes :=
  fun d d' cs hd hd' => h.tracks.distinct d (h.represents.mem_of_member hd) d'
    (h.represents.mem_of_member hd') cs

/-- The name of a logged node is the name of a node in the list. -/
theorem exists_named_of_first {r : LockedDir} {ns log : List U32} {cs : List (BitVec 8)}
    (h : r.Holds s.fs.heap s.fs.node ns log) (hfirst : firstOf s.fs.node log cs ≠ none) :
    ∃ d ∈ ns, Named s.fs.node (s.fs.heap.value d) cs := by
  obtain ⟨a, ha⟩ := Option.ne_none_iff_exists'.mp hfirst
  obtain ⟨d, hd, hv⟩ := h.tracks.first cs a ha
  exact ⟨d, hd, hv ▸ (firstOf_eq_some.mp ha).1⟩

theorem register_ne_none {r : LockedDir} {ns log : List U32} {cs : List (BitVec 8)} {a t : U32}
    (h : r.Holds s.fs.heap s.fs.node ns log) (ha : Named s.fs.node a cs) :
    r.register s.fs.heap s.fs.node a t ≠ none := by
  rw [h.register_eq]
  rcases searchOrInsert_spec h.represents h.tracks.named_value ha (t := t) with
    ⟨-, heq⟩ | ⟨-, heq⟩
  · rw [heq]
    exact Option.some_ne_none _
  · rw [heq]
    exact Option.some_ne_none _

theorem Rep.ok (h : s.Rep rs ds) : s.Ok where
  unlocked := ⟨h.root.unlocked, h.dev.unlocked⟩
  rootNames := distinctNames_of_holds h.root
  devNames := distinctNames_of_holds h.dev
  rootFinds := fun name cs hname => by
    rw [FsState.rootfsFinddir, h.root.finddir hname]
    rfl
  devFinds := fun name cs hname => by
    rw [FsState.devfsFinddir, h.dev.finddir hname]
    rfl
  rootRejects := fun a cs t ha hfirst => by
    obtain ⟨d, hd, hcs⟩ := exists_named_of_first h.root hfirst
    rw [FsState.fsRegister, h.root.register_taken ha hd hcs]
    rfl
  devRejects := fun a cs t ha hfirst => by
    obtain ⟨d, hd, hcs⟩ := exists_named_of_first h.dev hfirst
    rw [FsState.devfsRegister, h.dev.register_taken ha hd hcs]
    rfl
  registers := fun a cs t ha => by
    constructor
    · exact mt Option.map_eq_none_iff.mp (register_ne_none h.root ha)
    · exact mt Option.map_eq_none_iff.mp (register_ne_none h.dev ha)
  rootFiles := ⟨rs, h.root.represents, h.rootFiles⟩

theorem Rep.fresh_disjoint (h : s.Rep rs ds) {a : U32} (ha : s.fs.heap.live a = false) :
    (a :: rs).Disjoint ds := by
  rw [List.disjoint_cons_left]
  exact ⟨fun hm => h.dev.represents.ne_of_not_live ha hm rfl, h.disjoint⟩

theorem Rep.disjoint_fresh (h : s.Rep rs ds) {a : U32} (ha : s.fs.heap.live a = false) :
    rs.Disjoint (a :: ds) := by
  rw [List.disjoint_cons_right]
  exact ⟨fun hm => h.root.represents.ne_of_not_live ha hm rfl, h.disjoint⟩

theorem Rep.fsRegister (h : s.Rep rs ds) {fs : FsState} {a t : U32} {cs : List (BitVec 8)}
    (ha : Named s.fs.node a cs) (ht : s.fs.heap.live t = false) (ht0 : t ≠ 0)
    (hfs : s.fs.fsRegister a t = some fs) :
    ∃ rs', Rep ⟨fs, s.rootLog ++ [a], s.devLog⟩ rs' ds := by
  by_cases hfirst : ∃ d ∈ rs, Named s.fs.node (s.fs.heap.value d) cs
  · obtain ⟨d, hd, hcs⟩ := hfirst
    rw [FsState.fsRegister, h.root.register_taken ha hd hcs] at hfs
    obtain rfl := Option.some.inj hfs
    exact ⟨rs, h.root.reject ha hd hcs, h.dev, h.disjoint, h.rootFiles⟩
  · have hnone : ∀ d ∈ rs, ¬ Named s.fs.node (s.fs.heap.value d) cs :=
      fun d hd hcs => hfirst ⟨d, hd, hcs⟩
    rw [FsState.fsRegister, h.root.register_new ha hnone] at hfs
    obtain rfl := Option.some.inj hfs
    have hroot := h.root.insert ha hnone ht ht0
    refine ⟨t :: rs, hroot, ?_, h.fresh_disjoint ht, ?_⟩
    · exact h.dev.of_untouched h.root.represents.untouched_listInsertFront
        (List.disjoint_symm (h.fresh_disjoint ht))
    · have hlt := length_lt_of_nodup hroot.represents.nodup hroot.represents.ne_null
      rw [List.length_cons, ← h.rootFiles] at hlt ⊢
      exact BitVec.toNat_add_of_lt hlt

theorem Rep.devfsRegister (h : s.Rep rs ds) {fs : FsState} {a t : U32} {cs : List (BitVec 8)}
    (ha : Named s.fs.node a cs) (ht : s.fs.heap.live t = false) (ht0 : t ≠ 0)
    (hfs : s.fs.devfsRegister a t = some fs) :
    ∃ ds', Rep ⟨fs, s.rootLog, s.devLog ++ [a]⟩ rs ds' := by
  by_cases hfirst : ∃ d ∈ ds, Named s.fs.node (s.fs.heap.value d) cs
  · obtain ⟨d, hd, hcs⟩ := hfirst
    rw [FsState.devfsRegister, h.dev.register_taken ha hd hcs] at hfs
    obtain rfl := Option.some.inj hfs
    exact ⟨ds, h.root, h.dev.reject ha hd hcs, h.disjoint, h.rootFiles⟩
  · have hnone : ∀ d ∈ ds, ¬ Named s.fs.node (s.fs.heap.value d) cs :=
      fun d hd hcs => hfirst ⟨d, hd, hcs⟩
    rw [FsState.devfsRegister, h.dev.register_new ha hnone] at hfs
    obtain rfl := Option.some.inj hfs
    refine ⟨t :: ds, ?_, h.dev.insert ha hnone ht ht0, h.disjoint_fresh ht, h.rootFiles⟩
    exact h.root.of_untouched h.dev.represents.untouched_listInsertFront (h.disjoint_fresh ht)

theorem Rep.step {op : RegistryOp} (h : s.Rep rs ds) (hstep : RegistryStep s op t) :
    ∃ rs' ds', t.Rep rs' ds' := by
  cases hstep with
  | fsRegister ha ht ht0 hfs =>
    obtain ⟨cs, ha⟩ := ha
    obtain ⟨rs', h'⟩ := h.fsRegister ha ht ht0 hfs
    exact ⟨rs', ds, h'⟩
  | devfsRegister ha ht ht0 hfs =>
    obtain ⟨cs, ha⟩ := ha
    obtain ⟨ds', h'⟩ := h.devfsRegister ha ht ht0 hfs
    exact ⟨rs, ds', h'⟩
  | rootfsFinddir hname hfs =>
    obtain ⟨cs, hname⟩ := hname
    rw [h.ok.rootFinds _ cs hname] at hfs
    obtain ⟨rfl, -⟩ := Prod.mk.inj (Option.some.inj hfs)
    exact ⟨rs, ds, h⟩
  | devfsFinddir hname hfs =>
    obtain ⟨cs, hname⟩ := hname
    rw [h.ok.devFinds _ cs hname] at hfs
    obtain ⟨rfl, -⟩ := Prod.mk.inj (Option.some.inj hfs)
    exact ⟨rs, ds, h⟩
  | change hkept =>
    refine ⟨rs, ds, h.root.rename fun a ha => hkept a ?_, h.dev.rename fun a ha => hkept a ?_,
      h.disjoint, h.rootFiles⟩
    · exact List.mem_append_left _ ha
    · exact List.mem_append_right _ ha

theorem exists_rep {ops : List RegistryOp} (hs : s.Boot) (h : Run RegistryStep s ops t) :
    ∃ rs ds, t.Rep rs ds := by
  refine h.invariant (fun u => ∃ rs ds, u.Rep rs ds) ?_ ⟨[], [], .boot hs⟩
  rintro u op v ⟨rs, ds, hu⟩ hstep
  exact hu.step hstep

end RegistryRun

/-- The directories of the root and of the devices are in order in every reachable state. -/
theorem registries_ok {s t : RegistryRun} {ops : List RegistryOp} (hs : s.Boot)
    (h : Run RegistryStep s ops t) : t.Ok := by
  obtain ⟨rs, ds, h⟩ := RegistryRun.exists_rep hs h
  exact h.ok

/-- A string that is written out, with zeros behind it. -/
theorem isString_getD {cs : List (BitVec 8)} (h0 : 0 ∉ cs) (hfits : cs.length < addresses) :
    IsString (fun i => cs.getD i 0) cs where
  chars := fun i hi => by rw [List.getD_eq_getElem?_getD, List.getElem?_eq_getElem hi]; rfl
  nul := by rw [List.getD_eq_getElem?_getD, List.getElem?_eq_none (Nat.le_refl _)]; rfl
  ne_nul := h0
  fits := hfits

/-- The directory `dev`. -/
def devNode : FsNode :=
  ⟨fun i => [0x64, 0x65, 0x76].getD i 0, fsDirectory, 0, 0, .null, .null, .null, .devfsReaddir,
    .devfsFinddir⟩

theorem named_devNode (a : U32) : Named (fun _ => devNode) a [0x64, 0x65, 0x76] :=
  isString_getD (by decide) (by decide)

/-- No node has been registered. -/
def emptyRegistries : RegistryRun :=
  ⟨⟨fun _ => devNode, ⟨fun _ => ⟨0, 0, 0⟩, fun _ => false, [], []⟩, ⟨listCreate, 0⟩, 0,
    ⟨listCreate, 0⟩, fun _ => listCreate⟩, [], []⟩

theorem boot_emptyRegistries : emptyRegistries.Boot := ⟨rfl, rfl, rfl, rfl, rfl⟩

/-- Two nodes of one name are registered. -/
theorem registries_ok_two : ∃ t, Run RegistryStep emptyRegistries
    ([] ++ [.fsRegister 0x1000 0x2000] ++ [.fsRegister 0x1100 0x2040]) t ∧ t.Ok := by
  have hboot := RegistryRun.Rep.boot boot_emptyRegistries
  have hfirst := hboot.root.register_new (named_devNode 0x1000)
    (fun _ hd => absurd hd List.not_mem_nil) 0x2000
  have hfs : emptyRegistries.fs.fsRegister 0x1000 0x2000 = some _ := congrArg (Option.map _) hfirst
  have hrun := Run.snoc (.nil _)
    (RegistryStep.fsRegister ⟨_, named_devNode 0x1000⟩ rfl (by decide) hfs)
  obtain ⟨fs, hfs⟩ := Option.ne_none_iff_exists'.mp
    ((registries_ok boot_emptyRegistries hrun).registers 0x1100 _ 0x2040 (named_devNode _)).1
  have hfresh : (listInsertFront emptyRegistries.fs.heap listCreate 0x1000 0x2000).nodes.live
      0x2040 = false := live_listInsertFront
  have hrun := Run.snoc hrun
    (RegistryStep.fsRegister ⟨_, named_devNode 0x1100⟩ hfresh (by decide) hfs)
  exact ⟨_, hrun, registries_ok boot_emptyRegistries hrun⟩

end PiggyOS
