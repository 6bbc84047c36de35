import PiggyOS.Fs.RootLock
import PiggyOS.Fs.Vfs

/-!
# Reading a directory (`readdir_fs`)

`rootfs_readdir` and `tarfs_readdir` fill an entry from the heap with the name of the node at an
index of the directory. `devfs_readdir` fills the entry that `devfs_dirent` leads to, a pointer that
nothing has been assigned to.

* `DirState.agrees_iff` — the directories whose entries are read and found again
-/

namespace PiggyOS

open Infra

/-- The file systems behind the interface. -/
inductive FileSys
  | rootfs
  | devfs
  | tarfs
  deriving DecidableEq, Repr

namespace FileSys

def readdir : FileSys → FnPtr
  | rootfs => .rootfsReaddir
  | devfs => .devfsReaddir
  | tarfs => .tarfsReaddir

def finddir : FileSys → FnPtr
  | rootfs => .rootfsFinddir
  | devfs => .devfsFinddir
  | tarfs => .tarfsFinddir

/-- The list of the directory `dir`. -/
def nodes (s : FsState) (dir : U32) : FileSys → ListT
  | rootfs => s.root.nodes
  | devfs => s.dev.nodes
  | tarfs => s.dirs (s.node dir).inode

/-- The lock that its functions work under; `tarfs` has none. -/
def lock (s : FsState) : FileSys → U32
  | rootfs => s.root.lock
  | devfs => s.dev.lock
  | tarfs => 0

end FileSys

/-- `devfs_dirent`; the variable is never written. -/
def devfsDirent : U32 := 0

/-- The file systems and the directory entries in memory. -/
structure DirState extends Vfs where
  dirent : U32 → Dirent

namespace DirState

variable (s : DirState)

def setRootLock (lock : U32) : DirState :=
  { s with fs := { s.fs with root := { s.fs.root with lock := lock } } }

def setDevLock (lock : U32) : DirState :=
  { s with fs := { s.fs with dev := { s.fs.dev with lock := lock } } }

/-- The stores to the entry at `d`, for the node at `node`. -/
def fill (d node inode index : U32) : Option DirState :=
  (strcpy (s.dirent d).name (s.fs.node node).name).map fun name =>
    { s with dirent := Function.update s.dirent d ⟨name, (s.fs.node node).flags, inode, index⟩ }

/-- `rootfs_readdir`, with the answer `t` of its `kmalloc`. An access through a NULL pointer has no
result. -/
def rootfsReaddir (index t : U32) : Option (DirState × U32) :=
  if index ≥ s.fs.rootFiles then some (s, 0)
  else (listGetNodeByIndex s.fs.heap s.fs.root.nodes index).bind fun entry =>
    if entry = 0 then none
    else
      let rnode := s.fs.heap.value entry
      if rnode ≠ 0 then
        if t = 0 then some (s, 0)
        else (s.fill t rnode rnode index).map fun s => (s.setRootLock spinUnlock, t)
      else some (s.setRootLock spinUnlock, 0)

/-- `devfs_readdir`; its loop is that of `list_get_node_by_index`. -/
def devfsReaddir (index : U32) : Option (DirState × U32) :=
  (spinLock s.fs.dev.lock).bind fun lock =>
    let s := s.setDevLock lock
    (listGetFrom s.fs.heap index (2 ^ 32) 0 s.fs.dev.nodes.head).bind fun d =>
      if d = 0 then some (s.setDevLock spinUnlock, 0)
      else if devfsDirent = 0 then none
      else
        let old := s.dirent devfsDirent
        (strcpy old.name (s.fs.node (s.fs.heap.value d)).name).map fun name =>
          let entry := { old with name := name, inode := index }
          let s := { s with dirent := Function.update s.dirent devfsDirent entry }
          (s.setDevLock spinUnlock, devfsDirent)

/-- `tarfs_readdir` -/
def tarfsReaddir (node index t : U32) : Option (DirState × U32) :=
  (listGetNodeByIndex s.fs.heap (s.fs.dirs (s.fs.node node).inode) index).bind fun entry =>
    if entry = 0 then some (s, 0)
    else
      let iNode := s.fs.heap.value entry
      if t = 0 then some (s, 0)
      else if iNode = 0 then none
      else (s.fill t iNode (s.fs.node iNode).inode index).map fun s => (s, t)

/-- The function that `node->readdir` leads to. -/
def callReaddir (node index t : U32) : Option (DirState × U32) :=
  match (s.fs.node node).readdir with
  | .rootfsReaddir => s.rootfsReaddir index t
  | .devfsReaddir => s.devfsReaddir index
  | .tarfsReaddir => s.tarfsReaddir node index t
  | _ => none

/-- `readdir_fs` -/
def readdirFs (node index t : U32) : Option (DirState × U32) :=
  if node = 0 then some (s, 0)
  else if (s.fs.node node).flags &&& fsDirectory ≠ 0 ∧ (s.fs.node node).readdir ≠ .null then
    s.callReaddir node index t
  else some (s, 0)

end DirState

/-- The node `dir` is a directory of the file system `k`. -/
structure IsDir (s : FsState) (k : FileSys) (dir : U32) : Prop where
  ne_null : dir ≠ 0
  flags : (s.node dir).flags &&& fsDirectory ≠ 0
  readdir : (s.node dir).readdir = k.readdir
  finddir : (s.node dir).finddir = k.finddir

/-- The directory has the list nodes `ns`, which lead to nodes with different names, and nobody has
taken its lock. -/
structure Entries (s : FsState) (k : FileSys) (dir : U32) (ns : List U32) : Prop where
  isDir : IsDir s k dir
  list : Represents s.heap (k.nodes s dir) ns
  ne_null : ∀ d ∈ ns, s.heap.value d ≠ 0
  named : ∀ d ∈ ns, ∃ cs, Named s.node (s.heap.value d) cs
  distinct : ∀ d ∈ ns, ∀ d' ∈ ns, ∀ cs, Named s.node (s.heap.value d) cs →
    Named s.node (s.heap.value d') cs → d = d'
  unlocked : k.lock s = 0
  rootFiles : k = .rootfs → s.rootFiles.toNat = ns.length

/-- With the answers `alloc` of `kmalloc`, an index in the list gives an entry with the name of the
node there, this name leads back to the node, and an index behind the list gives NULL. -/
structure DirState.Agrees (s : DirState) (dir : U32) (ns : List U32) (alloc : U32 → U32) :
    Prop where
  entry : ∀ index d : U32, ns[index.toNat]? = some d →
    ∃ s' e, s.readdirFs dir index (alloc index) = some (s', e) ∧ e ≠ 0 ∧
      (∀ cs, Named s.fs.node (s.fs.heap.value d) cs → IsString (s'.dirent e).name cs) ∧
      s'.finddirFs dir (s'.dirent e).name =
        some { s'.toVfs with held := s.fs.heap.value d :: s'.held }
  past : ∀ index : U32, ns.length ≤ index.toNat →
    ∃ s', s.readdirFs dir index (alloc index) = some (s', 0)

variable {s : DirState} {k : FileSys} {dir d index t : U32} {ns : List U32} {name : Chars}
  {cs : List (BitVec 8)}

/-- Filling an entry changes nothing else. -/
theorem DirState.toVfs_of_fill {s' : DirState} {a inode : U32}
    (h : s.fill d a inode index = some s') : s'.toVfs = s.toVfs := by
  obtain ⟨name, -, rfl⟩ := Option.map_eq_some_iff.mp h
  rfl

theorem DirState.exists_fill {a : U32} (h : Named s.fs.node a cs) (d inode index : U32) :
    ∃ s', s.fill d a inode index = some s' ∧ IsString (s'.dirent d).name cs := by
  obtain ⟨name, hname, hstr⟩ := IsString.strcpy h (s.dirent d).name
  rw [DirState.fill, hname]
  refine ⟨_, rfl, ?_⟩
  show IsString (Function.update s.dirent d _ d).name cs
  rw [Function.update_self]
  exact hstr

/-- Unlocking a lock that is free. -/
theorem DirState.setRootLock_of_unlocked (h : s.fs.root.lock = 0) :
    s.setRootLock spinUnlock = s := by
  rw [DirState.setRootLock, show spinUnlock = s.fs.root.lock from h.symm]

theorem DirState.setDevLock_of_unlocked (h : s.fs.dev.lock = 0) (lock : U32) :
    (s.setDevLock lock).setDevLock spinUnlock = s := by
  rw [show spinUnlock = s.fs.dev.lock from h.symm]
  rfl

namespace Entries

/-! ## Looking a name up -/

/-- The search for a name in any of the file systems. -/
theorem callFinddir {v : Vfs} (h : Entries v.fs k dir ns) : v.callFinddir dir name =
    (findNode v.fs.heap v.fs.node (k.nodes v.fs dir) name).map fun d =>
      (v.fs, foundNode v.fs.heap d) := by
  have hfn := h.isDir.finddir
  unfold Vfs.callFinddir
  rw [hfn]
  cases k with
  | rootfs =>
    show v.fs.rootfsFinddir name = _
    rw [FsState.rootfsFinddir, LockedDir.finddir_of_unlocked h.unlocked, Option.map_map]
    rfl
  | devfs =>
    show v.fs.devfsFinddir name = _
    rw [FsState.devfsFinddir, LockedDir.finddir_of_unlocked h.unlocked, Option.map_map]
    rfl
  | tarfs =>
    show (v.fs.tarfsFinddir dir (some name)).map _ = _
    rw [FsState.tarfsFinddir, Option.map_map]
    rfl

/-- The name of an entry leads to its node. -/
theorem finddirFs {v : Vfs} (h : Entries v.fs k dir ns) (hd : d ∈ ns) (hname : IsString name cs)
    (hcs : Named v.fs.node (v.fs.heap.value d) cs) :
    v.finddirFs dir name = some { v with held := v.fs.heap.value d :: v.held } := by
  have hfound : findNode v.fs.heap v.fs.node (k.nodes v.fs dir) name = some d := by
    rcases h.list.findNode h.named hname with ⟨d', hd', hfirst⟩ | ⟨-, hnone⟩
    · rw [hd', h.distinct d' hfirst.mem d hd cs hfirst.named hcs]
    · exact absurd hcs (hnone d hd)
  have hptr : (v.fs.node dir).finddir ≠ .null := by
    rw [h.isDir.finddir]
    cases k <;> simp [FileSys.finddir]
  rw [Vfs.finddirFs, if_neg h.isDir.ne_null, if_pos ⟨h.isDir.flags, hptr⟩, h.callFinddir, hfound,
    Option.map_some, Option.map_some, h.list.foundNode hd]
  dsimp only
  rw [if_pos (h.ne_null d hd)]

/-! ## Reading at an index -/

theorem readdirFs (h : Entries s.fs k dir ns) :
    s.readdirFs dir index t = s.callReaddir dir index t := by
  have hptr : (s.fs.node dir).readdir ≠ .null := by
    rw [h.isDir.readdir]
    cases k <;> simp [FileSys.readdir]
  rw [DirState.readdirFs, if_neg h.isDir.ne_null, if_pos ⟨h.isDir.flags, hptr⟩]

/-- Behind the end of the list. -/
theorem readdirFs_past (h : Entries s.fs k dir ns) (hpast : ns.length ≤ index.toNat) :
    s.readdirFs dir index t = some (s, 0) := by
  have hnone : ns[index.toNat]?.getD 0 = 0 := by
    rw [List.getElem?_eq_none hpast]
    rfl
  rw [h.readdirFs, DirState.callReaddir, h.isDir.readdir]
  cases k with
  | rootfs =>
    have hge : index ≥ s.fs.rootFiles := (h.rootFiles rfl).trans_le hpast
    exact if_pos hge
  | devfs =>
    show s.devfsReaddir index = _
    have hlock : s.fs.dev.lock = 0 := h.unlocked
    have hloop := h.list.listGetFrom index
    rw [hnone] at hloop
    rw [DirState.devfsReaddir, hlock, spinLock_zero, Option.bind_some]
    refine (congrArg (Option.bind · _) hloop).trans ?_
    rw [Option.bind_some, if_pos rfl, DirState.setDevLock_of_unlocked hlock]
  | tarfs =>
    show s.tarfsReaddir dir index t = _
    have hget := h.list.listGetNodeByIndex index
    rw [hnone] at hget
    rw [DirState.tarfsReaddir]
    refine (congrArg (Option.bind · _) hget).trans ?_
    rw [Option.bind_some, if_pos rfl]

/-- In the list, the entry is filled if there is memory for it. -/
theorem readdirFs_at (h : Entries s.fs k dir ns) (hk : k ≠ .devfs)
    (hd : ns[index.toNat]? = some d) : ∃ inode, s.readdirFs dir index t =
      if t = 0 then some (s, 0)
      else (s.fill t (s.fs.heap.value d) inode index).map fun s' => (s', t) := by
  obtain ⟨hlt, hget⟩ := List.getElem?_eq_some_iff.mp hd
  have hmem : d ∈ ns := hget ▸ List.getElem_mem hlt
  have hd0 := h.list.ne_null d hmem
  have hvalue := h.ne_null d hmem
  have hnode := h.list.listGetNodeByIndex index
  rw [hd, Option.getD_some] at hnode
  rw [h.readdirFs, DirState.callReaddir, h.isDir.readdir]
  cases k with
  | rootfs =>
    have hge : ¬ index ≥ s.fs.rootFiles := Nat.not_le.mpr (hlt.trans_eq (h.rootFiles rfl).symm)
    refine ⟨s.fs.heap.value d, ?_⟩
    show s.rootfsReaddir index t = _
    rw [DirState.rootfsReaddir, if_neg hge]
    refine (congrArg (Option.bind · _) hnode).trans ?_
    rw [Option.bind_some, if_neg hd0]
    dsimp only
    rw [if_pos hvalue]
    refine ite_congr rfl (fun _ => rfl) fun _ => Option.map_congr fun s' hs' => ?_
    have hlock : s'.fs.root.lock = 0 := by
      rw [DirState.toVfs_of_fill hs']
      exact h.unlocked
    rw [DirState.setRootLock_of_unlocked hlock]
  | devfs => exact absurd rfl hk
  | tarfs =>
    refine ⟨(s.fs.node (s.fs.heap.value d)).inode, ?_⟩
    show s.tarfsReaddir dir index t = _
    rw [DirState.tarfsReaddir]
    refine (congrArg (Option.bind · _) hnode).trans ?_
    rw [Option.bind_some, if_neg hd0]
    dsimp only
    rw [if_neg hvalue]

/-- A device is never read: its entry would be stored through a NULL pointer. -/
theorem readdirFs_devfs (h : Entries s.fs .devfs dir ns) (hd : ns[index.toNat]? = some d) :
    s.readdirFs dir index t = none := by
  obtain ⟨hlt, hget⟩ := List.getElem?_eq_some_iff.mp hd
  have hmem : d ∈ ns := hget ▸ List.getElem_mem hlt
  have hlock : s.fs.dev.lock = 0 := h.unlocked
  have hloop := h.list.listGetFrom index
  rw [hd, Option.getD_some] at hloop
  rw [h.readdirFs, DirState.callReaddir, h.isDir.readdir]
  show s.devfsReaddir index = _
  rw [DirState.devfsReaddir, hlock, spinLock_zero, Option.bind_some]
  refine (congrArg (Option.bind · _) hloop).trans ?_
  rw [Option.bind_some, if_neg (h.list.ne_null d hmem),
    if_pos (show devfsDirent = 0 from rfl)]

end Entries

/-! ## Directories in order -/

/-- A directory that a register function keeps. -/
theorem LockedDir.Holds.entries {fs : FsState} {r : LockedDir} {log : List U32}
    (h : r.Holds fs.heap fs.node ns log) (hdir : IsDir fs k dir) (hnodes : k.nodes fs dir = r.nodes)
    (hlog : ∀ a ∈ log, a ≠ 0) (hlock : k.lock fs = 0)
    (hfiles : k = .rootfs → fs.rootFiles.toNat = ns.length) : Entries fs k dir ns where
  isDir := hdir
  list := by
    rw [hnodes]
    exact h.represents
  ne_null := fun d hd => hlog _ (h.tracks.logged d hd)
  named := h.tracks.named_value
  distinct := h.tracks.distinct
  unlocked := hlock
  rootFiles := hfiles

/-- The directories of the root and of the devices have entries with different names in every
reachable state. -/
theorem RegistryRun.exists_entries {s t : RegistryRun} {ops : List RegistryOp} (hs : s.Boot)
    (h : Run RegistryStep s ops t) (hroot : ∀ a ∈ t.rootLog, a ≠ 0) (hdev : ∀ a ∈ t.devLog, a ≠ 0) :
    ∃ rs ds, (∀ dir, IsDir t.fs .rootfs dir → Entries t.fs .rootfs dir rs) ∧
      ∀ dir, IsDir t.fs .devfs dir → Entries t.fs .devfs dir ds := by
  obtain ⟨rs, ds, hrep⟩ := exists_rep hs h
  refine ⟨rs, ds, fun dir hdir => ?_, fun dir hdir => ?_⟩
  · exact hrep.root.entries hdir rfl hroot hrep.root.unlocked fun _ => hrep.rootFiles
  · exact hrep.dev.entries hdir rfl hdev hrep.dev.unlocked fun hk => absurd hk (by simp)

/-! ## Agreement -/

/-- A NULL pointer from `kmalloc`, or a device, is not read. -/
theorem DirState.Agrees.filled {alloc : U32 → U32} (ha : s.Agrees dir ns alloc)
    (h : Entries s.fs k dir ns) (hd : ns[index.toNat]? = some d) :
    k ≠ .devfs ∧ alloc index ≠ 0 := by
  obtain ⟨s', e, hread, he, -⟩ := ha.entry index d hd
  have hk : k ≠ .devfs := by
    rintro rfl
    rw [h.readdirFs_devfs hd] at hread
    cases hread
  refine ⟨hk, fun h0 => ?_⟩
  obtain ⟨inode, hfill⟩ := h.readdirFs_at hk hd (t := alloc index)
  rw [hfill, if_pos h0] at hread
  exact he (Prod.mk.inj (Option.some.inj hread)).2.symm

/-- **`readdir_fs` and `finddir_fs` agree on a directory exactly if it is empty, or if it is one of
`rootfs` or of `tarfs` and there is memory for every entry.** -/
theorem DirState.agrees_iff {alloc : U32 → U32} (h : Entries s.fs k dir ns) :
    s.Agrees dir ns alloc ↔ ns = [] ∨
      k ≠ .devfs ∧ ∀ index d : U32, ns[index.toNat]? = some d → alloc index ≠ 0 := by
  constructor
  · intro ha
    rcases ns with - | ⟨x, ns⟩
    · exact Or.inl rfl
    · have hfirst : (x :: ns)[(0 : U32).toNat]? = some x := rfl
      exact Or.inr ⟨(ha.filled h hfirst).1, fun index d hd => (ha.filled h hd).2⟩
  · intro hcond
    refine ⟨fun index d hd => ?_, fun index hpast => ⟨s, h.readdirFs_past hpast⟩⟩
    obtain ⟨hk, halloc⟩ := hcond.resolve_left fun hnil => by simp [hnil] at hd
    obtain ⟨inode, hfill⟩ := h.readdirFs_at hk hd (t := alloc index)
    have hmem := List.mem_of_getElem? hd
    obtain ⟨cs, hcs⟩ := h.named d hmem
    obtain ⟨s', hs', hstr⟩ := DirState.exists_fill hcs (alloc index) inode index
    have hsame := DirState.toVfs_of_fill hs'
    refine ⟨s', alloc index, ?_, halloc index d hd, fun cs' hcs' => ?_, ?_⟩
    · rw [hfill, if_neg (halloc index d hd), hs']
      rfl
    · rwa [hcs'.unique hcs]
    · have hentries : Entries s'.fs k dir ns := by
        rw [hsame]
        exact h
      have hvalue : s.fs.heap.value d = s'.fs.heap.value d := by rw [hsame]
      rw [hvalue]
      refine hentries.finddirFs hmem hstr ?_
      rw [hsame]
      exact hcs

/-- The directory `/` with the node `dev`, and no entry. -/
def rootRead : DirState := { devRegistered with dirent := fun _ => ⟨fun _ => 0, 0, 0, 0⟩ }

theorem entries_rootRead : Entries rootRead.fs .rootfs 0x9000 [0x2000] :=
  holds_devRegistered.entries ⟨by simp, by decide, rfl, rfl⟩ rfl (by simp) rfl fun _ => rfl

/-- The entry of `dev` is read, and `dev` is found. -/
theorem agrees_root : rootRead.Agrees 0x9000 [0x2000] fun _ => 0x3000 :=
  (DirState.agrees_iff entries_rootRead).mpr (Or.inr ⟨by simp, fun _ _ _ => by simp⟩)

/-- The node of the device `null`, without its functions. -/
def nullNode : FsNode :=
  ⟨fun i => [0x6e, 0x75, 0x6c, 0x6c].getD i 0, 3, 0, 0, .null, .unset, .device, .unset, .unset⟩

theorem named_nullNode : Named (Function.update unregistered.fs.node 0x1100 nullNode) 0x1100
    [0x6e, 0x75, 0x6c, 0x6c] := by
  unfold Named
  rw [Function.update_self]
  exact isString_getD (by simp) (by simp [addresses])

/-- The list of the devices after `null` has been registered. -/
def nullInserted : ListResult := listInsertFront unregistered.fs.heap listCreate 0x1100 0x2000

/-- The directory `dev` is at 0x1000, and `null` is in it. -/
def devRead : DirState where
  fs := { unregistered.fs with
    node := Function.update unregistered.fs.node 0x1100 nullNode
    heap := nullInserted.nodes
    dev := ⟨nullInserted.list, 0⟩ }
  fsRoot := 0x9000
  tarfsRoot := 0x9000
  freed := []
  held := [0x9000]
  dirent := fun _ => ⟨fun _ => 0, 0, 0, 0⟩

theorem holds_devRead : devRead.fs.dev.Holds devRead.fs.heap devRead.fs.node [0x2000] [0x1100] := by
  have hempty : LockedDir.Holds ⟨listCreate, 0⟩ unregistered.fs.heap devRead.fs.node [] [] :=
    ⟨rfl, represents_listCreate _, .nil⟩
  exact hempty.insert named_nullNode (fun _ hd => absurd hd List.not_mem_nil) rfl (by simp)

/-- The device cannot be read. -/
theorem not_agrees_dev : Entries devRead.fs .devfs 0x1000 [0x2000] ∧
    ∀ alloc, ¬ devRead.Agrees 0x1000 [0x2000] alloc := by
  have hentries : Entries devRead.fs .devfs 0x1000 [0x2000] :=
    holds_devRead.entries ⟨by simp, by decide, rfl, rfl⟩ rfl (by simp) rfl
      fun hk => absurd hk (by simp)
  refine ⟨hentries, fun alloc ha => ?_⟩
  have hfirst : ([0x2000] : List U32)[(0 : U32).toNat]? = some 0x2000 := rfl
  exact (ha.filled hentries hfirst).1 rfl

end PiggyOS
