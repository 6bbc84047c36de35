import PiggyOS.Fs.Initrd

/-!
# The file system interface (`vfs.c`)

`finddir_fs` hands out the nodes that the directories hold, and `close_fs` frees the node it is
given. What the directories hold has not been freed as long as nobody closes a node or loads a
program from one.
-/

namespace PiggyOS

open Infra

/-- The file systems, `fs_root` and `tarfs_root`. The last two fields are bookkeeping: the nodes
that have been passed to `kfree`, last one first, and those that callers have been given. -/
structure Vfs where
  fs : FsState
  fsRoot : U32
  tarfsRoot : U32
  freed : List U32
  held : List U32

namespace Vfs

variable (s : Vfs)

/-- `open_fs`; a pointer that is not NULL leads to a function that is not modelled. -/
def openFs (node : U32) : Option Vfs :=
  if node = 0 then some s else if (s.fs.node node).openFn = .null then some s else none

/-- `read_fs`, as far as the directories go; a pointer that has not been set has no result. -/
def readFs (node : U32) : Option Vfs :=
  if node = 0 then some s else if (s.fs.node node).read = .unset then none else some s

/-- `close_fs` -/
def closeFs (node : U32) : Option Vfs :=
  if node = 0 then some s
  else if node = s.fsRoot then some s
  else if (s.fs.node node).close = .null then some { s with freed := node :: s.freed }
  else none

/-- `elf_load`, as far as the node goes. -/
def elfLoad (node : U32) : Option Vfs :=
  if node = 0 then some s
  else (s.openFs node).bind fun s => (s.readFs node).bind fun s => s.closeFs node

/-- The function that `node->finddir` leads to. -/
def callFinddir (node : U32) (name : Chars) : Option (FsState × U32) :=
  match (s.fs.node node).finddir with
  | .rootfsFinddir => s.fs.rootfsFinddir name
  | .devfsFinddir => s.fs.devfsFinddir name
  | .tarfsFinddir => (s.fs.tarfsFinddir node (some name)).map fun a => (s.fs, a)
  | _ => none

/-- `finddir_fs`; the caller holds the node that is found. -/
def finddirFs (node : U32) (name : Chars) : Option Vfs :=
  if node = 0 then some s
  else if (s.fs.node node).flags &&& fsDirectory ≠ 0 ∧ (s.fs.node node).finddir ≠ .null then
    (s.callFinddir node name).map fun (fs, a) =>
      { s with fs := fs, held := if a ≠ 0 then a :: s.held else s.held }
  else some s

end Vfs

/-! ## Runs -/

inductive VfsOp
  | finddir (node : U32) (name : Chars)
  | openNode (node : U32)
  | readNode (node : U32)
  | closeNode (node : U32)
  | elfLoad (node : U32)

namespace VfsOp

def node : VfsOp → U32
  | finddir n _ | openNode n | readNode n | closeNode n | elfLoad n => n

def exec (s : Vfs) : VfsOp → Option Vfs
  | finddir n name => s.finddirFs n name
  | openNode n => s.openFs n
  | readNode n => s.readFs n
  | closeNode n => s.closeFs n
  | elfLoad n => s.elfLoad n

/-- The call does not close a node other than `fs_root`. -/
def Safe (s : Vfs) : VfsOp → Prop
  | closeNode n | elfLoad n => n = 0 ∨ n = s.fsRoot
  | _ => True

end VfsOp

/-- A call on a node that the caller holds, or on NULL. -/
def VfsStep (s : Vfs) (op : VfsOp) (t : Vfs) : Prop :=
  (op.node = 0 ∨ op.node ∈ s.held) ∧ op.exec s = some t

namespace Vfs

/-- `root_nodes`, `devlist` and the list of the initial ramdisk. -/
def directories (s : Vfs) : List ListT :=
  [s.fs.root.nodes, s.fs.dev.nodes, s.fs.dirs (s.fs.node s.tarfsRoot).inode]

/-- A directory holds the node `a`. -/
def Contains (s : Vfs) (a : U32) : Prop :=
  ∃ l ∈ s.directories, ∃ d, Member s.fs.heap l d ∧ s.fs.heap.value d = a

/-- No node of a directory has been freed, and none twice. -/
structure DirsOk (s : Vfs) : Prop where
  not_freed : ∀ a, s.Contains a → a ∉ s.freed
  not_twice : s.freed.Nodup

/-- The directories are lists, and a node of theirs that is searched by `tarfs_finddir` leads to the
list of the initial ramdisk. -/
structure Directories (s : Vfs) : Prop where
  represents : ∀ l ∈ s.directories, ∃ ns, Represents s.fs.heap l ns
  tarfs : ∀ a, a = s.fsRoot ∨ s.Contains a → (s.fs.node a).finddir = .tarfsFinddir →
    (s.fs.node a).inode = (s.fs.node s.tarfsRoot).inode

/-- After the file systems have been set up, the callers have `fs_root`. -/
structure Ready (s : Vfs) : Prop where
  directories : s.Directories
  freed : s.freed = []
  held : s.held = [s.fsRoot]

/-- Nothing has been freed, and what callers hold is `fs_root` or in a directory. -/
structure Inv (s : Vfs) : Prop where
  directories : s.Directories
  freed : s.freed = []
  held : ∀ a ∈ s.held, a = s.fsRoot ∨ s.Contains a

variable {s t : Vfs} {op : VfsOp} {a node : U32} {name : Chars}

theorem Ready.inv (h : s.Ready) : s.Inv where
  directories := h.directories
  freed := h.freed
  held := fun a ha => by
    rw [h.held] at ha
    exact Or.inl (List.mem_singleton.mp ha)

theorem Inv.dirsOk (h : s.Inv) : s.DirsOk := by
  constructor
  · intro a _
    rw [h.freed]
    exact List.not_mem_nil
  · rw [h.freed]
    exact List.nodup_nil

end Vfs

/-- Wherever a search stops, it is in the list. -/
theorem findFrom_mem {m : Nodes} {node : U32 → FsNode} {name : Chars} {n : Nat} {p d : U32}
    {ns : List U32} (hl : Linked m.next m.prev p ns 0)
    (hd : findFrom m node name n (ns.headD 0) = some d) : d = 0 ∨ d ∈ ns := by
  induction n generalizing p ns with
  | zero => cases hd
  | succ n ih =>
    rw [findFrom] at hd
    cases ns with
    | nil =>
      rw [List.headD_nil, if_pos rfl] at hd
      exact Or.inl (Option.some.inj hd).symm
    | cons x ns =>
      obtain ⟨-, hnext, hrest⟩ := hl
      rw [List.headD_cons] at hd
      split at hd
      · exact Or.inl (Option.some.inj hd).symm
      · obtain ⟨r, -, hd⟩ := Option.bind_eq_some_iff.mp hd
        split at hd
        · exact Or.inr (List.mem_cons.mpr (Or.inl (Option.some.inj hd).symm))
        · rw [hnext] at hd
          exact (ih hrest hd).imp_right (List.mem_cons_of_mem x)

/-- A node that is found is NULL or in the directory. -/
theorem foundNode_of_findNode {m : Nodes} {node : U32 → FsNode} {name : Chars} {l : ListT}
    {ns : List U32} {d : U32} (h : Represents m l ns) (hd : findNode m node l name = some d) :
    foundNode m d = 0 ∨ ∃ x, Member m l x ∧ m.value x = foundNode m d := by
  rw [findNode, h.head] at hd
  rcases findFrom_mem h.linked hd with rfl | hmem
  · exact Or.inl foundNode_zero
  · exact Or.inr ⟨d, h.member_of_mem hmem, (h.foundNode hmem).symm⟩

/-- A search under a lock leaves the list as it is. -/
theorem LockedDir.finddir_eq_some {r r' : LockedDir} {m : Nodes} {node : U32 → FsNode}
    {name : Chars} {a : U32} (h : r.finddir m node name = some (r', a)) :
    r'.nodes = r.nodes ∧ ∃ d, findNode m node r.nodes name = some d ∧ foundNode m d = a := by
  obtain ⟨lock, -, h⟩ := Option.bind_eq_some_iff.mp h
  obtain ⟨d, hd, heq⟩ := Option.map_eq_some_iff.mp h
  obtain ⟨rfl, ha⟩ := Prod.mk.inj heq
  exact ⟨rfl, d, hd, ha⟩

namespace Vfs

variable {s t : Vfs} {op : VfsOp} {a node : U32} {name : Chars} {fs : FsState}

theorem openFs_eq_some (h : s.openFs node = some t) : t = s := by
  unfold openFs at h
  split at h
  · exact (Option.some.inj h).symm
  · split at h
    · exact (Option.some.inj h).symm
    · cases h

theorem readFs_eq_some (h : s.readFs node = some t) : t = s := by
  unfold readFs at h
  split at h
  · exact (Option.some.inj h).symm
  · split at h
    · cases h
    · exact (Option.some.inj h).symm

/-- `close_fs` frees every node except `fs_root`. -/
theorem closeFs_eq_some (h : s.closeFs node = some t) :
    (node = 0 ∨ node = s.fsRoot) ∧ t = s ∨
      (node ≠ 0 ∧ node ≠ s.fsRoot) ∧ t = { s with freed := node :: s.freed } := by
  unfold closeFs at h
  split at h
  · next h0 => exact Or.inl ⟨Or.inl h0, (Option.some.inj h).symm⟩
  · next h0 =>
    split at h
    · next hroot => exact Or.inl ⟨Or.inr hroot, (Option.some.inj h).symm⟩
    · next hroot =>
      split at h
      · exact Or.inr ⟨⟨h0, hroot⟩, (Option.some.inj h).symm⟩
      · cases h

/-- To the directories, loading a program is closing its node. -/
theorem closeFs_of_elfLoad (h : s.elfLoad node = some t) : s.closeFs node = some t := by
  unfold elfLoad at h
  split at h
  · next h0 => rwa [closeFs, if_pos h0]
  · obtain ⟨s₁, h₁, hrest⟩ := Option.bind_eq_some_iff.mp h
    obtain ⟨s₂, h₂, hclose⟩ := Option.bind_eq_some_iff.mp hrest
    obtain rfl := openFs_eq_some h₁
    obtain rfl := readFs_eq_some h₂
    exact hclose

/-- The two states have the same nodes and directories. -/
structure SameDirs (fs fs' : FsState) : Prop where
  node : fs'.node = fs.node
  heap : fs'.heap = fs.heap
  root : fs'.root.nodes = fs.root.nodes
  dev : fs'.dev.nodes = fs.dev.nodes
  dirs : fs'.dirs = fs.dirs

theorem SameDirs.directories (h : SameDirs s.fs fs) (held : List U32) :
    directories { s with fs := fs, held := held } = s.directories := by
  simp only [Vfs.directories, h.node, h.root, h.dev, h.dirs]

theorem SameDirs.contains_iff (h : SameDirs s.fs fs) (held : List U32) :
    Contains { s with fs := fs, held := held } a ↔ s.Contains a := by
  unfold Contains
  rw [h.directories]
  simp only [h.heap]

theorem Directories.of_same (hs : s.Directories) (h : SameDirs s.fs fs) (held : List U32) :
    Directories { s with fs := fs, held := held } := by
  constructor
  · intro l hl
    rw [h.directories] at hl
    simp only [h.heap]
    exact hs.represents l hl
  · intro a ha
    rw [h.contains_iff] at ha
    simp only [h.node]
    exact hs.tarfs a ha

/-- A search in a directory finds NULL or a node that the directory holds. -/
theorem Directories.contains (hs : s.Directories) {l : ListT} (hl : l ∈ s.directories) {d : U32}
    (hd : findNode s.fs.heap s.fs.node l name = some d) :
    foundNode s.fs.heap d = 0 ∨ s.Contains (foundNode s.fs.heap d) := by
  obtain ⟨ns, hns⟩ := hs.represents l hl
  exact (foundNode_of_findNode hns hd).imp_right fun h => ⟨l, hl, h⟩

/-- The three `finddir` functions find NULL or what a directory holds, and change no directory. -/
theorem Directories.callFinddir (hs : s.Directories) (hnode : node = s.fsRoot ∨ s.Contains node)
    (h : s.callFinddir node name = some (fs, a)) : SameDirs s.fs fs ∧ (a = 0 ∨ s.Contains a) := by
  have hroot : s.fs.root.nodes ∈ s.directories := by simp [Vfs.directories]
  have hdev : s.fs.dev.nodes ∈ s.directories := by simp [Vfs.directories]
  unfold Vfs.callFinddir at h
  split at h
  · obtain ⟨⟨r, x⟩, hr, heq⟩ := Option.map_eq_some_iff.mp h
    obtain ⟨rfl, rfl⟩ := Prod.mk.inj heq
    obtain ⟨hnodes, d, hd, rfl⟩ := LockedDir.finddir_eq_some hr
    exact ⟨⟨rfl, rfl, hnodes, rfl, rfl⟩, hs.contains hroot hd⟩
  · obtain ⟨⟨r, x⟩, hr, heq⟩ := Option.map_eq_some_iff.mp h
    obtain ⟨rfl, rfl⟩ := Prod.mk.inj heq
    obtain ⟨hnodes, d, hd, rfl⟩ := LockedDir.finddir_eq_some hr
    exact ⟨⟨rfl, rfl, rfl, hnodes, rfl⟩, hs.contains hdev hd⟩
  · next htarfs =>
    have hdir : s.fs.dirs (s.fs.node node).inode ∈ s.directories := by
      rw [hs.tarfs node hnode htarfs]
      simp [Vfs.directories]
    obtain ⟨x, hx, heq⟩ := Option.map_eq_some_iff.mp h
    obtain ⟨rfl, rfl⟩ := Prod.mk.inj heq
    obtain ⟨d, hd, rfl⟩ := Option.map_eq_some_iff.mp hx
    exact ⟨⟨rfl, rfl, rfl, rfl, rfl⟩, hs.contains hdir hd⟩
  · cases h

theorem Inv.finddirFs (hs : s.Inv) (hheld : node = 0 ∨ node ∈ s.held)
    (h : s.finddirFs node name = some t) : t.Inv := by
  unfold Vfs.finddirFs at h
  split at h
  · exact Option.some.inj h ▸ hs
  · next hnode =>
    split at h
    · obtain ⟨⟨fs, a⟩, hcall, rfl⟩ := Option.map_eq_some_iff.mp h
      have hnode := hs.held node (hheld.resolve_left hnode)
      obtain ⟨hsame, ha⟩ := hs.directories.callFinddir hnode hcall
      refine ⟨hs.directories.of_same hsame _, hs.freed, fun b hb => ?_⟩
      rw [hsame.contains_iff]
      dsimp only at hb ⊢
      split at hb
      · next h0 =>
        rcases List.mem_cons.mp hb with rfl | hb
        · exact Or.inr (ha.resolve_left h0)
        · exact hs.held b hb
      · exact hs.held b hb
    · exact Option.some.inj h ▸ hs

theorem Inv.closeFs (hs : s.Inv) (hsafe : node = 0 ∨ node = s.fsRoot)
    (h : s.closeFs node = some t) : t.Inv := by
  rcases closeFs_eq_some h with ⟨-, rfl⟩ | ⟨⟨h0, hroot⟩, -⟩
  · exact hs
  · exact absurd hsafe (not_or.mpr ⟨h0, hroot⟩)

theorem Inv.step (hs : s.Inv) (h : VfsStep s op t) (hsafe : op.Safe s) : t.Inv := by
  obtain ⟨hheld, h⟩ := h
  cases op with
  | finddir n name => exact hs.finddirFs hheld h
  | openNode n => exact openFs_eq_some h ▸ hs
  | readNode n => exact readFs_eq_some h ▸ hs
  | closeNode n => exact hs.closeFs hsafe h
  | elfLoad n => exact hs.closeFs hsafe (closeFs_of_elfLoad h)

/-- Closing another node frees what a directory holds. -/
theorem Inv.not_dirsOk_closeFs (hs : s.Inv) (hheld : node = 0 ∨ node ∈ s.held)
    (hsafe : ¬ (node = 0 ∨ node = s.fsRoot)) (h : s.closeFs node = some t) : ¬ t.DirsOk := by
  intro hok
  rcases closeFs_eq_some h with ⟨hsafe', -⟩ | ⟨-, rfl⟩
  · exact hsafe hsafe'
  · obtain ⟨h0, hroot⟩ := not_or.mp hsafe
    have hcontains := (hs.held node (hheld.resolve_left h0)).resolve_left hroot
    exact hok.not_freed node hcontains List.mem_cons_self

theorem Inv.not_dirsOk (hs : s.Inv) (h : VfsStep s op t) (hsafe : ¬ op.Safe s) :
    ¬ t.DirsOk := by
  obtain ⟨hheld, h⟩ := h
  cases op with
  | finddir n name => exact absurd trivial hsafe
  | openNode n => exact absurd trivial hsafe
  | readNode n => exact absurd trivial hsafe
  | closeNode n => exact hs.not_dirsOk_closeFs hheld hsafe h
  | elfLoad n => exact hs.not_dirsOk_closeFs hheld hsafe (closeFs_of_elfLoad h)

end Vfs

/-- The directories hold no freed node in every state of a run exactly when no call of the run
closes a node other than `fs_root`. -/
theorem dirs_ok_iff_no_close (ops : List VfsOp) (s t : Vfs) (hs : s.Ready) :
    (∀ u, Passed VfsStep s ops t u → u.DirsOk) ↔
      ∀ u op v, PassedStep VfsStep s ops t u op v → op.Safe u :=
  Run.good_iff_safe (fun _ h => Vfs.Inv.dirsOk h) (fun _ _ _ h hstep hsafe => h.step hstep hsafe)
    (fun _ _ _ h hstep hsafe => h.not_dirsOk hstep hsafe) hs.inv

/-- `FS_MOUNTPOINT` -/
def fsMountpoint : U32 := 8

/-- The node that `rootfs_init` makes. -/
def rootfsNode : FsNode :=
  ⟨fun i => [0x2f].getD i 0, fsDirectory ||| fsMountpoint, 0, 0, .null, .null, .null,
    .rootfsReaddir, .rootfsFinddir⟩

/-- The file systems with `fs_root` at 0x9000, before a node is registered. -/
def unregistered : RegistryRun :=
  { emptyRegistries with
    fs := { emptyRegistries.fs with node := Function.update (fun _ => devNode) 0x9000 rootfsNode } }

theorem named_dev : Named unregistered.fs.node 0x1000 [0x64, 0x65, 0x76] :=
  (named_update_of_ne (by decide)).mpr (named_devNode _)

/-- Its list after the node `dev` has been registered. -/
def devInserted : ListResult := listInsertFront unregistered.fs.heap listCreate 0x1000 0x2000

/-- The node `dev` is registered. -/
def devRegistered : Vfs where
  fs := { unregistered.fs with
    heap := devInserted.nodes
    root := ⟨devInserted.list, 0⟩
    rootFiles := 1 }
  fsRoot := 0x9000
  tarfsRoot := 0x9000
  freed := []
  held := [0x9000]

theorem holds_devRegistered : devRegistered.fs.root.Holds devRegistered.fs.heap
    devRegistered.fs.node [0x2000] [0x1000] :=
  (RegistryRun.Rep.boot (s := unregistered) ⟨rfl, rfl, rfl, rfl, rfl⟩).root.insert named_dev
    (fun _ hd => absurd hd List.not_mem_nil) rfl (by decide)

theorem ready_devRegistered : devRegistered.Ready where
  directories := by
    constructor
    · intro l hl
      rcases List.mem_cons.mp hl with rfl | hl
      · exact ⟨_, holds_devRegistered.represents⟩
      · have hempty : l = listCreate := by
          rcases List.mem_cons.mp hl with rfl | hl
          · rfl
          · exact List.mem_singleton.mp hl
        exact ⟨[], hempty ▸ represents_listCreate _⟩
    · intro a _ hfinddir
      by_cases ha : a = 0x9000
      · rw [ha]
        rfl
      · have hnode : devRegistered.fs.node a = devNode := by
          show Function.update (fun _ => devNode) 0x9000 rootfsNode a = devNode
          rw [Function.update_of_ne ha]
        rw [hnode] at hfinddir
        cases hfinddir
  freed := rfl
  held := rfl

/-- The state after `finddir_fs(fs_root, "dev")`. -/
def devFound : Vfs := { devRegistered with held := [0x1000, 0x9000] }

theorem finddirFs_dev : devRegistered.finddirFs 0x9000 devNode.name = some devFound := by
  have hfirst : firstOf devRegistered.fs.node [0x1000] [0x64, 0x65, 0x76] = some 0x1000 :=
    firstOf_singleton_eq_some.mpr ⟨rfl, named_dev⟩
  have hfind : devRegistered.fs.rootfsFinddir devNode.name = some (devRegistered.fs, 0x1000) := by
    rw [FsState.rootfsFinddir, holds_devRegistered.finddir (named_devNode 0), hfirst]
    rfl
  have hcall : devRegistered.callFinddir 0x9000 devNode.name = some (devRegistered.fs, 0x1000) :=
    hfind
  rw [Vfs.finddirFs, hcall]
  rfl

theorem run_finddir_dev : Run VfsStep devRegistered ([] ++ [.finddir 0x9000 devNode.name])
    devFound :=
  .snoc (.nil _) ⟨Or.inr List.mem_cons_self, finddirFs_dev⟩

/-- Looking the node `dev` up does no harm. -/
theorem dirs_ok_finddir :
    Run VfsStep devRegistered ([] ++ [.finddir 0x9000 devNode.name]) devFound ∧
      ∀ u, Passed VfsStep devRegistered ([] ++ [.finddir 0x9000 devNode.name]) devFound u →
        u.DirsOk := by
  refine ⟨run_finddir_dev, (dirs_ok_iff_no_close _ _ _ ready_devRegistered).mpr ?_⟩
  rintro u op v ⟨before, after, hops, -, -, -⟩
  have hop : op ∈ [] ++ [VfsOp.finddir 0x9000 devNode.name] :=
    hops ▸ List.mem_append_right _ List.mem_cons_self
  rw [List.mem_singleton.mp hop]
  trivial

/-- The node `dev` is looked up and closed. -/
theorem not_dirs_ok_close : ∃ t, Run VfsStep devRegistered
    ([] ++ [.finddir 0x9000 devNode.name] ++ [.closeNode 0x1000]) t ∧ ¬ t.DirsOk := by
  have hclose : devFound.closeFs 0x1000 = some { devFound with freed := [0x1000] } := rfl
  have hstep : VfsStep devRegistered (.finddir 0x9000 devNode.name) devFound :=
    ⟨Or.inr List.mem_cons_self, finddirFs_dev⟩
  have hinv := ready_devRegistered.inv.step hstep trivial
  refine ⟨_, .snoc run_finddir_dev ⟨Or.inr List.mem_cons_self, hclose⟩, ?_⟩
  exact hinv.not_dirsOk_closeFs (Or.inr List.mem_cons_self) (by decide) hclose

end PiggyOS
