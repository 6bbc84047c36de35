import PiggyOS.Fs.Mount

/-!
# Calls through the nodes (`vfs.c`)

`open_fs` and its siblings call what the node has a pointer to. After the file systems have been set
up, a pointer that leads somewhere has been stored by the constructor of the node, but for two
pointers of the devices: `FS_CHARDEVICE` has the bit of `FS_DIRECTORY`.

* `FsMount.Complete.reachable` — the nodes that are reachable
* `FsMount.Complete.ready` — calls of `vfs.c` can start
* `mount_dispatchOk_iff` — when only pointers are called that have been stored
-/

namespace PiggyOS

open Infra

/-- The function that is called through a pointer if it is not NULL. -/
def FnPtr.target (p : FnPtr) : Option FnPtr := if p = .null then none else some p

namespace FsMount

variable (s : FsMount)

/-- What `open_fs` calls. -/
def openFs (node : U32) : Option FnPtr :=
  if node = 0 then none else (s.fs.node node).openFn.target

/-- What `close_fs` calls before it frees the node. -/
def closeFs (node : U32) : Option FnPtr :=
  if node = 0 then none
  else if node = s.fsRoot then none
  else (s.fs.node node).close.target

/-- What `read_fs` calls. -/
def readFs (node : U32) : Option FnPtr :=
  if node = 0 then none else (s.fs.node node).read.target

/-- What `write_fs` calls. -/
def writeFs (node : U32) : Option FnPtr :=
  if node = 0 then none else (s.write node).target

/-- What `readdir_fs` calls. -/
def readdirFs (node : U32) : Option FnPtr :=
  if node = 0 then none
  else if (s.fs.node node).flags &&& fsDirectory ≠ 0 then (s.fs.node node).readdir.target
  else none

/-- What `finddir_fs` calls. -/
def finddirFs (node : U32) : Option FnPtr :=
  if node = 0 then none
  else if (s.fs.node node).flags &&& fsDirectory ≠ 0 then (s.fs.node node).finddir.target
  else none

/-- What `ioctl_fs` calls. -/
def ioctlFs (node : U32) : Option FnPtr :=
  if node = 0 then none else (s.ioctl node).target

/-- What the function of `vfs.c` for an operation calls. -/
def called : FsOp → U32 → Option FnPtr
  | .openFs => s.openFs
  | .closeFs => s.closeFs
  | .readFs => s.readFs
  | .writeFs => s.writeFs
  | .readdirFs => s.readdirFs
  | .finddirFs => s.finddirFs
  | .ioctlFs => s.ioctlFs

/-- The list that `finddir_fs` goes through. -/
def directory (node : U32) : Option ListT :=
  match s.finddirFs node with
  | some .rootfsFinddir => some s.fs.root.nodes
  | some .devfsFinddir => some s.fs.dev.nodes
  | some .tarfsFinddir => some (s.fs.dirs (s.fs.node node).inode)
  | _ => none

/-- The nodes that a path from `fs_root` leads to. -/
inductive Reachable (s : FsMount) : U32 → Prop
  | root : s.Reachable s.fsRoot
  | child {a d : U32} {l : ListT} : s.Reachable a → s.directory a = some l →
      Member s.fs.heap l d → s.Reachable (s.fs.heap.value d)

/-- The type of the node, without `FS_MOUNTPOINT`, is that of a directory. -/
def IsDirectory (a : U32) : Prop := (s.fs.node a).flags &&& ~~~fsMountpoint = fsDirectory

/-- A call on a reachable node goes to a function that its constructor has stored, or to none;
`readdir_fs` and `finddir_fs` call none on a node that is not a directory. -/
structure DispatchOk (s : FsMount) : Prop where
  stored : ∀ a op f, s.Reachable a → s.called op a = some f → s.stored a op = true
  directories : ∀ a, s.Reachable a → ¬ s.IsDirectory a →
    s.readdirFs a = none ∧ s.finddirFs a = none

end FsMount

theorem FnPtr.target_null : FnPtr.null.target = none := rfl

theorem FnPtr.target_eq_none {p : FnPtr} : p.target = none ↔ p = .null := by
  simp [FnPtr.target]

namespace FsMount

variable {s s₀ t : FsMount} {al : MountAllocs} {rs ds ns : List U32} {a : U32}

/-- A node without the bit of `FS_DIRECTORY` is not searched. -/
theorem finddirFs_of_file (h : (s.fs.node a).flags = fsFile) :
    s.readdirFs a = none ∧ s.finddirFs a = none := by
  simp [readdirFs, finddirFs, h, fsFile, fsDirectory]

/-- Nothing is behind pointers that are NULL. -/
theorem finddirFs_of_null (hreaddir : (s.fs.node a).readdir = .null)
    (hfinddir : (s.fs.node a).finddir = .null) : s.readdirFs a = none ∧ s.finddirFs a = none := by
  simp [readdirFs, finddirFs, hreaddir, hfinddir, FnPtr.target_null]

/-- Any node with the bit of `FS_DIRECTORY` is searched. -/
theorem finddirFs_of_bit (ha : a ≠ 0) (h : (s.fs.node a).flags &&& fsDirectory ≠ 0) :
    s.readdirFs a = (s.fs.node a).readdir.target ∧
      s.finddirFs a = (s.fs.node a).finddir.target := by
  rw [readdirFs, finddirFs, if_neg ha, if_neg ha, if_pos h, if_pos h]
  exact ⟨rfl, rfl⟩

/-- The bit of `FS_DIRECTORY` is set in `FS_CHARDEVICE`. -/
theorem fsChardevice_and_fsDirectory : fsChardevice &&& fsDirectory ≠ 0 := by
  simp [fsChardevice, fsDirectory]

theorem directory_of_none (h : s.finddirFs a = none) : s.directory a = none := by
  rw [directory, h]

/-! ## The nodes that are reachable -/

/-- The state of `vfs.c`, when callers have `fs_root`. -/
def vfs (s : FsMount) : Vfs := ⟨s.fs, s.fsRoot, s.tarfsRoot, [], [s.fsRoot]⟩

/-- The three functions search the list of the directory. -/
theorem findNode_of_callFinddir {fs : FsState} {name : Chars} {b : U32} (ha : a ≠ 0)
    (hbit : (s.fs.node a).flags &&& fsDirectory ≠ 0)
    (h : s.vfs.callFinddir a name = some (fs, b)) :
    ∃ l d, s.directory a = some l ∧ findNode s.fs.heap s.fs.node l name = some d ∧
      foundNode s.fs.heap d = b := by
  have hcalled := (finddirFs_of_bit ha hbit).2
  unfold directory
  rw [hcalled]
  unfold Vfs.callFinddir at h
  split at h
  · next hptr =>
    have hptr : (s.fs.node a).finddir = .rootfsFinddir := hptr
    obtain ⟨⟨r, x⟩, hr, heq⟩ := Option.map_eq_some_iff.mp h
    obtain ⟨-, rfl⟩ := Prod.mk.inj heq
    obtain ⟨-, d, hd, rfl⟩ := LockedDir.finddir_eq_some hr
    exact ⟨s.fs.root.nodes, d, by rw [hptr]; rfl, hd, rfl⟩
  · next hptr =>
    have hptr : (s.fs.node a).finddir = .devfsFinddir := hptr
    obtain ⟨⟨r, x⟩, hr, heq⟩ := Option.map_eq_some_iff.mp h
    obtain ⟨-, rfl⟩ := Prod.mk.inj heq
    obtain ⟨-, d, hd, rfl⟩ := LockedDir.finddir_eq_some hr
    exact ⟨s.fs.dev.nodes, d, by rw [hptr]; rfl, hd, rfl⟩
  · next hptr =>
    have hptr : (s.fs.node a).finddir = .tarfsFinddir := hptr
    obtain ⟨x, hx, heq⟩ := Option.map_eq_some_iff.mp h
    obtain ⟨-, rfl⟩ := Prod.mk.inj heq
    obtain ⟨d, hd, rfl⟩ := Option.map_eq_some_iff.mp hx
    exact ⟨s.fs.dirs (s.fs.node a).inode, d, by rw [hptr]; rfl, hd, rfl⟩
  · cases h

/-- What `finddir_fs` finds in a node that is reachable is reachable. -/
theorem Reachable.finddirFs {name : Chars} {v : Vfs} (ha : s.Reachable a)
    (hlists : ∀ l, s.directory a = some l → ∃ ns, Represents s.fs.heap l ns)
    (h : s.vfs.finddirFs a name = some v) : ∀ b ∈ v.held, s.Reachable b := by
  have hroot : ∀ b ∈ s.vfs.held, s.Reachable b := by
    intro b hb
    rw [List.mem_singleton.mp hb]
    exact .root
  unfold Vfs.finddirFs at h
  split at h
  · cases h
    exact hroot
  · next hne =>
    split at h
    · next hdir =>
      obtain ⟨⟨fs, x⟩, hcall, rfl⟩ := Option.map_eq_some_iff.mp h
      obtain ⟨l, d, hl, hd, rfl⟩ := findNode_of_callFinddir hne hdir.1 hcall
      obtain ⟨ns, hns⟩ := hlists l hl
      intro b hb
      dsimp only at hb
      split at hb
      · next h0 =>
        rcases List.mem_cons.mp hb with rfl | hb
        · obtain ⟨y, hy, hv⟩ := (foundNode_of_findNode hns hd).resolve_left h0
          rw [← hv]
          exact ha.child hl hy
        · exact hroot b hb
      · exact hroot b hb
    · cases h
      exact hroot

namespace Complete

/-- The nodes in the root directory. -/
theorem root_value (h : Complete s₀ al rs ds ns t) {d : U32}
    (hd : Member t.fs.heap t.fs.root.nodes d) :
    t.fs.heap.value d = al.devfs ∨ t.fs.heap.value d = al.tar.root := by
  have hlogged := h.rep.root.tracks.logged d (h.rep.root.represents.mem_of_member hd)
  simpa using hlogged

/-- The nodes in `dev`. -/
theorem dev_value (h : Complete s₀ al rs ds ns t) {d : U32}
    (hd : Member t.fs.heap t.fs.dev.nodes d) : t.fs.heap.value d ∈ al.devices :=
  h.rep.dev.tracks.logged d (h.rep.dev.represents.mem_of_member hd)

theorem flags_file (h : Complete s₀ al rs ds ns t) {d : U32} (hd : d ∈ ns) :
    (t.fs.node (t.fs.heap.value d)).flags = fsFile := by
  obtain ⟨i, name, hnode⟩ := (h.files d hd).1
  rw [hnode]
  rfl

theorem directory_rootfs (h : Complete s₀ al rs ds ns t) (ha : al.rootfs ≠ 0) :
    t.directory al.rootfs = some t.fs.root.nodes := by
  have hbit : (t.fs.node al.rootfs).flags &&& fsDirectory ≠ 0 := by
    rw [h.root.1]
    simp [rootfsNode, fsDirectory, fsMountpoint]
  rw [directory, (finddirFs_of_bit ha hbit).2, h.root.1]
  rfl

theorem directory_devfs (h : Complete s₀ al rs ds ns t) (ha : al.devfs ≠ 0) :
    t.directory al.devfs = some t.fs.dev.nodes := by
  obtain ⟨name, old, hnode, -⟩ := h.devfs.1
  have hbit : (t.fs.node al.devfs).flags &&& fsDirectory ≠ 0 := by
    rw [hnode]
    simp [devfsNode, fsDirectory, fsMountpoint]
  rw [directory, (finddirFs_of_bit ha hbit).2, hnode]
  rfl

theorem directory_tarRoot (h : Complete s₀ al rs ds ns t) {l : ListT}
    (hl : t.directory al.tar.root = some l) :
    l = t.fs.dirs (t.fs.node al.tar.root).inode := by
  by_cases ha : al.tar.root = 0
  · rw [directory, finddirFs, if_pos ha] at hl
    cases hl
  · have hbit : (t.fs.node al.tar.root).flags &&& fsDirectory ≠ 0 := by
      rw [h.tarRoot.1.1]
      simp [fsDirectory]
    rw [directory, (finddirFs_of_bit ha hbit).2, h.tarRoot.1.2] at hl
    exact (Option.some.inj hl).symm

/-- The nodes that are reachable if no device has a list. -/
theorem reachable (h : Complete s₀ al rs ds ns t) (hal : ∀ a ∈ al.nodes, a ≠ 0)
    (hdevices : ∀ a ∈ al.devices, t.finddirFs a = none) (ha : t.Reachable a) :
    a ∈ [al.rootfs, al.devfs, al.tar.root] ∨ a ∈ al.devices ∨ ∃ d ∈ ns, t.fs.heap.value d = a := by
  induction ha with
  | root => exact Or.inl (by simp [h.fsRoot])
  | @child a d l _ hl hd ih =>
    rcases ih with ha | ha | ⟨x, hx, hfile⟩
    · simp only [List.mem_cons, List.not_mem_nil, or_false] at ha
      rcases ha with rfl | rfl | rfl
      · rw [h.directory_rootfs (hal _ (by simp [MountAllocs.nodes]))] at hl
        cases hl
        rcases h.root_value hd with hv | hv
        · exact Or.inl (by simp [hv])
        · exact Or.inl (by simp [hv])
      · rw [h.directory_devfs (hal _ (by simp [MountAllocs.nodes]))] at hl
        cases hl
        exact Or.inr (Or.inl (h.dev_value hd))
      · rw [h.directory_tarRoot hl] at hd
        exact Or.inr (Or.inr ⟨d, h.list.mem_of_member hd, rfl⟩)
    · rw [directory_of_none (hdevices a ha)] at hl
      cases hl
    · rw [directory_of_none (finddirFs_of_file (hfile ▸ h.flags_file hx)).2] at hl
      cases hl

/-- Every device is reachable. -/
theorem reachable_device (h : Complete s₀ al rs ds ns t) (hal : ∀ a ∈ al.nodes, a ≠ 0)
    {x : U32 × List (BitVec 8)} (hx : x ∈ al.named) : t.Reachable x.1 := by
  obtain ⟨name, old, hnode, hname⟩ := h.devfs.1
  have hdevfs : t.Reachable al.devfs := by
    have hnamed : Named t.fs.node al.devfs devName := by
      unfold Named
      rw [hnode]
      exact hname
    have hfirst : firstOf t.fs.node [al.devfs, al.tar.root] devName = some al.devfs :=
      firstOf_eq_some.mpr ⟨hnamed, [], [al.tar.root], rfl, fun _ hb => absurd hb List.not_mem_nil⟩
    obtain ⟨d, hd, hv⟩ := h.rep.root.tracks.first _ _ hfirst
    rw [← hv]
    have hroot : t.Reachable al.rootfs := h.fsRoot ▸ Reachable.root
    exact hroot.child (h.directory_rootfs (hal _ (by simp [MountAllocs.nodes])))
      (h.rep.root.represents.member_of_mem hd)
  have hfirst : firstOf t.fs.node al.devices x.2 = some x.1 :=
    firstOf_of_nodup (fun y hy => (h.devices y hy).name)
      (by simp [MountAllocs.named, comName, nullName, portName, randName]) hx
  obtain ⟨d, hd, hv⟩ := h.rep.dev.tracks.first _ _ hfirst
  rw [← hv]
  exact hdevfs.child (h.directory_devfs (hal _ (by simp [MountAllocs.nodes])))
    (h.rep.dev.represents.member_of_mem hd)

/-- The three directories have all their pointers. -/
theorem stored_directory (h : Complete s₀ al rs ds ns t)
    (ha : a ∈ [al.rootfs, al.devfs, al.tar.root]) : t.stored a = allOps ∧ t.IsDirectory a := by
  unfold IsDirectory
  simp only [List.mem_cons, List.not_mem_nil, or_false] at ha
  rcases ha with rfl | rfl | rfl
  · rw [h.root.1]
    exact ⟨h.root.2, by simp [rootfsNode, fsDirectory, fsMountpoint]⟩
  · obtain ⟨name, old, hnode, -⟩ := h.devfs.1
    rw [hnode]
    exact ⟨h.devfs.2, by simp [devfsNode, fsDirectory, fsMountpoint]⟩
  · rw [h.tarRoot.1.1]
    exact ⟨h.tarRoot.2, by simp [fsDirectory, fsMountpoint]⟩

/-- What a device has been left with is called unless it is NULL. -/
theorem null_of_dispatchOk (h : Complete s₀ al rs ds ns t) (hal : ∀ a ∈ al.nodes, a ≠ 0)
    (hok : t.DispatchOk) {x : U32 × List (BitVec 8)} (hx : x ∈ al.named) :
    (s₀.fs.node x.1).readdir = .null ∧ (s₀.fs.node x.1).finddir = .null := by
  have hdevice := h.devices x hx
  have hreach := h.reachable_device hal hx
  have hne : x.1 ≠ 0 :=
    hal _ (List.mem_cons_of_mem _ (List.mem_cons_of_mem _ (List.mem_map_of_mem hx)))
  have hbit : (t.fs.node x.1).flags &&& fsDirectory ≠ 0 := by
    rw [hdevice.flags]
    exact fsChardevice_and_fsDirectory
  obtain ⟨hreaddir, hfinddir⟩ := finddirFs_of_bit hne hbit
  have hnull : ∀ op (p : FnPtr), t.called op x.1 = p.target → deviceOps op = false → p = .null := by
    intro op p hcalled hop
    rw [← FnPtr.target_eq_none, ← hcalled]
    by_contra hsome
    obtain ⟨f, hf⟩ := Option.ne_none_iff_exists'.mp hsome
    have hstored := hok.stored _ _ _ hreach hf
    rw [hdevice.stored, hop] at hstored
    cases hstored
  refine ⟨hdevice.readdir ▸ ?_, hdevice.finddir ▸ ?_⟩
  · exact hnull .readdirFs _ hreaddir rfl
  · exact hnull .finddirFs _ hfinddir rfl

theorem dispatchOk_of_null (h : Complete s₀ al rs ds ns t) (hal : ∀ a ∈ al.nodes, a ≠ 0)
    (hnull : ∀ a ∈ al.devices, (s₀.fs.node a).readdir = .null ∧ (s₀.fs.node a).finddir = .null) :
    t.DispatchOk := by
  have hdevice : ∀ a ∈ al.devices, t.stored a = deviceOps ∧ t.readdirFs a = none ∧
      t.finddirFs a = none := by
    intro a ha
    obtain ⟨hreaddir, hfinddir⟩ := hnull a ha
    obtain ⟨x, hx, rfl⟩ := List.mem_map.mp (show a ∈ al.named.map Prod.fst from ha)
    have hx := h.devices x hx
    exact ⟨hx.stored, finddirFs_of_null (hx.readdir.trans hreaddir) (hx.finddir.trans hfinddir)⟩
  have hcases := fun a => h.reachable (a := a) hal fun a ha => (hdevice a ha).2.2
  constructor
  · intro a op f hreach hcalled
    rcases hcases a hreach with ha | ha | ⟨d, hd, rfl⟩
    · rw [(h.stored_directory ha).1]
      rfl
    · obtain ⟨hstored, hreaddir, hfinddir⟩ := hdevice a ha
      rw [hstored]
      cases op with
      | readdirFs => exact absurd (hreaddir.symm.trans hcalled) (by simp)
      | finddirFs => exact absurd (hfinddir.symm.trans hcalled) (by simp)
      | openFs | closeFs | readFs | writeFs | ioctlFs => rfl
    · rw [(h.files d hd).2]
      rfl
  · intro a hreach hdir
    rcases hcases a hreach with ha | ha | ⟨d, hd, rfl⟩
    · exact absurd (h.stored_directory ha).2 hdir
    · exact (hdevice a ha).2
    · exact finddirFs_of_file (h.flags_file hd)

/-- Of the nodes in the directories, only `initrd` leads to `tarfs_finddir`. -/
theorem eq_tarRoot_of_contains (h : Complete s₀ al rs ds ns t)
    (hdevices : ∀ a ∈ al.devices, (s₀.fs.node a).finddir ≠ .tarfsFinddir)
    (ha : t.vfs.Contains a) (hfinddir : (t.fs.node a).finddir = .tarfsFinddir) :
    a = al.tar.root := by
  obtain ⟨l, hl, d, hd, hv⟩ := ha
  have hv : t.fs.heap.value d = a := hv
  simp only [Vfs.directories, List.mem_cons, List.not_mem_nil, or_false] at hl
  rcases hl with rfl | rfl | rfl
  · rcases h.root_value hd with hdevfs | htar
    · obtain ⟨name, old, hnode, -⟩ := h.devfs.1
      rw [← hv, hdevfs, hnode] at hfinddir
      cases hfinddir
    · exact hv.symm.trans htar
  · obtain ⟨x, hx, hxa⟩ := List.mem_map.mp (show _ ∈ al.named.map Prod.fst from h.dev_value hd)
    rw [← hv, ← hxa, (h.devices x hx).finddir] at hfinddir
    exact absurd hfinddir (hdevices _ (List.mem_map_of_mem hx))
  · have hd : Member t.fs.heap (t.fs.dirs (t.fs.node t.tarfsRoot).inode) d := hd
    rw [h.tarfsRoot] at hd
    obtain ⟨i, name, hnode⟩ := (h.files d (h.list.mem_of_member hd)).1
    rw [← hv, hnode] at hfinddir
    cases hfinddir

/-- The state that calls of `vfs.c` start from, unless a device has been left with a pointer to
`tarfs_finddir`. -/
theorem ready (h : Complete s₀ al rs ds ns t)
    (hdevices : ∀ a ∈ al.devices, (s₀.fs.node a).finddir ≠ .tarfsFinddir) : t.vfs.Ready where
  directories := by
    constructor
    · intro l hl
      simp only [Vfs.directories, List.mem_cons, List.not_mem_nil, or_false] at hl
      rcases hl with rfl | rfl | rfl
      · exact ⟨rs, h.rep.root.represents⟩
      · exact ⟨ds, h.rep.dev.represents⟩
      · refine ⟨ns, ?_⟩
        show Represents t.fs.heap (t.fs.dirs (t.fs.node t.tarfsRoot).inode) ns
        rw [h.tarfsRoot]
        exact h.list
    · rintro a (rfl | ha) hfinddir
      · have hfinddir : (t.fs.node t.fsRoot).finddir = .tarfsFinddir := hfinddir
        rw [h.fsRoot, h.root.1] at hfinddir
        cases hfinddir
      · show (t.fs.node a).inode = (t.fs.node t.tarfsRoot).inode
        rw [h.eq_tarRoot_of_contains hdevices ha hfinddir, h.tarfsRoot]
  freed := rfl
  held := rfl

end Complete

end FsMount

/-- **Only pointers that have been stored are called exactly if the memory for the four devices has
NULL where their constructors store nothing.** -/
theorem mount_dispatchOk_iff (s t : FsMount) (al : MountAllocs) (start endAddr : U32)
    (hs : s.Boot) (hal : al.Fresh s.fs) (ht : s.mount al start endAddr = some t)
    (hregular : ∀ i, 1 ≤ i → i < t.files.tarfsFiles → t.RegularAt i) :
    t.DispatchOk ↔
      ∀ a ∈ al.devices, (s.fs.node a).readdir = .null ∧ (s.fs.node a).finddir = .null := by
  obtain ⟨rs, ds, ns, h⟩ := hs.mount hal ht hregular
  refine ⟨fun hok a ha => ?_, h.dispatchOk_of_null hal.ne_zero⟩
  obtain ⟨x, hx, rfl⟩ := List.mem_map.mp (show a ∈ al.named.map Prod.fst from ha)
  exact h.null_of_dispatchOk hal.ne_zero hok hx

/-! ## Two heaps -/

namespace FsMount

/-- Addresses for the nodes, with a small archive. -/
def sampleMountAllocs : MountAllocs where
  rootfs := 0x50000
  devfs := 0x50100
  devfsLink := 0x51000
  com := 0x50200
  comLink := 0x51010
  null := 0x50300
  nullLink := 0x51020
  port := 0x50400
  portLink := 0x51030
  rand := 0x50500
  randLink := 0x51040
  tar := sampleAllocs

/-- Before `vfs_init`, the small archive is in memory, and the heap has `p` for every pointer. -/
def withHeap (p : FnPtr) : FsMount where
  toInitrd :=
    { withArchive smallArchive with
      fs := { emptyRegistries.fs with
        node := fun _ => { devNode with readdir := p, finddir := p } } }
  fsRoot := 0
  write := fun _ => p
  ioctl := fun _ => p
  stored := fun _ _ => false

theorem boot_withHeap (p : FnPtr) : (withHeap p).Boot := ⟨rfl, rfl, rfl⟩

theorem file_not_mem_nodes :
    ∀ i < numTarfiles, sampleAllocs.file i ∉ sampleMountAllocs.nodes := by decide +kernel

theorem fresh_sampleMountAllocs (p : FnPtr) : sampleMountAllocs.Fresh (withHeap p).fs where
  nodup := by decide +kernel
  ne_zero := by simp [sampleMountAllocs, MountAllocs.nodes, MountAllocs.devices]
  link_nodup := by decide +kernel
  link_ne_zero := by simp [sampleMountAllocs, MountAllocs.links]
  link_free := fun _ _ => rfl
  tar :=
    { fresh_sampleAllocs with
      file_ne_logged := fun i hi _ ha heq => file_not_mem_nodes i hi (heq ▸ ha)
      root_ne_logged := by
        simp [sampleMountAllocs, MountAllocs.nodes, MountAllocs.devices, sampleAllocs] }
  tarLink_ne := by decide +kernel
  rootLink_ne := by decide +kernel

theorem exists_mount_withHeap (p : FnPtr) :
    ∃ t, (withHeap p).mount sampleMountAllocs 0x1000 0x1800 = some t ∧
      ∀ i, 1 ≤ i → i < t.files.tarfsFiles → t.RegularAt i :=
  (boot_withHeap p).exists_mount (fresh_sampleMountAllocs p) archiveAt_smallArchive (by decide)
    regular_smallArchive

end FsMount

/-- The memory for the devices happens to have NULL. -/
theorem mount_dispatchOk_null : ∃ t,
    (FsMount.withHeap .null).mount FsMount.sampleMountAllocs 0x1000 0x1800 = some t ∧
      t.DispatchOk := by
  obtain ⟨t, ht, hregular⟩ := FsMount.exists_mount_withHeap .null
  exact ⟨t, ht, (mount_dispatchOk_iff _ t _ _ _ (FsMount.boot_withHeap _)
    (FsMount.fresh_sampleMountAllocs _) ht hregular).mpr fun _ _ => ⟨rfl, rfl⟩⟩

/-- In any other memory, `readdir_fs` of a device calls what nobody has stored. -/
theorem not_mount_dispatchOk_unset : (FsMount.withHeap .unset).Boot ∧
    FsMount.sampleMountAllocs.Fresh (FsMount.withHeap .unset).fs ∧
    ∃ t, (FsMount.withHeap .unset).mount FsMount.sampleMountAllocs 0x1000 0x1800 = some t ∧
      (∀ i, 1 ≤ i → i < t.files.tarfsFiles → t.RegularAt i) ∧ ¬ t.DispatchOk := by
  have hs := FsMount.boot_withHeap .unset
  have hal := FsMount.fresh_sampleMountAllocs .unset
  obtain ⟨t, ht, hregular⟩ := FsMount.exists_mount_withHeap .unset
  obtain ⟨rs, ds, ns, h⟩ := hs.mount hal ht hregular
  have hx : (FsMount.sampleMountAllocs.com, comName) ∈ FsMount.sampleMountAllocs.named :=
    List.mem_cons_self
  refine ⟨hs, hal, t, ht, hregular, fun hok => ?_⟩
  exact absurd (h.null_of_dispatchOk hal.ne_zero hok hx).1 (by simp [FsMount.withHeap])

end PiggyOS
