import PiggyOS.Fs.InitrdFrame
import PiggyOS.Fs.Vfs

/-!
# Setting the file systems up (`vfs_init`, `devfs_init`, `tarfs_init`)

The nodes are made in memory from the heap that may hold anything. Every constructor stores some of
the seven function pointers of its node and leaves the others as they are; which ones it has stored
is kept apart.

* `FsMount.DevSetup.deviceCreate` — what the constructor of a device does
* `FsMount.Boot.devfsInit` — the file systems before the initial ramdisk
* `FsMount.Boot.mount` — the file systems with it
-/

namespace PiggyOS

open Infra

/-- The function pointers of `fs_node_t`. -/
inductive FsOp
  | openFs
  | closeFs
  | readFs
  | writeFs
  | readdirFs
  | finddirFs
  | ioctlFs
  deriving DecidableEq, Repr

/-- `FS_CHARDEVICE` -/
def fsChardevice : U32 := 3

/-- The file systems with `fs_root`, and the pointers `write` and `ioctl` of the nodes. `stored` is
bookkeeping: the pointers of a node that its constructor has stored. -/
structure FsMount extends Initrd where
  fsRoot : U32
  write : U32 → FnPtr
  ioctl : U32 → FnPtr
  stored : U32 → FsOp → Bool

/-- The addresses that the heap answers with: for the nodes, and for the list nodes of those that
are registered. -/
structure MountAllocs where
  rootfs : U32
  devfs : U32
  devfsLink : U32
  com : U32
  comLink : U32
  null : U32
  nullLink : U32
  port : U32
  portLink : U32
  rand : U32
  randLink : U32
  tar : TarAllocs

namespace MountAllocs

variable (al : MountAllocs)

/-- The nodes of the devices, in the order of their registration. -/
def devices : List U32 := [al.com, al.null, al.port, al.rand]

/-- The nodes that are made before `tarfs_init`. -/
def nodes : List U32 := al.rootfs :: al.devfs :: al.devices

/-- The list nodes that are made before `tarfs_init`. -/
def links : List U32 := [al.devfsLink, al.comLink, al.nullLink, al.portLink, al.randLink]

end MountAllocs

/-- A string that is written out. -/
def chars (cs : List (BitVec 8)) : Chars := fun i => cs.getD i 0

/-- `dev` -/
def devName : List (BitVec 8) := [0x64, 0x65, 0x76]

/-- `com0` -/
def comName : List (BitVec 8) := [0x63, 0x6f, 0x6d, 0x30]

/-- `null` -/
def nullName : List (BitVec 8) := [0x6e, 0x75, 0x6c, 0x6c]

/-- `port` -/
def portName : List (BitVec 8) := [0x70, 0x6f, 0x72, 0x74]

/-- `rand` -/
def randName : List (BitVec 8) := [0x72, 0x61, 0x6e, 0x64]

/-- A constructor that stores all pointers. -/
def allOps : FsOp → Bool := fun _ => true

/-- What the constructors of the devices store. -/
def deviceOps : FsOp → Bool
  | .readdirFs | .finddirFs => false
  | _ => true

namespace FsMount

variable (s : FsMount)

/-- The stores of a constructor to the node at `a`. -/
def store (a : U32) (n : FsNode) (write ioctl : FnPtr) (ops : FsOp → Bool) : FsMount :=
  { s with
    toInitrd := s.toInitrd.setNode a n
    write := Function.update s.write a write
    ioctl := Function.update s.ioctl a ioctl
    stored := Function.update s.stored a ops }

/-- `rootfs_init`; the node is made by `kcalloc`. -/
def rootfsInit (a : U32) : FsMount :=
  let s := s.store a rootfsNode .null .null allOps
  { s with fs := { s.fs with root := { s.fs.root with nodes := listCreate } } }

/-- `vfs_init` -/
def vfsInit (a : U32) : FsMount := { s.rootfsInit a with fsRoot := a }

/-- The node of a device; its length is set for one of them, and `readdir` and `finddir` for
none. -/
def deviceNode (old : FsNode) (name : Chars) (length : Option U32) : FsNode :=
  { old with
    name := name
    flags := fsChardevice
    length := length.getD old.length
    inode := 0
    openFn := .null
    close := .null
    read := .device }

/-- The constructor of a device: `name` and, for one of them, `length` are its own. -/
def deviceCreate (cs : List (BitVec 8)) (length : Option U32) (a t : U32) : Option FsMount :=
  (strcpy (s.fs.node a).name (chars cs)).bind fun name =>
    let s := s.store a (deviceNode (s.fs.node a) name length) .device .null deviceOps
    (s.fs.devfsRegister a t).map fun fs => { s with fs := fs }

/-- `com_device_create` -/
def comDeviceCreate (a t : U32) : Option FsMount := s.deviceCreate comName none a t

/-- `null_device_create` -/
def nullDeviceCreate (a t : U32) : Option FsMount := s.deviceCreate nullName none a t

/-- `port_device_create` -/
def portDeviceCreate (a t : U32) : Option FsMount := s.deviceCreate portName none a t

/-- `random_device_create` -/
def randomDeviceCreate (a t : U32) : Option FsMount := s.deviceCreate randName (some 1024) a t

/-- The node of the directory `dev`; its length is not set. -/
def devfsNode (old : FsNode) (name : Chars) : FsNode :=
  { old with
    name := name
    flags := fsDirectory ||| fsMountpoint
    inode := 0
    openFn := .null
    close := .null
    read := .null
    readdir := .devfsReaddir
    finddir := .devfsFinddir }

/-- `devfs_init` up to the devices. -/
def devfsCreate (a t : U32) : Option FsMount :=
  (strcpy (s.fs.node a).name (chars devName)).bind fun name =>
    let s := s.store a (devfsNode (s.fs.node a) name) .null .null allOps
    (s.fs.fsRegister a t).map fun fs =>
      { s with fs := { fs with dev := { fs.dev with nodes := listCreate } } }

/-- `devfs_init` -/
def devfsInit (al : MountAllocs) : Option FsMount := do
  let s ← s.devfsCreate al.devfs al.devfsLink
  let s ← s.comDeviceCreate al.com al.comLink
  let s ← s.nullDeviceCreate al.null al.nullLink
  let s ← s.portDeviceCreate al.port al.portLink
  s.randomDeviceCreate al.rand al.randLink

/-- The nodes that `tarfs_init` makes, when it has found the headers of `r`. -/
def tarNodes (al : TarAllocs) (r : Initrd) : List U32 :=
  al.root :: ((List.range' 1 (r.files.tarfsFiles - 1)).filter
    (fun i => r.mem (r.files.headers i + 156) = regtype)).map al.file

/-- `tarfs_init`; both kinds of nodes get all their pointers. -/
def tarfsInit (al : TarAllocs) (start endAddr : U32) : Option FsMount :=
  (s.toInitrd.tarfsInit al start endAddr).map fun r =>
    { s with
      toInitrd := r
      write := fun a => if (tarNodes al r).contains a then .null else s.write a
      ioctl := fun a => if (tarNodes al r).contains a then .null else s.ioctl a
      stored := fun a => if (tarNodes al r).contains a then allOps else s.stored a }

/-- The three calls in `kernel.c`. -/
def mount (al : MountAllocs) (start endAddr : U32) : Option FsMount :=
  ((s.vfsInit al.rootfs).devfsInit al).bind fun s => s.tarfsInit al.tar start endAddr

end FsMount

/-! ## Registering -/

namespace FsState

variable {s fs : FsState} {a t : U32}

/-- The first registration in the root directory. -/
theorem fsRegister_first {cs : List (BitVec 8)} (h : s.root.Holds s.heap s.node [] [])
    (ha : Named s.node a cs) (hfree : s.heap.live t = false) (ht0 : t ≠ 0) :
    ∃ fs, s.fsRegister a t = some fs ∧ fs.root.Holds fs.heap fs.node [t] [a] ∧ fs.dev = s.dev ∧
      fs.rootFiles = s.rootFiles + 1 := by
  have hnone : ∀ d ∈ ([] : List U32), ¬ Named s.node (s.heap.value d) cs :=
    fun d hd => absurd hd List.not_mem_nil
  have hreg : s.fsRegister a t = some
      { s with
        heap := (listInsertFront s.heap s.root.nodes a t).nodes
        root := ⟨(listInsertFront s.heap s.root.nodes a t).list, 0⟩
        rootFiles := s.rootFiles + 1 } := by
    rw [FsState.fsRegister, h.register_new ha hnone t]
    rfl
  exact ⟨_, hreg, h.insert ha hnone hfree ht0, rfl, rfl⟩

end FsState

/-- Nodes that are registered keep their names. -/
theorem RegistryRun.Rep.rename {fs : FsState} {rootLog devLog rs ds : List U32}
    {node : U32 → FsNode} (h : RegistryRun.Rep ⟨fs, rootLog, devLog⟩ rs ds)
    (hkept : ∀ a ∈ rootLog ++ devLog, node a = fs.node a) :
    RegistryRun.Rep ⟨{ fs with node := node }, rootLog, devLog⟩ rs ds where
  root := h.root.rename fun a ha _ hcs => hcs.congr (hkept a (List.mem_append_left _ ha))
  dev := h.dev.rename fun a ha _ hcs => hcs.congr (hkept a (List.mem_append_right _ ha))
  disjoint := h.disjoint
  rootFiles := h.rootFiles

/-! ## The devices -/

namespace FsMount

/-- Before `vfs_init`: the locks are free and no node is counted. -/
structure Boot (s : FsMount) : Prop where
  rootLock : s.fs.root.lock = 0
  devLock : s.fs.dev.lock = 0
  rootFiles : s.fs.rootFiles = 0

end FsMount

namespace MountAllocs

/-- The devices and their names. -/
def named (al : MountAllocs) : List (U32 × List (BitVec 8)) :=
  [(al.com, comName), (al.null, nullName), (al.port, portName), (al.rand, randName)]

/-- The heap answers with memory that is not in use. -/
structure Fresh (al : MountAllocs) (s : FsState) : Prop where
  nodup : al.nodes.Nodup
  ne_zero : ∀ a ∈ al.nodes, a ≠ 0
  link_nodup : al.links.Nodup
  link_ne_zero : ∀ t ∈ al.links, t ≠ 0
  link_free : ∀ t ∈ al.links, s.heap.live t = false
  tar : al.tar.Fresh s al.nodes
  tarLink_ne : ∀ i < numTarfiles, al.tar.link i ∉ al.links
  rootLink_ne : al.tar.rootLink ∉ al.links

end MountAllocs

namespace FsMount

/-- The node of a device; two of its pointers are what the memory held in `old`. -/
structure IsDevice (s : FsMount) (old : U32 → FsNode) (a : U32) (cs : List (BitVec 8)) : Prop where
  name : Named s.fs.node a cs
  flags : (s.fs.node a).flags = fsChardevice
  readdir : (s.fs.node a).readdir = (old a).readdir
  finddir : (s.fs.node a).finddir = (old a).finddir
  stored : s.stored a = deviceOps

/-- After `vfs_init` and a part of `devfs_init`: the devices `xs` have been made with their names,
and the list nodes `used` may have been taken. -/
structure DevSetup (s₀ : FsMount) (al : MountAllocs) (xs : List (U32 × List (BitVec 8)))
    (used rs ds : List U32) (s : FsMount) : Prop where
  mem : s.mem = s₀.mem
  rep : RegistryRun.Rep ⟨s.fs, [al.devfs], xs.map Prod.fst⟩ rs ds
  fsRoot : s.fsRoot = al.rootfs
  root : s.fs.node al.rootfs = rootfsNode ∧ s.stored al.rootfs = allOps
  devfs : (∃ name old, s.fs.node al.devfs = devfsNode old name ∧ IsString name devName) ∧
    s.stored al.devfs = allOps
  devices : ∀ x ∈ xs, s.IsDevice s₀.fs.node x.1 x.2
  others : ∀ a, a ∉ al.rootfs :: al.devfs :: xs.map Prod.fst → s.fs.node a = s₀.fs.node a
  live : ∀ t, t ∉ used → s.fs.heap.live t = s₀.fs.heap.live t

variable {s s₀ s' : FsMount} {al : MountAllocs} {xs : List (U32 × List (BitVec 8))}
  {used rs ds : List U32} {a b t : U32} {cs : List (BitVec 8)}

theorem IsDevice.congr {old : U32 → FsNode} (h : s.IsDevice old a cs)
    (hnode : s'.fs.node a = s.fs.node a) (hstored : s'.stored a = s.stored a) :
    s'.IsDevice old a cs where
  name := h.name.congr hnode
  flags := hnode ▸ h.flags
  readdir := hnode ▸ h.readdir
  finddir := hnode ▸ h.finddir
  stored := hstored ▸ h.stored

theorem IsDevice.of_deviceNode {old : U32 → FsNode} {name : Chars} {length : Option U32}
    (hnode : s.fs.node a = deviceNode (old a) name length) (hstr : IsString name cs)
    (hstored : s.stored a = deviceOps) : s.IsDevice old a cs := by
  refine ⟨?_, ?_, ?_, ?_, hstored⟩
  · unfold Named
    rw [hnode]
    exact hstr
  · rw [hnode]
    rfl
  · rw [hnode]
    rfl
  · rw [hnode]
    rfl

theorem isString_chars (h0 : 0 ∉ cs) (hfits : cs.length < addresses) : IsString (chars cs) cs :=
  isString_getD h0 hfits

/-- One device more: nothing else has changed. -/
theorem DevSetup.append (h : DevSetup s₀ al xs used rs ds s)
    (ha : a ∉ al.rootfs :: al.devfs :: xs.map Prod.fst) {ds' : List U32}
    (hrep : RegistryRun.Rep ⟨s'.fs, [al.devfs], (xs ++ [(a, cs)]).map Prod.fst⟩ rs ds')
    (hmem : s'.mem = s.mem) (hfsRoot : s'.fsRoot = s.fsRoot)
    (hnode : ∀ b, b ≠ a → s'.fs.node b = s.fs.node b)
    (hstored : ∀ b, b ≠ a → s'.stored b = s.stored b) (hdevice : s'.IsDevice s₀.fs.node a cs)
    (hlive : ∀ x, x ≠ t → s'.fs.heap.live x = s.fs.heap.live x) :
    DevSetup s₀ al (xs ++ [(a, cs)]) (t :: used) rs ds' s' := by
  have hne : ∀ b, b ∈ al.rootfs :: al.devfs :: xs.map Prod.fst → b ≠ a := by
    rintro b hb rfl
    exact ha hb
  have hroot := hne al.rootfs List.mem_cons_self
  have hdevfs := hne al.devfs (List.mem_cons_of_mem _ List.mem_cons_self)
  refine ⟨hmem.trans h.mem, hrep, hfsRoot.trans h.fsRoot, ⟨?_, ?_⟩, ⟨?_, ?_⟩, ?_, ?_, ?_⟩
  · exact (hnode _ hroot).trans h.root.1
  · exact (hstored _ hroot).trans h.root.2
  · obtain ⟨name, old, hold, hname⟩ := h.devfs.1
    exact ⟨name, old, (hnode _ hdevfs).trans hold, hname⟩
  · exact (hstored _ hdevfs).trans h.devfs.2
  · intro x hx
    rcases List.mem_append.mp hx with hx | hx
    · have hxa : x.1 ≠ a := hne x.1 (by simp [List.mem_map_of_mem hx])
      exact (h.devices x hx).congr (hnode _ hxa) (hstored _ hxa)
    · obtain rfl := List.mem_singleton.mp hx
      exact hdevice
  · intro b hb
    rw [List.map_append, ← List.cons_append, ← List.cons_append, List.mem_append] at hb
    obtain ⟨hb, hba⟩ := not_or.mp hb
    exact (hnode b (by simpa using hba)).trans (h.others b hb)
  · intro x hx
    rw [List.mem_cons, not_or] at hx
    exact (hlive x hx.1).trans (h.live x hx.2)

/-- The constructor of a device. -/
theorem DevSetup.deviceCreate (h : DevSetup s₀ al xs used rs ds s)
    (ha : a ∉ al.rootfs :: al.devfs :: xs.map Prod.fst) (ht : t ∉ used)
    (hfree : s₀.fs.heap.live t = false) (ht0 : t ≠ 0) (hcs : IsString (chars cs) cs)
    (length : Option U32) :
    ∃ s' ds', s.deviceCreate cs length a t = some s' ∧
      DevSetup s₀ al (xs ++ [(a, cs)]) (t :: used) rs ds' s' := by
  obtain ⟨name, hname, hstr⟩ := hcs.strcpy (s.fs.node a).name
  obtain ⟨n, hn⟩ : ∃ n, n = deviceNode (s.fs.node a) name length := ⟨_, rfl⟩
  have hrep : RegistryRun.Rep
      ⟨{ s.fs with node := Function.update s.fs.node a n }, [al.devfs], xs.map Prod.fst⟩ rs ds := by
    refine h.rep.rename fun b hb => Function.update_of_ne ?_ ..
    rintro rfl
    exact ha (List.mem_cons_of_mem _ hb)
  have hnamed : Named (Function.update s.fs.node a n) a cs := by
    unfold Named
    rw [Function.update_self, hn]
    exact hstr
  obtain ⟨fs, hfs⟩ := Option.ne_none_iff_exists'.mp (hrep.ok.registers a cs t hnamed).2
  have hlive : s.fs.heap.live t = false := (h.live t ht).trans hfree
  obtain ⟨ds', hrep'⟩ := hrep.devfsRegister hnamed hlive ht0 hfs
  obtain ⟨hnode, -, hframe⟩ := FsState.devfsRegister_frame hfs
  have hself : fs.node a = deviceNode (s₀.fs.node a) name length := by
    rw [hnode, ← h.others a ha]
    exact (Function.update_self ..).trans hn
  refine ⟨{ s.store a n .device .null deviceOps with fs := fs }, ds', ?_, ?_⟩
  · rw [FsMount.deviceCreate, hname, Option.bind_some]
    dsimp only
    rw [← hn]
    exact congrArg (Option.map _) hfs
  · refine h.append ha ?_ rfl rfl (fun b hb => ?_) (fun b hb => Function.update_of_ne hb ..) ?_
      hframe
    · rw [List.map_append]
      exact hrep'
    · exact (congrFun hnode b).trans (Function.update_of_ne hb ..)
    · exact .of_deviceNode hself hstr (Function.update_self ..)

/-- The registries after the first node: the list of the devices is made behind it. -/
theorem Boot.registered (h : s₀.Boot) {n : FsNode} {w i : FnPtr} (ops : FsOp → Bool)
    (hname : IsString n.name devName) (hfree : s₀.fs.heap.live t = false) (ht0 : t ≠ 0) :
    ∃ fs, ((s₀.vfsInit b).store a n w i ops).fs.fsRegister a t = some fs ∧
      RegistryRun.Rep ⟨{ fs with dev := { fs.dev with nodes := listCreate } }, [a], []⟩ [t] [] := by
  have hnamed : Named (Function.update (s₀.vfsInit b).fs.node a n) a devName := by
    unfold Named
    rw [Function.update_self]
    exact hname
  obtain ⟨fs, hfs, hholds, hdev, hcount⟩ := FsState.fsRegister_first
    (s := ((s₀.vfsInit b).store a n w i ops).fs) ⟨h.rootLock, represents_listCreate _, .nil⟩ hnamed
    hfree ht0
  refine ⟨fs, hfs, hholds, ⟨?_, represents_listCreate _, .nil⟩, List.disjoint_nil_right _, ?_⟩
  · show fs.dev.lock = 0
    rw [hdev]
    exact h.devLock
  · have hone : fs.rootFiles = s₀.fs.rootFiles + 1 := hcount
    show fs.rootFiles.toNat = 1
    rw [hone, h.rootFiles]
    rfl

/-- After `vfs_init`, the directory `dev` is made and registered. -/
theorem Boot.devfsCreate (h : s₀.Boot) (hne : al.rootfs ≠ al.devfs)
    (hfree : s₀.fs.heap.live al.devfsLink = false) (ht0 : al.devfsLink ≠ 0) :
    ∃ s', (s₀.vfsInit al.rootfs).devfsCreate al.devfs al.devfsLink = some s' ∧
      DevSetup s₀ al [] [al.devfsLink] [al.devfsLink] [] s' := by
  have hdev : IsString (chars devName) devName := isString_chars (by simp [devName]) (by decide)
  obtain ⟨name, hname, hstr⟩ := hdev.strcpy ((s₀.vfsInit al.rootfs).fs.node al.devfs).name
  obtain ⟨old, hold⟩ : ∃ old, (s₀.vfsInit al.rootfs).fs.node al.devfs = old := ⟨_, rfl⟩
  rw [hold] at hname
  obtain ⟨fs, hfs, hrep⟩ := h.registered (b := al.rootfs) (a := al.devfs)
    (n := devfsNode old name) (w := .null) (i := .null) allOps hstr hfree ht0
  obtain ⟨hkept, -, hframe⟩ := FsState.fsRegister_frame hfs
  have hnode : fs.node = Function.update (Function.update s₀.fs.node al.rootfs rootfsNode)
      al.devfs (devfsNode old name) := hkept
  refine ⟨{ (s₀.vfsInit al.rootfs).store al.devfs (devfsNode old name) .null .null allOps with
      fs := { fs with dev := { fs.dev with nodes := listCreate } } }, ?_, ?_⟩
  · rw [FsMount.devfsCreate, hold, hname, Option.bind_some]
    dsimp only
    rw [hfs]
    rfl
  · refine ⟨rfl, hrep, rfl, ⟨?_, ?_⟩, ⟨⟨name, old, ?_, hstr⟩, Function.update_self ..⟩,
      fun x hx => absurd hx List.not_mem_nil, fun a ha => ?_, fun x hx => ?_⟩
    · show fs.node al.rootfs = rootfsNode
      rw [hnode, Function.update_of_ne hne, Function.update_self]
    · exact (Function.update_of_ne hne ..).trans (Function.update_self ..)
    · show fs.node al.devfs = devfsNode old name
      rw [hnode, Function.update_self]
    · obtain ⟨har, ha⟩ := not_or.mp (mt List.mem_cons.mpr ha)
      have had : a ≠ al.devfs := by simpa using ha
      show fs.node a = s₀.fs.node a
      rw [hnode, Function.update_of_ne had, Function.update_of_ne har]
    · exact hframe x (by simpa using hx)

/-- Before the initial ramdisk, the directories `/` and `dev` and the four devices are there. -/
theorem Boot.devfsInit (h : s₀.Boot) (hal : al.Fresh s₀.fs) :
    ∃ s' ds, (s₀.vfsInit al.rootfs).devfsInit al = some s' ∧
      DevSetup s₀ al al.named al.links.reverse [al.devfsLink] ds s' := by
  have hnodes := hal.nodup
  have hlinks := hal.link_nodup
  simp only [MountAllocs.nodes, MountAllocs.devices, List.nodup_cons, List.mem_cons,
    List.not_mem_nil, or_false, not_or] at hnodes
  simp only [MountAllocs.links, List.nodup_cons, List.mem_cons, List.not_mem_nil, or_false,
    not_or] at hlinks
  have hfree := hal.link_free
  have hzero := hal.link_ne_zero
  simp only [MountAllocs.links, List.forall_mem_cons] at hfree hzero
  obtain ⟨hfreeDevfs, hfreeCom, hfreeNull, hfreePort, hfreeRand, -⟩ := hfree
  obtain ⟨hzeroDevfs, hzeroCom, hzeroNull, hzeroPort, hzeroRand, -⟩ := hzero
  have hstr : ∀ cs, 0 ∉ cs → cs.length < 5 → IsString (chars cs) cs := fun cs h0 hlen =>
    isString_chars h0 (by unfold addresses; omega)
  obtain ⟨s₁, hs₁, h₁⟩ := h.devfsCreate hnodes.1.1 hfreeDevfs hzeroDevfs
  obtain ⟨s₂, ds₂, hs₂, h₂⟩ := h₁.deviceCreate (a := al.com) (by simp; grind) (by simp; grind)
    hfreeCom hzeroCom (hstr comName (by simp [comName]) (by simp [comName])) none
  obtain ⟨s₃, ds₃, hs₃, h₃⟩ := h₂.deviceCreate (a := al.null) (by simp; grind) (by simp; grind)
    hfreeNull hzeroNull (hstr nullName (by simp [nullName]) (by simp [nullName])) none
  obtain ⟨s₄, ds₄, hs₄, h₄⟩ := h₃.deviceCreate (a := al.port) (by simp; grind) (by simp; grind)
    hfreePort hzeroPort (hstr portName (by simp [portName]) (by simp [portName])) none
  obtain ⟨s₅, ds₅, hs₅, h₅⟩ := h₄.deviceCreate (a := al.rand) (by simp; grind) (by simp; grind)
    hfreeRand hzeroRand (hstr randName (by simp [randName]) (by simp [randName])) (some 1024)
  refine ⟨s₅, ds₅, ?_, h₅⟩
  rw [FsMount.devfsInit, hs₁]
  show (s₁.comDeviceCreate al.com al.comLink).bind _ = _
  rw [comDeviceCreate, hs₂]
  show (s₂.nullDeviceCreate al.null al.nullLink).bind _ = _
  rw [nullDeviceCreate, hs₃]
  show (s₃.portDeviceCreate al.port al.portLink).bind _ = _
  rw [portDeviceCreate, hs₄]
  exact hs₅

/-! ## The initial ramdisk -/

/-- Everything is there: the directories `/`, `dev` and `initrd`, whose list nodes are `rs`, `ds`
and `ns`, the devices, and the files. -/
structure Complete (s₀ : FsMount) (al : MountAllocs) (rs ds ns : List U32) (t : FsMount) :
    Prop where
  rep : RegistryRun.Rep ⟨t.fs, [al.devfs, al.tar.root], al.devices⟩ rs ds
  list : Represents t.fs.heap (t.fs.dirs (t.fs.node al.tar.root).inode) ns
  fsRoot : t.fsRoot = al.rootfs
  root : t.fs.node al.rootfs = rootfsNode ∧ t.stored al.rootfs = allOps
  devfs : (∃ name old, t.fs.node al.devfs = devfsNode old name ∧ IsString name devName) ∧
    t.stored al.devfs = allOps
  devices : ∀ x ∈ al.named, t.IsDevice s₀.fs.node x.1 x.2
  tarRoot : ((t.fs.node al.tar.root).flags = fsDirectory ∧
    (t.fs.node al.tar.root).finddir = .tarfsFinddir) ∧ t.stored al.tar.root = allOps
  tarfsRoot : t.tarfsRoot = al.tar.root
  files : ∀ d ∈ ns, (∃ i name, t.fs.node (t.fs.heap.value d) = t.fileNode i name) ∧
    t.stored (t.fs.heap.value d) = allOps

/-- The list nodes for the archive have not been taken. -/
theorem DevSetup.fresh (h : DevSetup s₀ al xs al.links.reverse rs ds s) (hal : al.Fresh s₀.fs) :
    al.tar.Fresh s.fs al.nodes := by
  refine hal.tar.of_live (fun i hi => h.live _ ?_) (h.live _ ?_)
  · exact fun hm => hal.tarLink_ne i hi (List.mem_reverse.mp hm)
  · exact fun hm => hal.rootLink_ne (List.mem_reverse.mp hm)

/-- The nodes of the archive have addresses of their own. -/
theorem not_mem_tarNodes {tal : TarAllocs} {r : Initrd}
    (hfits : 1 + (r.files.tarfsFiles - 1) ≤ numTarfiles) (hroot : a ≠ tal.root)
    (hfile : ∀ i < numTarfiles, a ≠ tal.file i) : a ∉ tarNodes tal r := by
  intro ha
  rcases List.mem_cons.mp ha with rfl | ha
  · exact hroot rfl
  · obtain ⟨i, hi, rfl⟩ := List.mem_map.mp ha
    have hi := List.mem_range'_1.mp (List.mem_filter.mp hi).1
    exact hfile i (by omega) rfl

theorem mem_tarNodes {tal : TarAllocs} {r : Initrd} {i : Nat} (hpos : 1 ≤ i)
    (hi : i < 1 + (r.files.tarfsFiles - 1)) (hreg : r.RegularAt i) :
    tal.file i ∈ tarNodes tal r := by
  refine List.mem_cons_of_mem _ (List.mem_map_of_mem ?_)
  exact List.mem_filter.mpr ⟨List.mem_range'_1.mpr ⟨hpos, hi⟩, decide_eq_true hreg⟩

/-- **What `vfs_init`, `devfs_init` and `tarfs_init` set up** from an archive of regular files. -/
theorem Boot.mount {start endAddr : U32} {t : FsMount} (h : s₀.Boot) (hal : al.Fresh s₀.fs)
    (ht : s₀.mount al start endAddr = some t)
    (hregular : ∀ i, 1 ≤ i → i < t.files.tarfsFiles → t.RegularAt i) :
    ∃ rs ds ns, Complete s₀ al rs ds ns t := by
  obtain ⟨s₁, ds, hs₁, h₁⟩ := h.devfsInit hal
  rw [FsMount.mount, hs₁, Option.bind_some] at ht
  obtain ⟨r, hr, rfl⟩ := Option.map_eq_some_iff.mp ht
  have hregular : ∀ i, 1 ≤ i → i < r.files.tarfsFiles → r.RegularAt i := hregular
  have hfresh := h₁.fresh hal
  have hfresh' : al.tar.Fresh s₁.fs ([al.devfs] ++ al.devices) :=
    hfresh.mono fun a ha => List.mem_cons_of_mem _ ha
  obtain ⟨rs, name, hrep, hkeeps⟩ := Initrd.tarfsInit_rep h₁.rep hfresh' hr
  obtain ⟨-, -, hfits, ns, node, hlist, hfilled⟩ := Initrd.tarfsInit_filled h₁.rep.root
    (hfresh'.mono fun a ha => List.mem_append_left _ ha) hr
  -- `tarfs_init` leaves the nodes of the other file systems alone
  have hother : ∀ a ∈ al.nodes, r.fs.node a = s₁.fs.node a ∧ a ∉ tarNodes al.tar r := by
    intro a ha
    have hroot := hfresh.root_ne_logged a ha
    have hfile : ∀ i < numTarfiles, a ≠ al.tar.file i := fun i hi =>
      hfresh.file_ne_logged i hi a ha
    exact ⟨hkeeps.others a hroot hfile, not_mem_tarNodes hfits hroot hfile⟩
  have hstored : ∀ a ∈ al.nodes,
      (if (tarNodes al.tar r).contains a then allOps else s₁.stored a) = s₁.stored a :=
    fun a ha => if_neg (by simpa using (hother a ha).2)
  have hrootfs : al.rootfs ∈ al.nodes := List.mem_cons_self
  have hdevfs : al.devfs ∈ al.nodes := List.mem_cons_of_mem _ List.mem_cons_self
  have hvs := hfilled.regular fun j hj hlt => hregular j hj (by omega)
  refine ⟨rs, ds, ns, hrep, ?_, h₁.fsRoot, ⟨?_, ?_⟩, ⟨?_, ?_⟩, fun x hx => ?_, ⟨⟨?_, ?_⟩, ?_⟩,
    hkeeps.tarfsRoot, fun d hd => ?_⟩
  · rw [hkeeps.tarfsRoot] at hlist
    exact hlist
  · exact (hother _ hrootfs).1.trans h₁.root.1
  · exact (hstored _ hrootfs).trans h₁.root.2
  · obtain ⟨devname, old, hold, hname⟩ := h₁.devfs.1
    exact ⟨devname, old, (hother _ hdevfs).1.trans hold, hname⟩
  · exact (hstored _ hdevfs).trans h₁.devfs.2
  · have hx' : x.1 ∈ al.nodes :=
      List.mem_cons_of_mem _ (List.mem_cons_of_mem _ (List.mem_map_of_mem hx))
    exact (h₁.devices x hx).congr (hother _ hx').1 (hstored _ hx')
  · exact congrArg FsNode.flags hkeeps.root
  · exact congrArg FsNode.finddir hkeeps.root
  · exact if_pos (List.contains_iff_mem.mpr List.mem_cons_self)
  · -- a file of the archive, whose node is one of `tarfs_init`
    have hvalue : r.fs.heap.value d ∈ r.values ns := List.mem_map_of_mem hd
    rw [hvs, List.mem_reverse, List.mem_map] at hvalue
    obtain ⟨i, hi, hfile⟩ := hvalue
    obtain ⟨hpos, hi⟩ := List.mem_range'_1.mp hi
    have hi : i < 1 + (r.files.tarfsFiles - 1) := by omega
    have hreg := hregular i hpos (by omega)
    obtain ⟨name, hnode⟩ := hkeeps.files i hpos (by omega) hreg
    show (∃ i name, r.fs.node (r.fs.heap.value d) = r.fileNode i name) ∧
      (if (tarNodes al.tar r).contains (r.fs.heap.value d) then allOps else _) = allOps
    rw [← hfile, if_pos (List.contains_iff_mem.mpr (mem_tarNodes hpos hi hreg))]
    exact ⟨⟨i, name, hnode⟩, rfl⟩

/-- An archive of regular files is mounted. -/
theorem Boot.exists_mount {start endAddr : U32} {es : List TarEntry} (h : s₀.Boot)
    (hal : al.Fresh s₀.fs) (hat : ArchiveAt s₀.mem start endAddr es)
    (hfew : es.length ≤ numTarfiles) (hreg : ∀ e ∈ es.tail, e.Regular) :
    ∃ t, s₀.mount al start endAddr = some t ∧
      ∀ i, 1 ≤ i → i < t.files.tarfsFiles → t.RegularAt i := by
  obtain ⟨s₁, ds, hs₁, h₁⟩ := h.devfsInit hal
  have hat₁ : ArchiveAt s₁.mem start endAddr es := h₁.mem.symm ▸ hat
  have hfresh := (h₁.fresh hal).mono fun a ha =>
    List.mem_cons_of_mem _ (List.mem_singleton.mp ha ▸ List.mem_cons_self)
  obtain ⟨r, -, hr, hmem, -⟩ := Initrd.exists_mounted h₁.rep.root hfresh hat₁ hfew hreg
  obtain ⟨-, hparse, -⟩ := Initrd.tarfsInit_filled h₁.rep.root hfresh hr
  obtain ⟨hcount, htypes⟩ := Initrd.typeflag_of_archive hat₁ hfew hparse
  obtain ⟨t, ht, rfl⟩ : ∃ t, s₁.tarfsInit al.tar start endAddr = some t ∧ t.toInitrd = r :=
    ⟨_, Option.map_eq_some_iff.mpr ⟨r, hr, rfl⟩, rfl⟩
  refine ⟨t, ?_, fun i hpos hi => ?_⟩
  · rw [FsMount.mount, hs₁]
    exact ht
  · rw [hcount] at hi
    have htail : es.tail[i - 1]? = some es[i] := by
      rw [List.getElem?_tail, Nat.sub_add_cancel hpos, List.getElem?_eq_getElem hi]
    unfold Initrd.RegularAt
    rw [hmem, htypes i es[i] (List.getElem?_eq_getElem hi)]
    exact (hreg _ (List.mem_of_getElem? htail)).typeflag

end FsMount

end PiggyOS
