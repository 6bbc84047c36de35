import Mathlib.Data.List.Find
import Mathlib.Data.List.TakeWhile
import PiggyOS.Fs.Registry
import PiggyOS.Fs.Tar

/-!
# The initial ramdisk (`tarfs.c`)

`tarfs_init` makes a node for every file of the archive after the first one and puts it in front of
the list of the directory `initrd`. The name of a node is what `strcpy` copies from the header: a
name that fills its field runs on into the mode.
-/

namespace PiggyOS

open Infra

/-- `REGTYPE` -/
def regtype : BitVec 8 := 0x30

/-- The size of `name` in `fs_node_t`. -/
def nodeNameSize : Nat := 128

/-- The memory with the archive, the file systems, and the variables of `tarfs.c`. -/
structure Initrd where
  mem : Mem
  fs : FsState
  files : TarFiles
  tarfsRoot : U32

/-- The addresses that the heap answers with in `tarfs_init`: for the root node and its list, for
the nodes of the files and their list nodes, and for the list node of the root node. -/
structure TarAllocs where
  root : U32
  dir : U32
  file : Nat → U32
  link : Nat → U32
  rootLink : U32

/-- `strcpy` to the field `name` of a node; a store behind the field has no result. -/
def copyName (name src : Chars) : Option Chars :=
  (strlen src).bind fun len => if len < nodeNameSize then strcpy name src else none

namespace Initrd

variable (s : Initrd) (al : TarAllocs)

def setNode (a : U32) (n : FsNode) : Initrd :=
  { s with fs := { s.fs with node := Function.update s.fs.node a n } }

def setDir (a : U32) (l : ListT) : Initrd :=
  { s with fs := { s.fs with dirs := Function.update s.fs.dirs a l } }

/-- The node that `tarfs_init` makes for the `i`-th header, with its name copied already. -/
def fileNode (i : Nat) (name : Chars) : FsNode where
  name := name
  flags := fsFile
  inode := BitVec.ofNat 32 i
  length := tarGetsize (charsAt s.mem (s.files.headers i + 124))
  openFn := .null
  close := .null
  read := .tarfsRead
  readdir := .null
  finddir := .null

/-- `list_insert_front((list_t*) tarfs_root->inode, node)` -/
def insertFile (node t : U32) : Initrd :=
  let dir := (s.fs.node s.tarfsRoot).inode
  let r := listInsertFront s.fs.heap (s.fs.dirs dir) node t
  { s with fs := { s.fs with heap := r.nodes } }.setDir dir r.list

/-- One round of the loop of `tarfs_init`, with the value of `node` before and after it. A header
of another type leaves `node` as it is. -/
def addHeader (i : Nat) (node : U32) : Option (Initrd × U32) :=
  let header := s.files.headers i
  let made :=
    if s.mem (header + 156) = regtype then
      (copyName (s.fs.node (al.file i)).name (charsAt s.mem header)).map fun name =>
        (s.setNode (al.file i) (s.fileNode i name), al.file i)
    else some (s, node)
  made.map fun x => (x.1.insertFile x.2 (al.link i), x.2)

/-- The loop of `tarfs_init` from `headers[i]` on, with `n` headers to go. -/
def addHeaders : Nat → Nat → Initrd → U32 → Option Initrd
  | 0, _, s, _ => some s
  | n + 1, i, s, node => (s.addHeader al i node).bind fun x => addHeaders n (i + 1) x.1 x.2

/-- The name `initrd`. -/
def initrdName : Chars := fun i => [0x69, 0x6e, 0x69, 0x74, 0x72, 0x64].getD i 0

/-- The node of the directory `initrd`; its length is not set. -/
def rootNode (name : Chars) : FsNode :=
  { s.fs.node al.root with
    name := name
    flags := fsDirectory
    inode := al.dir
    openFn := .null
    close := .null
    read := .null
    readdir := .tarfsReaddir
    finddir := .tarfsFinddir }

/-- `tarfs_init` -/
def tarfsInit (start endAddr : U32) : Option Initrd :=
  (tarParse s.mem s.files.headers start endAddr).bind fun files =>
    let s := { s with files := files, tarfsRoot := al.root }
    (strcpy (s.fs.node al.root).name initrdName).bind fun name =>
      let s := (s.setNode al.root (s.rootNode al name)).setDir al.dir listCreate
      (s.addHeaders al (s.files.tarfsFiles - 1) 1 0).bind fun s =>
        (s.fs.fsRegister s.tarfsRoot al.rootLink).map fun fs => { s with fs := fs }

end Initrd

/-- `tarfs_finddir`; `none` is a NULL name. -/
def FsState.tarfsFinddir (s : FsState) (node : U32) : Option Chars → Option U32
  | none => some 0
  | some name =>
    (findNode s.heap s.node (s.dirs (s.node node).inode) name).map (foundNode s.heap)

/-- `tarfs_read`; the memory afterwards and the value returned. -/
def Initrd.tarfsRead (s : Initrd) (node offset size buffer : U32) : Mem × U32 :=
  let fileSz := (s.fs.node node).length
  if fileSz < offset then (s.mem, 0)
  else
    let size := if fileSz < offset + size then fileSz - offset else size
    (s.mem.copy buffer (s.files.headers (s.fs.node node).inode.toNat + 512) size.toNat, size)

/-! ## Names in headers -/

namespace TarEntry

variable (e : TarEntry)

/-- The name of the file: the bytes of the field before the first NUL. -/
def fileName : List (BitVec 8) := e.name.takeWhile (· ≠ 0)

/-- The string at the start of the header. -/
def headerString : List (BitVec 8) := (e.name ++ e.mode).takeWhile (· ≠ 0)

/-- A regular file with a NUL in its mode field. -/
structure Regular : Prop where
  typeflag : e.typeflag = regtype
  mode_nul : 0 ∈ e.mode

/-- The name fills its field, and the mode is not the empty string. -/
def RunsOn : Prop := e.fileName.length = 100 ∧ e.mode.headD 0 ≠ 0

theorem length_fileName_le : e.fileName.length ≤ 100 := by
  rw [← e.length_name]
  exact (List.takeWhile_prefix _).length_le

theorem headerString_of_short (h : e.fileName.length ≠ 100) : e.headerString = e.fileName := by
  rw [headerString, List.takeWhile_append, e.length_name]
  exact if_neg h

theorem headerString_of_full (h : e.fileName.length = 100) :
    e.headerString = e.fileName ++ e.mode.takeWhile (· ≠ 0) := by
  have hname : e.fileName = e.name :=
    (List.takeWhile_prefix _).eq_of_length (h.trans e.length_name.symm)
  rw [hname, headerString, List.takeWhile_append, e.length_name]
  exact if_pos h

/-- What `strcpy` copies is the name of the file unless it runs on. -/
theorem headerString_of_not_runsOn (h : ¬ e.RunsOn) : e.headerString = e.fileName := by
  by_cases hfull : e.fileName.length = 100
  · have hmode : e.mode.headD 0 = 0 := not_not.mp fun h0 => h ⟨hfull, h0⟩
    rw [e.headerString_of_full hfull]
    cases hm : e.mode with
    | nil => simp
    | cons b bs =>
      rw [hm] at hmode
      rw [List.takeWhile_cons_of_neg (by simpa using hmode), List.append_nil]
  · exact e.headerString_of_short hfull

theorem lt_length_headerString (h : e.RunsOn) : 100 < e.headerString.length := by
  obtain ⟨hfull, hmode⟩ := h
  rw [e.headerString_of_full hfull, List.length_append, hfull]
  cases hm : e.mode with
  | nil =>
    rw [hm] at hmode
    exact absurd rfl hmode
  | cons b bs =>
    rw [hm] at hmode
    rw [List.takeWhile_cons_of_pos (by simpa using hmode), List.length_cons]
    omega

theorem length_headerString_le : e.headerString.length ≤ 108 := by
  refine Nat.le_trans (List.takeWhile_prefix _).length_le ?_
  rw [List.length_append, e.length_name, e.length_mode]

variable {e}

/-- The string that a header starts with in memory. -/
theorem Regular.isString {m : Mem} {a : U32} (h : e.Regular) (hm : m.Holds a e.bytes) :
    IsString (charsAt m a) e.headerString := by
  obtain ⟨hname, hmode, -, -⟩ := e.holds_fields (Mem.holds_append.mp hm).1
  refine isString_takeWhile ?_ (List.mem_append_right _ h.mode_nul) ?_
  · refine Mem.holds_append.mpr ⟨hname, ?_⟩
    rw [e.length_name]
    exact hmode
  · rw [List.length_append, e.length_name, e.length_mode]
    decide

theorem Regular.copyName {m : Mem} {a : U32} (h : e.Regular) (hm : m.Holds a e.bytes)
    (name : Chars) :
    ∃ str, copyName name (charsAt m a) = some str ∧ IsString str e.headerString := by
  have hstr := h.isString hm
  obtain ⟨str, hcopy, hname⟩ := hstr.strcpy name
  refine ⟨str, ?_, hname⟩
  have hlen := e.length_headerString_le
  rw [PiggyOS.copyName, hstr.strlen, Option.bind_some, if_pos (by unfold nodeNameSize; omega),
    hcopy]

end TarEntry

/-! ## Building the directory -/

theorem forall₂_imp_of_mem {A B : Type _} {P Q : A → B → Prop} {as : List A} {bs : List B}
    (h : List.Forall₂ P as bs) (hpq : ∀ a b, a ∈ as → b ∈ bs → P a b → Q a b) :
    List.Forall₂ Q as bs := by
  induction h with
  | nil => exact .nil
  | cons hab _ ih =>
    refine .cons (hpq _ _ List.mem_cons_self List.mem_cons_self hab) (ih fun a b ha hb => ?_)
    exact hpq a b (List.mem_cons_of_mem _ ha) (List.mem_cons_of_mem _ hb)

theorem exists_of_forall₂ {A B : Type _} {P : A → B → Prop} {as : List A} {bs : List B} {a : A}
    (h : List.Forall₂ P as bs) (ha : a ∈ as) : ∃ b ∈ bs, P a b := by
  induction h with
  | nil => exact absurd ha List.not_mem_nil
  | cons hab _ ih =>
    rcases List.mem_cons.mp ha with rfl | ha
    · exact ⟨_, List.mem_cons_self, hab⟩
    · obtain ⟨b, hb, hpb⟩ := ih ha
      exact ⟨b, List.mem_cons_of_mem _ hb, hpb⟩

/-- The node is the one for the `i`-th entry `e` of the archive. -/
structure IsFile (n : FsNode) (e : TarEntry) (i : Nat) : Prop where
  name : IsString n.name e.headerString
  inode : n.inode = BitVec.ofNat 32 i
  length : n.length = BitVec.ofNat 32 e.data.length

/-- The heap answers with memory that is not in use. -/
structure TarAllocs.Fresh (al : TarAllocs) (s : FsState) (log : List U32) : Prop where
  file_ne_zero : ∀ i < numTarfiles, al.file i ≠ 0
  file_inj : ∀ i < numTarfiles, ∀ j < numTarfiles, al.file i = al.file j → i = j
  file_ne_root : ∀ i < numTarfiles, al.root ≠ al.file i
  file_ne_logged : ∀ i < numTarfiles, ∀ a ∈ log, a ≠ al.file i
  root_ne_logged : ∀ a ∈ log, a ≠ al.root
  link_ne_zero : ∀ i < numTarfiles, al.link i ≠ 0
  link_inj : ∀ i < numTarfiles, ∀ j < numTarfiles, al.link i = al.link j → i = j
  link_ne_rootLink : ∀ i < numTarfiles, al.rootLink ≠ al.link i
  link_free : ∀ i < numTarfiles, s.heap.live (al.link i) = false
  rootLink_ne_zero : al.rootLink ≠ 0
  rootLink_free : s.heap.live al.rootLink = false

/-- The memory has not been in use for any of fewer nodes. -/
theorem TarAllocs.Fresh.mono {al : TarAllocs} {s : FsState} {log log' : List U32}
    (h : al.Fresh s log') (hsub : log ⊆ log') : al.Fresh s log :=
  { h with
    file_ne_logged := fun i hi a ha => h.file_ne_logged i hi a (hsub ha)
    root_ne_logged := fun a ha => h.root_ne_logged a (hsub ha) }

theorem TarAllocs.Fresh.of_live {al : TarAllocs} {s s' : FsState} {log : List U32}
    (h : al.Fresh s log)
    (hlink : ∀ i < numTarfiles, s'.heap.live (al.link i) = s.heap.live (al.link i))
    (hroot : s'.heap.live al.rootLink = s.heap.live al.rootLink) : al.Fresh s' log :=
  { h with
    link_free := fun i hi => (hlink i hi).trans (h.link_free i hi)
    rootLink_free := hroot.trans h.rootLink_free }

namespace Initrd

/-- The list node `d` leads to the node for the entry `x.1` at the place `x.2`. -/
structure Shows (s : Initrd) (al : TarAllocs) (d : U32) (x : TarEntry × Nat) : Prop where
  value : s.fs.heap.value d = al.file x.2
  file : IsFile (s.fs.node (al.file x.2)) x.1 x.2

/-- The directory has the list nodes `ns`, and the heap still has its answers for the headers from
the `i`-th on. The root directory still holds `rs`. -/
structure Listed (s : Initrd) (al : TarAllocs) (rs log ns : List U32) (i : Nat) : Prop where
  root : s.fs.root.Holds s.fs.heap s.fs.node rs log
  list : Represents s.fs.heap (s.fs.dirs al.dir) ns
  disjoint : rs.Disjoint ns
  tarfsRoot : s.tarfsRoot = al.root
  inode : (s.fs.node al.root).inode = al.dir
  rootName : ∃ cs, Named s.fs.node al.root cs
  linkFree : ∀ j, i ≤ j → j < numTarfiles → s.fs.heap.live (al.link j) = false
  rootLinkFree : s.fs.heap.live al.rootLink = false

/-- The directory has been built from the headers before the `i`-th: its list nodes `ns` lead to
the nodes for the entries `xs`. The root directory still holds `rs`. -/
structure Built (s : Initrd) (al : TarAllocs) (rs log ns : List U32) (xs : List (TarEntry × Nat))
    (i : Nat) : Prop extends s.Listed al rs log ns i where
  shows : List.Forall₂ (s.Shows al) ns xs
  below : ∀ x ∈ xs, x.2 < i

/-- The `i`-th header is that of the regular file `e`. -/
structure HeaderOf (s : Initrd) (e : TarEntry) (i : Nat) : Prop where
  holds : s.mem.Holds (s.files.headers i) e.bytes
  regular : e.Regular
  fits : e.data.length < 8 ^ 11

variable {s : Initrd} {al : TarAllocs} {fs₀ : FsState} {rs log ns : List U32}
  {xs : List (TarEntry × Nat)} {e : TarEntry} {i : Nat}

theorem HeaderOf.isFile (h : s.HeaderOf e i) {str : Chars} (hstr : IsString str e.headerString) :
    IsFile (s.fileNode i str) e i :=
  ⟨hstr, rfl, e.tarGetsize h.holds h.fits⟩

/-- The node for a new file touches no other node. -/
theorem Listed.setNode (h : s.Listed al rs log ns i) (hal : al.Fresh fs₀ log)
    (hi : i < numTarfiles) (n : FsNode) : (s.setNode (al.file i) n).Listed al rs log ns i where
  root := h.root.rename fun a ha _ hcs =>
    (named_update_of_ne (hal.file_ne_logged i hi a ha)).mpr hcs
  list := h.list
  disjoint := h.disjoint
  tarfsRoot := h.tarfsRoot
  inode := by
    show (Function.update s.fs.node (al.file i) n al.root).inode = al.dir
    rw [Function.update_of_ne (hal.file_ne_root i hi), h.inode]
  rootName := by
    obtain ⟨cs, hcs⟩ := h.rootName
    exact ⟨cs, (named_update_of_ne (hal.file_ne_root i hi)).mpr hcs⟩
  linkFree := h.linkFree
  rootLinkFree := h.rootLinkFree

theorem Listed.heap_insertFile (h : s.Listed al rs log ns i) (node t : U32) :
    (s.insertFile node t).fs.heap =
      (listInsertFront s.fs.heap (s.fs.dirs al.dir) node t).nodes := by
  rw [Initrd.insertFile, h.tarfsRoot, h.inode]
  rfl

/-- A node, or NULL, is put in front of the list. -/
theorem Listed.insertFile (h : s.Listed al rs log ns i) (hal : al.Fresh fs₀ log)
    (hi : i < numTarfiles) (node : U32) :
    (s.insertFile node (al.link i)).Listed al rs log (al.link i :: ns) (i + 1) ∧
      (s.insertFile node (al.link i)).fs.heap.value (al.link i) = node ∧
      ∀ d ∈ ns, (s.insertFile node (al.link i)).fs.heap.value d = s.fs.heap.value d := by
  have ht := h.linkFree i (Nat.le_refl i) hi
  have ht0 := hal.link_ne_zero i hi
  have hdisj : rs.Disjoint (al.link i :: ns) := by
    rw [List.disjoint_cons_right]
    exact ⟨fun hm => h.root.represents.ne_of_not_live ht hm rfl, h.disjoint⟩
  have hheap := h.heap_insertFile node (al.link i)
  have hlist : (s.insertFile node (al.link i)).fs.dirs al.dir =
      (listInsertFront s.fs.heap (s.fs.dirs al.dir) node (al.link i)).list := by
    rw [Initrd.insertFile, h.tarfsRoot, h.inode]
    exact Function.update_self ..
  have hlive : ∀ x, x ≠ al.link i →
      (s.insertFile node (al.link i)).fs.heap.live x = s.fs.heap.live x := by
    intro x hx
    rw [hheap, live_listInsertFront, if_neg hx]
  refine ⟨⟨?_, ?_, hdisj, h.tarfsRoot, h.inode, h.rootName, ?_, ?_⟩, ?_, ?_⟩
  · rw [hheap]
    exact h.root.of_untouched h.list.untouched_listInsertFront hdisj
  · rw [hheap, hlist]
    exact h.list.insertFront ht ht0
  · intro j hij hj
    have hne : al.link j ≠ al.link i := fun heq =>
      absurd (hal.link_inj j hj i hi heq) (by omega)
    rw [hlive _ hne]
    exact h.linkFree j (by omega) hj
  · rw [hlive _ (hal.link_ne_rootLink i hi)]
    exact h.rootLinkFree
  · rw [hheap, value_listInsertFront ht0, if_pos rfl]
  · intro d hd
    rw [hheap, value_listInsertFront (h.list.ne_null d hd),
      if_neg (h.list.ne_of_not_live ht hd)]

/-- The registration of the directory leaves it as it is. -/
theorem Listed.fsRegister (h : s.Listed al rs log ns i) :
    ∃ fs, s.fs.fsRegister s.tarfsRoot al.rootLink = some fs ∧ fs.node = s.fs.node ∧
      Represents fs.heap (fs.dirs (fs.node s.tarfsRoot).inode) ns ∧
      ∀ d ∈ ns, fs.heap.value d = s.fs.heap.value d := by
  obtain ⟨cs, hcs⟩ := h.rootName
  obtain ⟨m', r', added, hreg, hframe⟩ := h.root.register_frame hcs al.rootLink
  have hdisj : ns.Disjoint (al.rootLink :: rs) := by
    rw [List.disjoint_cons_right]
    exact ⟨fun hm => h.list.ne_of_not_live h.rootLinkFree hm rfl, List.disjoint_symm h.disjoint⟩
  rw [FsState.fsRegister, h.tarfsRoot, hreg]
  refine ⟨_, rfl, rfl, ?_, fun d hd => ?_⟩
  · show Represents m' (s.fs.dirs (s.fs.node al.root).inode) ns
    rw [h.inode]
    exact h.list.of_untouched hframe hdisj
  · exact congrArg ListNode.value (hframe d (hdisj hd)).1

theorem Built.setNode (h : s.Built al rs log ns xs i) (hal : al.Fresh fs₀ log)
    (hi : i < numTarfiles) (n : FsNode) : (s.setNode (al.file i) n).Built al rs log ns xs i := by
  refine ⟨h.toListed.setNode hal hi n, ?_, h.below⟩
  refine forall₂_imp_of_mem h.shows fun d x _ hx hshows => ⟨hshows.value, ?_⟩
  have hlt := h.below x hx
  have hne : al.file x.2 ≠ al.file i := fun heq =>
    absurd (hal.file_inj x.2 (by omega) i hi heq) (by omega)
  show IsFile (Function.update s.fs.node (al.file i) n (al.file x.2)) x.1 x.2
  rw [Function.update_of_ne hne]
  exact hshows.file

/-- The node for the `i`-th entry is put in front of the list. -/
theorem Built.insertFile (h : s.Built al rs log ns xs i) (hal : al.Fresh fs₀ log)
    (hi : i < numTarfiles) (hfile : IsFile (s.fs.node (al.file i)) e i) :
    (s.insertFile (al.file i) (al.link i)).Built al rs log (al.link i :: ns) ((e, i) :: xs)
      (i + 1) := by
  obtain ⟨hlisted, hvalue, hvalues⟩ := h.toListed.insertFile hal hi (al.file i)
  refine ⟨hlisted, .cons ⟨hvalue, hfile⟩ ?_, ?_⟩
  · refine forall₂_imp_of_mem h.shows fun d x hd _ hshows => ⟨?_, hshows.file⟩
    exact (hvalues d hd).trans hshows.value
  · refine List.forall_mem_cons.mpr ⟨Nat.lt_succ_self i, fun x hx => ?_⟩
    exact Nat.lt_succ_of_lt (h.below x hx)

/-- One round of the loop. -/
theorem Built.addHeader (h : s.Built al rs log ns xs i) (hal : al.Fresh fs₀ log)
    (hi : i < numTarfiles) (he : s.HeaderOf e i) (node : U32) :
    ∃ s', s.addHeader al i node = some (s', al.file i) ∧ s'.mem = s.mem ∧ s'.files = s.files ∧
      s'.Built al rs log (al.link i :: ns) ((e, i) :: xs) (i + 1) := by
  obtain ⟨-, -, -, htype⟩ := e.holds_fields (Mem.holds_append.mp he.holds).1
  obtain ⟨str, hcopy, hstr⟩ := he.regular.copyName he.holds (s.fs.node (al.file i)).name
  have hbuilt := h.setNode hal hi (s.fileNode i str)
  have hfile : IsFile ((s.setNode (al.file i) (s.fileNode i str)).fs.node (al.file i)) e i := by
    rw [show (s.setNode (al.file i) (s.fileNode i str)).fs.node (al.file i) = s.fileNode i str from
      Function.update_self ..]
    exact he.isFile hstr
  refine ⟨(s.setNode (al.file i) (s.fileNode i str)).insertFile (al.file i) (al.link i), ?_, rfl,
    rfl, hbuilt.insertFile hal hi hfile⟩
  rw [Initrd.addHeader]
  simp only [htype, he.regular.typeflag, if_true, hcopy, Option.map_some]

/-- The loop over the headers that are left. -/
theorem Built.addHeaders {es : List TarEntry} (h : s.Built al rs log ns xs i)
    (hal : al.Fresh fs₀ log) (hfew : i + es.length ≤ numTarfiles)
    (hes : ∀ x ∈ es.zipIdx i, s.HeaderOf x.1 x.2) (node : U32) :
    ∃ s' ns', s.addHeaders al es.length i node = some s' ∧ s'.mem = s.mem ∧ s'.files = s.files ∧
      s'.Built al rs log ns' ((es.zipIdx i).reverse ++ xs) (i + es.length) := by
  induction es generalizing s ns xs i node with
  | nil => exact ⟨s, ns, rfl, rfl, rfl, h⟩
  | cons e es ih =>
    rw [List.length_cons] at hfew
    rw [List.zipIdx_cons] at hes
    obtain ⟨he, hes⟩ := List.forall_mem_cons.mp hes
    obtain ⟨s₁, hs₁, hmem₁, hfiles₁, h₁⟩ := h.addHeader hal (by omega) he node
    have hes₁ : ∀ x ∈ es.zipIdx (i + 1), s₁.HeaderOf x.1 x.2 := by
      intro x hx
      obtain ⟨hholds, hregular, hfits⟩ := hes x hx
      exact ⟨by rw [hmem₁, hfiles₁]; exact hholds, hregular, hfits⟩
    obtain ⟨s', ns', hs', hmem', hfiles', h'⟩ := ih h₁ (by omega) hes₁ (al.file i)
    refine ⟨s', ns', ?_, hmem'.trans hmem₁, hfiles'.trans hfiles₁, ?_⟩
    · rw [List.length_cons, Initrd.addHeaders, hs₁]
      exact hs'
    · rw [List.zipIdx_cons, List.reverse_cons, List.append_assoc, List.length_cons,
        Nat.add_comm es.length, ← Nat.add_assoc]
      exact h'

end Initrd

/-! ## The mounted archive -/

namespace Initrd

/-- The directory has the files of the archive, the last one first. -/
structure Mounted (s : Initrd) (al : TarAllocs) (es : List TarEntry) (ns : List U32) : Prop where
  list : Represents s.fs.heap (s.fs.dirs (s.fs.node s.tarfsRoot).inode) ns
  shows : List.Forall₂ (s.Shows al) ns (es.tail.zipIdx 1).reverse
  headers : ∀ x ∈ es.tail.zipIdx 1, s.HeaderOf x.1 x.2

variable {s s' : Initrd} {al : TarAllocs} {rs log ns : List U32} {es : List TarEntry}
  {start endAddr a : U32} {e : TarEntry} {i : Nat}

theorem mem_zipIdx_tail (h : (e, i) ∈ es.tail.zipIdx 1) : es[i]? = some e ∧ e ∈ es.tail := by
  obtain ⟨hi, he⟩ := List.mk_mem_zipIdx_iff_le_and_getElem?_sub.mp h
  refine ⟨?_, List.mem_of_getElem? he⟩
  rw [List.getElem?_tail] at he
  rwa [Nat.sub_add_cancel hi] at he

/-- Before the loop the list is empty. -/
theorem built_start (hroot : s.fs.root.Holds s.fs.heap s.fs.node rs log) (hal : al.Fresh s.fs log)
    (files : TarFiles) {name : Chars} {cs : List (BitVec 8)} (hname : IsString name cs) :
    (({ s with files := files, tarfsRoot := al.root }.setNode al.root
      (s.rootNode al name)).setDir al.dir listCreate).Built al rs log [] [] 1 where
  root := hroot.rename fun a ha _ hcs =>
    (named_update_of_ne (hal.root_ne_logged a ha)).mpr hcs
  list := by
    show Represents s.fs.heap (Function.update s.fs.dirs al.dir listCreate al.dir) []
    rw [Function.update_self]
    exact represents_listCreate _
  disjoint := List.disjoint_nil_right _
  tarfsRoot := rfl
  inode := by
    show (Function.update s.fs.node al.root (s.rootNode al name) al.root).inode = al.dir
    rw [Function.update_self]
    rfl
  rootName := by
    refine ⟨cs, ?_⟩
    show IsString (Function.update s.fs.node al.root (s.rootNode al name) al.root).name cs
    rw [Function.update_self]
    exact hname
  shows := .nil
  below := fun _ hx => absurd hx List.not_mem_nil
  linkFree := fun j _ hj => hal.link_free j hj
  rootLinkFree := hal.rootLink_free

theorem Built.fsRegister (h : s.Built al rs log ns (es.tail.zipIdx 1).reverse i)
    (hes : ∀ x ∈ es.tail.zipIdx 1, s.HeaderOf x.1 x.2) :
    ∃ fs, s.fs.fsRegister s.tarfsRoot al.rootLink = some fs ∧
      Mounted { s with fs := fs } al es ns := by
  obtain ⟨fs, hfs, hnode, hlist, hvalues⟩ := h.toListed.fsRegister
  refine ⟨fs, hfs, hlist, ?_, fun x hx => ?_⟩
  · refine forall₂_imp_of_mem h.shows fun d x hd _ hshows => ⟨?_, ?_⟩
    · exact (hvalues d hd).trans hshows.value
    · show IsFile (fs.node (al.file x.2)) x.1 x.2
      rw [hnode]
      exact hshows.file
  · obtain ⟨hholds, hregular, hfits⟩ := hes x hx
    exact ⟨hholds, hregular, hfits⟩

theorem isString_initrdName :
    IsString initrdName [0x69, 0x6e, 0x69, 0x74, 0x72, 0x64] :=
  isString_getD (by decide) (by decide)

/-- `tarfs_init` makes the directory of an archive. -/
theorem exists_mounted (hroot : s.fs.root.Holds s.fs.heap s.fs.node rs log)
    (hal : al.Fresh s.fs log) (h : ArchiveAt s.mem start endAddr es)
    (hfew : es.length ≤ numTarfiles) (hreg : ∀ e ∈ es.tail, e.Regular) :
    ∃ s' ns, s.tarfsInit al start endAddr = some s' ∧ s'.mem = s.mem ∧ s'.tarfsRoot = al.root ∧
      (∀ i < es.length, s'.files.headers i = headerAddr start es i) ∧ s'.Mounted al es ns := by
  obtain ⟨files, hparse, hcount, hheaders⟩ := tarParse_archive s.mem s.files.headers start endAddr
    es h hfew
  obtain ⟨name, hname, hstr⟩ := isString_initrdName.strcpy (s.fs.node al.root).name
  have hstart := built_start hroot hal files hstr
  have hes : ∀ x ∈ es.tail.zipIdx 1, (({ s with files := files, tarfsRoot := al.root }.setNode
      al.root (s.rootNode al name)).setDir al.dir listCreate).HeaderOf x.1 x.2 := by
    intro x hx
    obtain ⟨he, hmem⟩ := mem_zipIdx_tail hx
    obtain ⟨hholds, hfits⟩ := h.holds_at he
    refine ⟨?_, hreg _ hmem, hfits⟩
    rw [← hheaders x.2 (List.getElem?_eq_some_iff.mp he).1] at hholds
    exact hholds
  have hlen : es.tail.length = files.tarfsFiles - 1 := by rw [hcount, List.length_tail]
  obtain ⟨s₁, ns, hs₁, hmem₁, hfiles₁, h₁⟩ := hstart.addHeaders hal
    (by rw [List.length_tail]; unfold numTarfiles at *; omega) hes 0
  rw [List.append_nil] at h₁
  obtain ⟨fs, hfs, hmounted⟩ := h₁.fsRegister fun x hx => by
    obtain ⟨hholds, hregular, hfits⟩ := hes x hx
    exact ⟨by rw [hmem₁, hfiles₁]; exact hholds, hregular, hfits⟩
  refine ⟨{ s₁ with fs := fs }, ns, ?_, hmem₁, h₁.tarfsRoot, fun i hi => ?_, hmounted⟩
  · rw [tarfsInit, hparse, Option.bind_some]
    dsimp only
    rw [hname, Option.bind_some]
    rw [hlen] at hs₁
    refine (congrArg (Option.bind · _) hs₁).trans ?_
    rw [Option.bind_some, hfs]
    rfl
  · rw [← hheaders i hi]
    exact congrFun (congrArg TarFiles.headers hfiles₁) i

/-! ## Lookup -/

/-- The node `a` reads as the file `e`: its length is that of the data, and a read at offset 0 of
this length puts the data into every buffer that does not start inside of the archive. -/
structure ReadsAs (s : Initrd) (start : U32) (es : List TarEntry) (a : U32) (e : TarEntry) :
    Prop where
  length : (s.fs.node a).length = BitVec.ofNat 32 e.data.length
  read : ∀ buffer, (∀ i < (archiveBytes es).length, buffer ≠ start + BitVec.ofNat 32 i) →
    (s.tarfsRead a 0 (s.fs.node a).length buffer).1.Holds buffer e.data ∧
      (s.tarfsRead a 0 (s.fs.node a).length buffer).2 = (s.fs.node a).length

/-- Every name of a file after the first entry leads to a node for the last entry of this name, and
a name that is not in the archive leads to none. -/
structure LookupOk (s : Initrd) (start : U32) (es : List TarEntry) : Prop where
  found : ∀ name cs e, IsString name cs → es.tail.reverse.find? (·.fileName = cs) = some e →
    ∃ a, s.fs.tarfsFinddir s.tarfsRoot (some name) = some a ∧ a ≠ 0 ∧ s.ReadsAs start es a e
  absent : ∀ name cs, IsString name cs → (∀ e ∈ es, e.fileName ≠ cs) →
    s.fs.tarfsFinddir s.tarfsRoot (some name) = some 0

theorem Shows.named {d : U32} {x : TarEntry × Nat} (h : s.Shows al d x) :
    Named s.fs.node (s.fs.heap.value d) x.1.headerString := by
  rw [h.value]
  exact h.file.name

/-- The first list node of a name leads to the first entry of the list with this string. -/
theorem find_of_firstNamed {xs : List (TarEntry × Nat)} {cs : List (BitVec 8)} {d : U32}
    (h : List.Forall₂ (s.Shows al) ns xs) (hd : FirstNamed s.fs.heap s.fs.node ns cs d) :
    ∃ x, xs.find? (·.1.headerString = cs) = some x ∧ s.Shows al d x := by
  obtain ⟨hnamed, before, after, hns, hbefore⟩ := hd
  induction h generalizing before with
  | nil => exact absurd hns.symm (List.append_ne_nil_of_right_ne_nil _ (List.cons_ne_nil _ _))
  | @cons d' x ns xs hshows _ ih =>
    cases before with
    | nil =>
      obtain ⟨rfl, -⟩ := List.cons.inj hns
      refine ⟨x, ?_, hshows⟩
      rw [List.find?_cons_of_pos (by simpa using hshows.named.unique hnamed)]
    | cons d'' before =>
      obtain ⟨rfl, hrest⟩ := List.cons.inj hns
      obtain ⟨hfirst, hbefore⟩ := List.forall_mem_cons.mp hbefore
      have hne : x.1.headerString ≠ cs := fun hcs => hfirst (hcs ▸ hshows.named)
      obtain ⟨y, hy, hshows'⟩ := ih before hrest hbefore
      exact ⟨y, by rw [List.find?_cons_of_neg (by simpa using hne)]; exact hy, hshows'⟩

theorem find_of_not_named {xs : List (TarEntry × Nat)} {cs : List (BitVec 8)}
    (h : List.Forall₂ (s.Shows al) ns xs)
    (hnone : ∀ d ∈ ns, ¬ Named s.fs.node (s.fs.heap.value d) cs) :
    xs.find? (·.1.headerString = cs) = none := by
  induction h with
  | nil => rfl
  | cons hshows _ ih =>
    obtain ⟨hfirst, hnone⟩ := List.forall_mem_cons.mp hnone
    have hne : ¬ _ = cs := fun hcs => hfirst (hcs ▸ hshows.named)
    rw [List.find?_cons_of_neg (by simpa using hne)]
    exact ih hnone

/-- `tarfs_finddir` finds the last entry whose header starts with the name. -/
theorem Mounted.tarfsFinddir (h : s.Mounted al es ns) {name : Chars} {cs : List (BitVec 8)}
    (hname : IsString name cs) : s.fs.tarfsFinddir s.tarfsRoot (some name) =
      some (((es.tail.zipIdx 1).reverse.find? (·.1.headerString = cs)).elim 0
        fun x => al.file x.2) := by
  have hnames : ∀ d ∈ ns, ∃ cs', Named s.fs.node (s.fs.heap.value d) cs' := by
    intro d hd
    obtain ⟨x, -, hshows⟩ := exists_of_forall₂ h.shows hd
    exact ⟨_, hshows.named⟩
  rw [FsState.tarfsFinddir]
  rcases h.list.findNode hnames hname with ⟨d, hd, hfirst⟩ | ⟨hd, hnone⟩
  · obtain ⟨x, hx, hshows⟩ := find_of_firstNamed h.shows hfirst
    rw [hd, Option.map_some, h.list.foundNode hfirst.mem, hshows.value, hx]
    rfl
  · rw [hd, Option.map_some, foundNode_zero, find_of_not_named h.shows hnone]
    rfl

/-- A file that is shown is read from the data behind its header. -/
theorem Mounted.readsAs (h : s.Mounted al es ns) (hat : ArchiveAt s.mem start endAddr es)
    (hfew : es.length ≤ numTarfiles)
    (hheaders : ∀ i < es.length, s.files.headers i = headerAddr start es i) {d : U32}
    {x : TarEntry × Nat} (hx : x ∈ es.tail.zipIdx 1) (hshows : s.Shows al d x) :
    s.ReadsAs start es (al.file x.2) x.1 := by
  obtain ⟨-, hinode, hlength⟩ := hshows.file
  obtain ⟨he, -⟩ := mem_zipIdx_tail hx
  have hi := (List.getElem?_eq_some_iff.mp he).1
  refine ⟨hlength, fun buffer hbuffer => ?_⟩
  have hholds := (Mem.holds_append.mp (h.headers x hx).holds).2
  rw [TarHeader.length_bytes] at hholds
  have hdata := (Mem.holds_append.mp hholds).1
  have hle := length_headerAddr_le he
  have hbytes := x.1.length_bytes
  have hsmall : x.1.data.length < 2 ^ 32 := by
    have := hat.fits
    omega
  have hdigits : x.2 < 2 ^ 32 := by
    unfold numTarfiles at hfew
    omega
  have hindex :
      s.files.headers (s.fs.node (al.file x.2)).inode.toNat = headerAddr start es x.2 := by
    rw [hinode, BitVec.toNat_ofNat, Nat.mod_eq_of_lt hdigits, hheaders x.2 hi]
  have hread : s.tarfsRead (al.file x.2) 0 (s.fs.node (al.file x.2)).length buffer =
      (s.mem.copy buffer (headerAddr start es x.2 + 512) x.1.data.length,
        (s.fs.node (al.file x.2)).length) := by
    have hnot : ∀ v : U32, ¬ v < 0 := fun v => BitVec.not_lt_zero
    have hself : ∀ v : U32, ¬ v < 0 + v := fun v => by bv_omega
    rw [tarfsRead]
    dsimp only
    rw [if_neg (hnot _), if_neg (hself _), hindex, hlength, BitVec.toNat_ofNat,
      Nat.mod_eq_of_lt hsmall]
  rw [hread]
  rw [hheaders x.2 hi] at hdata
  refine ⟨hdata.copy (Mem.le_toNat_sub fun i hi => ?_), rfl⟩
  rw [headerAddr, BitVec.add_assoc, BitVec.add_assoc, BitVec.ofNat_add_ofNat,
    BitVec.ofNat_add_ofNat]
  exact hbuffer _ (by omega)

/-- The lookups are right if the string of every header is the name of its file. -/
theorem Mounted.lookupOk (h : s.Mounted al es ns) (hat : ArchiveAt s.mem start endAddr es)
    (hfew : es.length ≤ numTarfiles)
    (hheaders : ∀ i < es.length, s.files.headers i = headerAddr start es i)
    (hfile : ∀ i < es.length, al.file i ≠ 0) (hnot : ∀ e ∈ es.tail, ¬ e.RunsOn) :
    s.LookupOk start es := by
  have hstr : ∀ x ∈ (es.tail.zipIdx 1).reverse, x.1.headerString = x.1.fileName := by
    intro x hx
    exact x.1.headerString_of_not_runsOn (hnot _ (mem_zipIdx_tail (List.mem_reverse.mp hx)).2)
  have hfind : ∀ cs, (es.tail.zipIdx 1).reverse.find? (·.1.headerString = cs) =
      (es.tail.zipIdx 1).reverse.find? (·.1.fileName = cs) := by
    intro cs
    exact List.find?_congr fun x hx => by rw [hstr x hx]
  have hmap : es.tail.reverse = (es.tail.zipIdx 1).reverse.map Prod.fst := by
    rw [List.map_reverse, List.zipIdx_map_fst]
  constructor
  · intro name cs e hname he
    rw [hmap, List.find?_map, Option.map_eq_some_iff] at he
    obtain ⟨x, hx, rfl⟩ := he
    have hx' : (es.tail.zipIdx 1).reverse.find? (·.1.fileName = cs) = some x := hx
    have hmem := List.mem_of_find?_eq_some hx'
    have hmem' := List.mem_reverse.mp hmem
    obtain ⟨d, -, hshows⟩ := exists_of_forall₂ h.shows.flip hmem
    have hi := (List.getElem?_eq_some_iff.mp (mem_zipIdx_tail hmem').1).1
    refine ⟨al.file x.2, ?_, hfile _ hi, h.readsAs hat hfew hheaders hmem' hshows⟩
    rw [h.tarfsFinddir hname, hfind, hx']
    rfl
  · intro name cs hname hcs
    have hnone : (es.tail.zipIdx 1).reverse.find? (·.1.fileName = cs) = none := by
      rw [List.find?_eq_none]
      intro x hx
      have hx := (mem_zipIdx_tail (List.mem_reverse.mp hx)).2
      simpa using hcs _ (List.mem_of_mem_tail hx)
    rw [h.tarfsFinddir hname, hfind, hnone]
    rfl

/-- A name that runs on is found with the mode behind it. -/
theorem Mounted.not_lookupOk (h : s.Mounted al es ns)
    (hfile : ∀ i < es.length, al.file i ≠ 0) (he : e ∈ es.tail) (hruns : e.RunsOn)
    (hregular : e.Regular) : ¬ s.LookupOk start es := by
  intro hok
  have hlong := e.lt_length_headerString hruns
  have hname : IsString (fun i => e.headerString.getD i 0) e.headerString := by
    refine isString_getD (fun h0 => ?_) ?_
    · have hne := List.mem_takeWhile_imp h0
      simp at hne
    · have hle := e.length_headerString_le
      unfold addresses
      omega
  have habsent := hok.absent _ _ hname fun e' _ heq => by
    have hshort := e'.length_fileName_le
    rw [heq] at hshort
    omega
  rw [h.tarfsFinddir hname] at habsent
  cases hx : (es.tail.zipIdx 1).reverse.find? (·.1.headerString = e.headerString) with
  | none =>
    rw [List.find?_eq_none] at hx
    rw [← List.zipIdx_map_fst 1 es.tail] at he
    obtain ⟨y, hy, rfl⟩ := List.mem_map.mp he
    exact hx y (List.mem_reverse.mpr hy) (by simp)
  | some x =>
    rw [hx] at habsent
    have hmem := List.mem_reverse.mp (List.mem_of_find?_eq_some hx)
    have hi := (List.getElem?_eq_some_iff.mp (mem_zipIdx_tail hmem).1).1
    exact hfile _ hi (Option.some.inj habsent)

end Initrd

/-- The files of the initial ramdisk are found by their names exactly when no name of 100 bytes is
followed by a mode that is not empty. -/
theorem initrd_lookup_iff (s : Initrd) (al : TarAllocs) (start endAddr : U32)
    (es : List TarEntry) (rs log : List U32)
    (hroot : s.fs.root.Holds s.fs.heap s.fs.node rs log) (hal : al.Fresh s.fs log)
    (h : ArchiveAt s.mem start endAddr es) (hfew : es.length ≤ numTarfiles)
    (hreg : ∀ e ∈ es.tail, e.Regular) :
    ∃ s', s.tarfsInit al start endAddr = some s' ∧
      (s'.LookupOk start es ↔ ∀ e ∈ es.tail, ¬ e.RunsOn) := by
  obtain ⟨s', ns, hs', hmem, -, hheaders, hmounted⟩ := Initrd.exists_mounted hroot hal h hfew hreg
  have hfile : ∀ i < es.length, al.file i ≠ 0 := fun i hi => hal.file_ne_zero i (by omega)
  refine ⟨s', hs', fun hok e he hruns => ?_, fun hnot => ?_⟩
  · exact hmounted.not_lookupOk hfile he hruns (hreg e he) hok
  · exact hmounted.lookupOk (hmem.symm ▸ h) hfew hheaders hfile hnot

/-! ## Two archives -/

/-- Addresses for the nodes of a small archive. -/
def sampleAllocs : TarAllocs where
  root := 0x10000
  dir := 0x11000
  file := fun i => BitVec.ofNat 32 (0x20000 + 0x100 * i)
  link := fun i => BitVec.ofNat 32 (0x40000 + 0x10 * i)
  rootLink := 0x12000

/-- The archive `es` at the address 0x1000, before `tarfs_init`. -/
def withArchive (es : List TarEntry) : Initrd :=
  ⟨Mem.ofBytes 0x1000 (archiveBytes es), emptyRegistries.fs, ⟨fun _ => 0, 0⟩, 0⟩

theorem ofNat_inj_of_lt {k c i j : Nat} (hk : k + c * 64 < 2 ^ 32) (hc : 0 < c) (hi : i < 64)
    (hj : j < 64) (h : BitVec.ofNat 32 (k + c * i) = BitVec.ofNat 32 (k + c * j)) : i = j := by
  have hlt : ∀ n < 64, k + c * n < 2 ^ 32 := fun n hn =>
    Nat.lt_of_le_of_lt (Nat.add_le_add_left (Nat.mul_le_mul_left c (Nat.le_of_lt hn)) k) hk
  have htoNat := congrArg BitVec.toNat h
  rw [BitVec.toNat_ofNat, BitVec.toNat_ofNat, Nat.mod_eq_of_lt (hlt i hi),
    Nat.mod_eq_of_lt (hlt j hj)] at htoNat
  exact Nat.eq_of_mul_eq_mul_left hc (Nat.add_left_cancel htoNat)

theorem fresh_sampleAllocs : sampleAllocs.Fresh emptyRegistries.fs [] where
  file_ne_zero := by decide +kernel
  file_inj := fun _ hi _ hj h => ofNat_inj_of_lt (by decide) (by decide) hi hj h
  file_ne_root := by decide +kernel
  file_ne_logged := fun _ _ _ h => absurd h List.not_mem_nil
  root_ne_logged := fun _ h => absurd h List.not_mem_nil
  link_ne_zero := by decide +kernel
  link_inj := fun _ hi _ hj h => ofNat_inj_of_lt (by decide) (by decide) hi hj h
  link_ne_rootLink := by decide +kernel
  link_free := fun _ _ => rfl
  rootLink_ne_zero := by decide
  rootLink_free := rfl

theorem holds_emptyRegistries : emptyRegistries.fs.root.Holds emptyRegistries.fs.heap
    emptyRegistries.fs.node [] [] := (RegistryRun.Rep.boot boot_emptyRegistries).root

theorem regular_smallArchive : ∀ e ∈ smallArchive.tail, e.Regular := by
  intro e he
  obtain rfl := List.mem_singleton.mp he
  exact ⟨rfl, by decide⟩

/-- The file `a` of the small archive is found. -/
theorem initrd_lookup_small : ∃ s',
    (withArchive smallArchive).tarfsInit sampleAllocs 0x1000 0x1800 =
    some s' ∧ s'.LookupOk 0x1000 smallArchive := by
  obtain ⟨s', hs', hiff⟩ := initrd_lookup_iff (withArchive smallArchive) sampleAllocs 0x1000 0x1800
    smallArchive [] [] holds_emptyRegistries fresh_sampleAllocs archiveAt_smallArchive (by decide)
    regular_smallArchive
  refine ⟨s', hs', hiff.mpr fun e he hruns => ?_⟩
  obtain rfl := List.mem_singleton.mp he
  exact absurd hruns.1 (by decide)

/-- A file whose name is 100 times the letter `b`. -/
def longNamed : TarEntry :=
  tarFile (List.replicate 100 0x62) mode644 [7] (by decide) length_mode644 (by decide)

/-- The directory `.` and this file. -/
def longArchive : List TarEntry := [dotEntry, longNamed]

theorem length_longArchive : (archiveBytes longArchive).length = 2048 := by
  simp only [archiveBytes, entriesBytes, longArchive, List.flatMap_cons, List.flatMap_nil,
    List.length_append, TarEntry.length_bytes, List.length_replicate, List.length_nil]
  rfl

theorem runsOn_longNamed : longNamed.RunsOn := ⟨by decide +kernel, by decide⟩

/-- The file of the second archive is not found by its name. -/
theorem not_initrd_lookup : ∃ s', (withArchive longArchive).tarfsInit sampleAllocs 0x1000 0x1800 =
    some s' ∧ ¬ s'.LookupOk 0x1000 longArchive := by
  have hregular : longNamed.Regular := ⟨rfl, by decide⟩
  have hmem : longNamed ∈ longArchive.tail := List.mem_singleton.mpr rfl
  have hat : ArchiveAt (withArchive longArchive).mem 0x1000 0x1800 longArchive :=
    ⟨Mem.holds_ofBytes (by rw [length_longArchive]; decide), by rw [length_longArchive]; decide⟩
  obtain ⟨s', ns, hs', -, -, -, hmounted⟩ := Initrd.exists_mounted holds_emptyRegistries
    fresh_sampleAllocs hat (by decide) fun e he => (List.mem_singleton.mp he) ▸ hregular
  refine ⟨s', hs', hmounted.not_lookupOk (fun i hi => ?_) hmem runsOn_longNamed hregular⟩
  exact fresh_sampleAllocs.file_ne_zero i (Nat.lt_trans hi (by decide))

end PiggyOS
