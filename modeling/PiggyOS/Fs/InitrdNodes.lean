import Mathlib.Data.List.Nodup
import PiggyOS.Fs.Initrd
import PiggyOS.Fs.TarWalk

/-!
# The nodes of the directory `initrd` (`tarfs_init`)

`tarfs_init` makes a node for the header of a regular file and then, whatever the header, puts the
value of its variable `node` into the list. For any other header that is the node of the last
regular file before it, or NULL.

* `Filled.addHeader` — what one round does to the values in the list
* `tarfsInit_contents_iff` — the list has one node for each regular file and nothing else
-/

namespace PiggyOS

open Infra

namespace Initrd

/-- The `i`-th header is that of a regular file. -/
def RegularAt (s : Initrd) (i : Nat) : Prop := s.mem (s.files.headers i + 156) = regtype

/-- `n` is a node for the `i`-th header. -/
structure IsNodeOf (s : Initrd) (i : Nat) (n : FsNode) : Prop where
  name : ∀ cs, IsString (charsAt s.mem (s.files.headers i)) cs → IsString n.name cs
  flags : n.flags = fsFile
  inode : n.inode = BitVec.ofNat 32 i
  length : n.length = tarGetsize (charsAt s.mem (s.files.headers i + 124))
  read : n.read = .tarfsRead

/-- The nodes that the list nodes `ns` lead to. -/
def values (s : Initrd) (ns : List U32) : List U32 := ns.map s.fs.heap.value

/-- The directory has exactly one node for each regular file after the first header, and no other
element. -/
structure HoldsFiles (s : Initrd) (ns : List U32) : Prop where
  no_null : 0 ∉ s.values ns
  nodup : (s.values ns).Nodup
  found : ∀ i, 1 ≤ i → i < s.files.tarfsFiles → s.RegularAt i →
    ∃! d, d ∈ ns ∧ s.IsNodeOf i (s.fs.node (s.fs.heap.value d))
  supported : ∀ d ∈ ns, ∃ i, 1 ≤ i ∧ i < s.files.tarfsFiles ∧ s.RegularAt i ∧
    s.IsNodeOf i (s.fs.node (s.fs.heap.value d))

/-- What the loop has put into the list before the `i`-th header, and its variable `node`. -/
structure Filled (s : Initrd) (al : TarAllocs) (ns : List U32) (i : Nat) (node : U32) : Prop where
  last : node = 0 ∨ node ∈ s.values ns
  regular : (∀ j, 1 ≤ j → j < i → s.RegularAt j) →
    s.values ns = ((List.range' 1 (i - 1)).map al.file).reverse
  broken : ∀ j, 1 ≤ j → j < i → ¬ s.RegularAt j → 0 ∈ s.values ns ∨ ¬ (s.values ns).Nodup
  nodes : ∀ j, 1 ≤ j → j < i → s.RegularAt j → s.IsNodeOf j (s.fs.node (al.file j))

variable {s s' s₁ : Initrd} {al : TarAllocs} {fs₀ : FsState} {rs log ns : List U32} {i n : Nat}
  {node node' : U32} {name : Chars}

/-- The headers are in memory. -/
theorem regularAt_congr (hmem : s'.mem = s.mem) (hfiles : s'.files = s.files) :
    s'.RegularAt i ↔ s.RegularAt i := by
  unfold RegularAt
  rw [hmem, hfiles]

theorem fileNode_congr (hmem : s'.mem = s.mem) (hfiles : s'.files = s.files) (name : Chars) :
    s'.fileNode i name = s.fileNode i name := by
  unfold fileNode
  rw [hmem, hfiles]

/-! ## One header -/

/-- A node is made for a regular file, and the variable `node` keeps its value otherwise. -/
theorem addHeader_cases (h : s.addHeader al i node = some (s', node')) :
    (s.RegularAt i ∧ ∃ name,
        copyName (s.fs.node (al.file i)).name (charsAt s.mem (s.files.headers i)) = some name ∧
        s' = (s.setNode (al.file i) (s.fileNode i name)).insertFile (al.file i) (al.link i) ∧
        node' = al.file i) ∨
      (¬ s.RegularAt i ∧ s' = s.insertFile node (al.link i) ∧ node' = node) := by
  unfold addHeader at h
  dsimp only at h
  by_cases hreg : s.mem (s.files.headers i + 156) = regtype
  · rw [if_pos hreg, Option.map_map, Option.map_eq_some_iff] at h
    obtain ⟨name, hname, heq⟩ := h
    cases heq
    exact Or.inl ⟨hreg, name, hname, rfl, rfl⟩
  · rw [if_neg hreg, Option.map_some] at h
    cases h
    exact Or.inr ⟨hreg, rfl, rfl⟩

/-- `strcpy` to the name of a node. -/
theorem isString_of_copyName {str src : Chars} {cs : List (BitVec 8)}
    (h : copyName name src = some str) (hsrc : IsString src cs) : IsString str cs := by
  obtain ⟨str', hcopy, hstr⟩ := hsrc.strcpy name
  rw [copyName, hsrc.strlen, Option.bind_some, hcopy] at h
  split at h
  · exact Option.some.inj h ▸ hstr
  · cases h

/-- A node for a header is one as long as the headers stay where they are. -/
theorem IsNodeOf.congr {m : FsNode} (h : s.IsNodeOf i m) (hmem : s'.mem = s.mem)
    (hfiles : s'.files = s.files) : s'.IsNodeOf i m where
  name := by
    rw [hmem, hfiles]
    exact h.name
  flags := h.flags
  inode := h.inode
  length := by
    rw [hmem, hfiles]
    exact h.length
  read := h.read

theorem isNodeOf_fileNode {n₀ : FsNode}
    (h : copyName n₀.name (charsAt s.mem (s.files.headers i)) = some name) :
    s.IsNodeOf i (s.fileNode i name) where
  name := fun _ hsrc => isString_of_copyName h hsrc
  flags := rfl
  inode := rfl
  length := rfl
  read := rfl

/-- The values after an insertion. -/
theorem values_insertFile {t : U32} {f : U32 → U32} (ht : f t = node)
    (hns : ∀ d ∈ ns, f d = s.fs.heap.value d) : (t :: ns).map f = node :: s.values ns := by
  rw [List.map_cons, ht, values, List.map_congr_left hns]

/-- The nodes of the headers before this one are not touched. -/
theorem node_setNode {j : Nat} (hal : al.Fresh fs₀ log) (hi : i < numTarfiles) (hj : j < i)
    (m : FsNode) : (s.setNode (al.file i) m).fs.node (al.file j) = s.fs.node (al.file j) := by
  have hne : al.file j ≠ al.file i := fun heq =>
    absurd (hal.file_inj j (by omega) i hi heq) (by omega)
  exact Function.update_of_ne hne ..

/-- **One round of the loop**: the value of `node` is put in front, and only for a regular file is
it a new one. -/
theorem Filled.addHeader (h : s.Filled al ns i node) (hlisted : s.Listed al rs log ns i)
    (hal : al.Fresh fs₀ log) (hi : i < numTarfiles) (hpos : 1 ≤ i)
    (hround : s.addHeader al i node = some (s', node')) :
    s'.mem = s.mem ∧ s'.files = s.files ∧ s'.Listed al rs log (al.link i :: ns) (i + 1) ∧
      s'.Filled al (al.link i :: ns) (i + 1) node' := by
  rcases addHeader_cases hround with ⟨hreg, name, hname, rfl, rfl⟩ | ⟨hreg, rfl, rfl⟩
  · -- a regular file has a node of its own
    obtain ⟨hlisted', hvalue, hvalues⟩ :=
      (hlisted.setNode hal hi (s.fileNode i name)).insertFile hal hi (al.file i)
    refine ⟨rfl, rfl, hlisted', ?_⟩
    have hvs := values_insertFile hvalue hvalues
    have hvs : values _ (al.link i :: ns) = al.file i :: s.values ns := hvs
    refine ⟨Or.inr ?_, fun hall => ?_, fun j hj hlt hother => ?_, fun j hj hlt hregular => ?_⟩
    · rw [hvs]
      exact List.mem_cons_self
    · obtain ⟨i, rfl⟩ := Nat.exists_eq_add_of_le' hpos
      rw [hvs, h.regular fun j hj hlt => hall j hj (by omega), Nat.add_sub_cancel,
        Nat.add_sub_cancel, List.range'_1_concat, List.map_append, List.reverse_append,
        Nat.add_comm 1 i]
      rfl
    · have hne : j ≠ i := fun heq => hother (heq ▸ hreg)
      rw [hvs]
      rcases h.broken j hj (by omega) hother with hnull | hdup
      · exact Or.inl (List.mem_cons_of_mem _ hnull)
      · exact Or.inr fun hnodup => hdup (List.nodup_cons.mp hnodup).2
    · by_cases heq : j = i
      · subst heq
        refine IsNodeOf.congr (s := s) ?_ rfl rfl
        show s.IsNodeOf j (Function.update s.fs.node (al.file j) (s.fileNode j name) (al.file j))
        rw [Function.update_self]
        exact isNodeOf_fileNode hname
      · have hold := h.nodes j hj (by omega) hregular
        rw [← node_setNode hal hi (show j < i by omega) (s.fileNode i name)] at hold
        exact hold.congr rfl rfl
  · -- another header puts the value of the variable into the list once more
    obtain ⟨hlisted', hvalue, hvalues⟩ := hlisted.insertFile hal hi node'
    refine ⟨rfl, rfl, hlisted', ?_⟩
    have hvs : values _ (al.link i :: ns) = node' :: s.values ns :=
      values_insertFile hvalue hvalues
    refine ⟨Or.inr ?_, fun hall => ?_, fun j hj hlt hother => ?_, fun j hj hlt hregular => ?_⟩
    · rw [hvs]
      exact List.mem_cons_self
    · exact absurd (hall i hpos (Nat.lt_succ_self i)) hreg
    · -- the value is NULL, or is in the list already
      rw [hvs]
      rcases h.last with rfl | hmem
      · exact Or.inl List.mem_cons_self
      · exact Or.inr fun hnodup => (List.nodup_cons.mp hnodup).1 hmem
    · have hne : j ≠ i := fun heq => hreg (heq ▸ hregular)
      exact (h.nodes j hj (by omega) hregular).congr rfl rfl

/-- The loop over the headers that are left. -/
theorem Filled.addHeaders (h : s.Filled al ns i node) (hlisted : s.Listed al rs log ns i)
    (hal : al.Fresh fs₀ log) (hi : i + n ≤ numTarfiles) (hpos : 1 ≤ i)
    (hloop : s.addHeaders al n i node = some s') :
    ∃ ns' node', s'.mem = s.mem ∧ s'.files = s.files ∧ s'.Listed al rs log ns' (i + n) ∧
      s'.Filled al ns' (i + n) node' := by
  induction n generalizing s ns i node with
  | zero =>
    cases hloop
    exact ⟨ns, node, rfl, rfl, hlisted, h⟩
  | succ n ih =>
    rw [Initrd.addHeaders] at hloop
    obtain ⟨⟨s₁, node₁⟩, hround, hrest⟩ := Option.bind_eq_some_iff.mp hloop
    obtain ⟨hmem, hfiles, hlisted₁, h₁⟩ := h.addHeader hlisted hal (by omega) hpos hround
    obtain ⟨ns', node', hmem', hfiles', hlisted', h'⟩ :=
      ih h₁ hlisted₁ (by omega) (Nat.le_succ_of_le hpos) hrest
    rw [Nat.add_assoc, Nat.add_comm 1 n] at hlisted' h'
    exact ⟨ns', node', hmem'.trans hmem, hfiles'.trans hfiles, hlisted', h'⟩

/-! ## The directory -/

/-- With regular files only, the list has the nodes of all of them. -/
theorem Filled.mem_values (h : s.Filled al ns i node)
    (hall : ∀ j, 1 ≤ j → j < i → s.RegularAt j) (a : U32) :
    a ∈ s.values ns ↔ ∃ j, 1 ≤ j ∧ j < i ∧ al.file j = a := by
  rw [h.regular hall, List.mem_reverse, List.mem_map]
  constructor
  · rintro ⟨j, hj, rfl⟩
    have hj := List.mem_range'_1.mp hj
    exact ⟨j, hj.1, by omega, rfl⟩
  · rintro ⟨j, hj, hlt, rfl⟩
    exact ⟨j, List.mem_range'_1.mpr ⟨hj, by omega⟩, rfl⟩

theorem Filled.nodup_values (h : s.Filled al ns i node) (hal : al.Fresh fs₀ log)
    (hi : i ≤ numTarfiles) (hall : ∀ j, 1 ≤ j → j < i → s.RegularAt j) :
    (s.values ns).Nodup := by
  rw [h.regular hall, List.nodup_reverse]
  refine List.Nodup.map_on (fun j hj k hk heq => ?_) List.nodup_range'
  have hj := List.mem_range'_1.mp hj
  have hk := List.mem_range'_1.mp hk
  exact hal.file_inj j (by omega) k (by omega) heq

/-- Two nodes with one index are for one header. -/
theorem Filled.eq_of_isNodeOf {j k : Nat} (h : s.Filled al ns i node) (hi : i ≤ numTarfiles)
    (hk : 1 ≤ k) (hki : k < i) (hreg : s.RegularAt k) (hji : j < i)
    (hnode : s.IsNodeOf j (s.fs.node (al.file k))) : k = j := by
  have hinode := hnode.inode
  rw [(h.nodes k hk hki hreg).inode] at hinode
  have htoNat := congrArg BitVec.toNat hinode
  unfold numTarfiles at hi
  rw [BitVec.toNat_ofNat, BitVec.toNat_ofNat, Nat.mod_eq_of_lt (by omega),
    Nat.mod_eq_of_lt (by omega)] at htoNat
  exact htoNat

/-- A node that is there for every regular file, and for regular files only. -/
theorem Filled.holdsFiles (h : s.Filled al ns i node) (hal : al.Fresh fs₀ log)
    (hi : i ≤ numTarfiles)
    (hfiles : ∀ j, 1 ≤ j → (j < i ↔ j < s.files.tarfsFiles)) :
    s.HoldsFiles ns ↔ ∀ j, 1 ≤ j → j < s.files.tarfsFiles → s.RegularAt j := by
  constructor
  · intro hok j hj hlt
    by_contra hother
    rcases h.broken j hj ((hfiles j hj).mpr hlt) hother with hnull | hdup
    · exact hok.no_null hnull
    · exact hdup hok.nodup
  · intro hall
    have hreg : ∀ j, 1 ≤ j → j < i → s.RegularAt j :=
      fun j hj hlt => hall j hj ((hfiles j hj).mp hlt)
    have hnodup := h.nodup_values hal hi hreg
    have hnode : ∀ d ∈ ns, ∃ j, 1 ≤ j ∧ j < i ∧ al.file j = s.fs.heap.value d :=
      fun d hd => (h.mem_values hreg _).mp (List.mem_map_of_mem hd)
    refine ⟨fun hnull => ?_, hnodup, fun j hj hlt hreg' => ?_, fun d hd => ?_⟩
    · obtain ⟨j, hj, hlt, hfile⟩ := (h.mem_values hreg 0).mp hnull
      exact hal.file_ne_zero j (by omega) hfile
    · have hji := (hfiles j hj).mpr hlt
      obtain ⟨d, hd, hvalue⟩ := List.mem_map.mp ((h.mem_values hreg _).mpr ⟨j, hj, hji, rfl⟩)
      have hd' : s.IsNodeOf j (s.fs.node (s.fs.heap.value d)) := by
        rw [hvalue]
        exact h.nodes j hj hji hreg'
      refine ⟨d, ⟨hd, hd'⟩, fun x hx => ?_⟩
      obtain ⟨hx, hnodeOf⟩ := hx
      obtain ⟨k, hk, hki, hfile⟩ := hnode x hx
      rw [← hfile] at hnodeOf
      have hkj := h.eq_of_isNodeOf hi hk hki (hreg k hk hki) hji hnodeOf
      rw [hkj] at hfile
      exact List.inj_on_of_nodup_map hnodup hx hd (hfile.symm.trans hvalue.symm)
    · obtain ⟨j, hj, hji, hfile⟩ := hnode d hd
      refine ⟨j, hj, (hfiles j hj).mp hji, hreg j hj hji, ?_⟩
      rw [← hfile]
      exact h.nodes j hj hji (hreg j hj hji)

/-- What the loop has done is about the headers, the nodes and the values of the list. -/
theorem Filled.congr (h : s.Filled al ns i node) (hmem : s'.mem = s.mem)
    (hfiles : s'.files = s.files) (hnode : s'.fs.node = s.fs.node)
    (hvalues : ∀ d ∈ ns, s'.fs.heap.value d = s.fs.heap.value d) : s'.Filled al ns i node := by
  have hsame : s'.values ns = s.values ns := List.map_congr_left hvalues
  have hreg : ∀ i, s'.RegularAt i ↔ s.RegularAt i := fun _ => regularAt_congr hmem hfiles
  refine ⟨by rw [hsame]; exact h.last, fun hall => ?_, fun j hj hlt hother => ?_,
    fun j hj hlt hregular => ?_⟩
  · rw [hsame]
    exact h.regular fun j hj hlt => (hreg j).mp (hall j hj hlt)
  · rw [hsame]
    exact h.broken j hj hlt (mt (hreg j).mpr hother)
  · rw [hnode]
    exact (h.nodes j hj hlt ((hreg j).mp hregular)).congr hmem hfiles

/-- Before the loop. -/
theorem filled_start (s : Initrd) (al : TarAllocs) (files : TarFiles) (name : Chars) :
    (({ s with files := files, tarfsRoot := al.root }.setNode al.root
      (s.rootNode al name)).setDir al.dir listCreate).Filled al [] 1 0 :=
  ⟨Or.inl rfl, fun _ => rfl, fun _ hj hlt => absurd hlt (Nat.not_lt.mpr hj),
    fun _ hj hlt => absurd hlt (Nat.not_lt.mpr hj)⟩

/-- `tar_parse` leaves room in `headers`. -/
theorem tarfsFiles_fits {m : Mem} {headers : Nat → U32} {start endAddr : U32} {files : TarFiles}
    (h : tarParse m headers start endAddr = some files) :
    1 + (files.tarfsFiles - 1) ≤ numTarfiles := by
  have hle := tarfsFiles_tarParseFrom_le h
  rw [Nat.zero_add] at hle
  unfold numTarfiles at *
  omega

/-- What `tarfs_init` has done if it comes back. -/
theorem tarfsInit_eq_some {start endAddr : U32} (h : s.tarfsInit al start endAddr = some s') :
    ∃ files name s₁ fs, tarParse s.mem s.files.headers start endAddr = some files ∧
      1 + (files.tarfsFiles - 1) ≤ numTarfiles ∧
      IsString name [0x69, 0x6e, 0x69, 0x74, 0x72, 0x64] ∧
      (({ s with files := files, tarfsRoot := al.root }.setNode al.root
        (s.rootNode al name)).setDir al.dir listCreate).addHeaders al (files.tarfsFiles - 1) 1 0 =
          some s₁ ∧
      s₁.fs.fsRegister s₁.tarfsRoot al.rootLink = some fs ∧ s' = { s₁ with fs := fs } := by
  obtain ⟨files, hparse, h⟩ := Option.bind_eq_some_iff.mp h
  obtain ⟨name, hname, h⟩ := Option.bind_eq_some_iff.mp h
  obtain ⟨s₁, hloop, h⟩ := Option.bind_eq_some_iff.mp h
  obtain ⟨fs, hfs, rfl⟩ := Option.map_eq_some_iff.mp h
  obtain ⟨name', hname', hstr⟩ := isString_initrdName.strcpy (s.fs.node al.root).name
  rw [hname] at hname'
  cases hname'
  have hfits := tarfsFiles_fits hparse
  exact ⟨files, name, s₁, fs, hparse, hfits, hstr, hloop, hfs, rfl⟩

/-- **What `tarfs_init` leaves behind.** -/
theorem tarfsInit_filled {start endAddr : U32}
    (hroot : s.fs.root.Holds s.fs.heap s.fs.node rs log) (hal : al.Fresh s.fs log)
    (h : s.tarfsInit al start endAddr = some s') :
    s'.mem = s.mem ∧ tarParse s.mem s.files.headers start endAddr = some s'.files ∧
      1 + (s'.files.tarfsFiles - 1) ≤ numTarfiles ∧
      ∃ ns node, Represents s'.fs.heap (s'.fs.dirs (s'.fs.node s'.tarfsRoot).inode) ns ∧
        s'.Filled al ns (1 + (s'.files.tarfsFiles - 1)) node := by
  obtain ⟨files, name, s₁, fs, hparse, hfits, hstr, hloop, hfs, rfl⟩ := tarfsInit_eq_some h
  have hlisted := (built_start hroot hal files hstr).toListed
  obtain ⟨ns, node, hmem, hfiles, hlisted₁, hfilled⟩ :=
    (filled_start s al files name).addHeaders hlisted hal hfits (Nat.le_refl 1) hloop
  have hmem : s₁.mem = s.mem := hmem
  have hfiles : s₁.files = files := hfiles
  obtain ⟨fs', hfs', hnode, hlist, hvalues⟩ := hlisted₁.fsRegister
  rw [hfs] at hfs'
  cases hfs'
  rw [← hfiles] at hparse hfits
  have hfilled : s₁.Filled al ns (1 + (files.tarfsFiles - 1)) node := hfilled
  rw [← hfiles] at hfilled
  exact ⟨hmem, hparse, hfits, ns, node, hlist, hfilled.congr rfl rfl hnode hvalues⟩

/-- **The directory has one node for each regular file and nothing else exactly if all headers after
the first one are those of regular files.** -/
theorem tarfsInit_contents_iff {start endAddr : U32}
    (hroot : s.fs.root.Holds s.fs.heap s.fs.node rs log) (hal : al.Fresh s.fs log)
    (h : s.tarfsInit al start endAddr = some s') :
    ∃ ns, Represents s'.fs.heap (s'.fs.dirs (s'.fs.node s'.tarfsRoot).inode) ns ∧
      (s'.HoldsFiles ns ↔ ∀ i, 1 ≤ i → i < s'.files.tarfsFiles → s'.RegularAt i) := by
  obtain ⟨-, -, hfits, ns, node, hlist, hfilled⟩ := tarfsInit_filled hroot hal h
  exact ⟨ns, hlist, hfilled.holdsFiles hal hfits fun j hj => by omega⟩

/-! ## Names that fit -/

/-- The name in the header of a regular file fits into a node. -/
def NameFits (s : Initrd) (i : Nat) : Prop :=
  s.RegularAt i → ∃ cs, IsString (charsAt s.mem (s.files.headers i)) cs ∧ cs.length < nodeNameSize

theorem exists_addHeader (hname : s.NameFits i) (al : TarAllocs) (node : U32) :
    ∃ s' node', s.addHeader al i node = some (s', node') ∧ s'.mem = s.mem ∧ s'.files = s.files := by
  unfold addHeader
  dsimp only
  by_cases hreg : s.mem (s.files.headers i + 156) = regtype
  · obtain ⟨cs, hstr, hfits⟩ := hname hreg
    obtain ⟨str, hcopy, -⟩ := hstr.strcpy (s.fs.node (al.file i)).name
    rw [if_pos hreg, copyName, hstr.strlen, Option.bind_some, if_pos hfits, hcopy]
    exact ⟨_, _, rfl, rfl, rfl⟩
  · rw [if_neg hreg]
    exact ⟨_, _, rfl, rfl, rfl⟩

theorem exists_addHeaders (hnames : ∀ j, i ≤ j → j < i + n → s.NameFits j) (al : TarAllocs)
    (node : U32) :
    ∃ s', s.addHeaders al n i node = some s' := by
  induction n generalizing s i node with
  | zero => exact ⟨s, rfl⟩
  | succ n ih =>
    obtain ⟨s₁, node₁, hround, hmem, hfiles⟩ :=
      exists_addHeader (hnames i (Nat.le_refl i) (by omega)) al node
    have hrest : ∀ j, i + 1 ≤ j → j < i + 1 + n → s₁.NameFits j := by
      intro j hj hlt
      unfold NameFits RegularAt
      rw [hmem, hfiles]
      exact hnames j (by omega) (by omega)
    obtain ⟨s', hs'⟩ := ih hrest node₁
    exact ⟨s', by rw [Initrd.addHeaders, hround]; exact hs'⟩

/-- `tarfs_init` comes back if it can copy the names. -/
theorem exists_tarfsInit {start endAddr : U32} {files : TarFiles}
    (hroot : s.fs.root.Holds s.fs.heap s.fs.node rs log) (hal : al.Fresh s.fs log)
    (hparse : tarParse s.mem s.files.headers start endAddr = some files)
    (hnames : ∀ i, 1 ≤ i → i < files.tarfsFiles → { s with files := files }.NameFits i) :
    ∃ s', s.tarfsInit al start endAddr = some s' := by
  obtain ⟨name, hname, hstr⟩ := isString_initrdName.strcpy (s.fs.node al.root).name
  have hfits := tarfsFiles_fits hparse
  have hnames' : ∀ j, 1 ≤ j → j < 1 + (files.tarfsFiles - 1) →
      (({ s with files := files, tarfsRoot := al.root }.setNode al.root
        (s.rootNode al name)).setDir al.dir listCreate).NameFits j :=
    fun j hj hlt => hnames j hj (by omega)
  obtain ⟨s₁, hloop⟩ := exists_addHeaders hnames' al 0
  obtain ⟨ns, node, -, -, hlisted₁, -⟩ := (filled_start s al files name).addHeaders
    (built_start hroot hal files hstr).toListed hal hfits (Nat.le_refl 1) hloop
  obtain ⟨fs, hfs, -⟩ := hlisted₁.fsRegister
  refine ⟨{ s₁ with fs := fs }, ?_⟩
  rw [tarfsInit, hparse, Option.bind_some]
  dsimp only
  rw [hname, Option.bind_some]
  refine (congrArg (Option.bind · _) hloop).trans ?_
  rw [Option.bind_some, hfs]
  rfl

/-! ## Two archives -/

/-- The types that are found in an archive. -/
theorem typeflag_of_archive {start endAddr : U32} {es : List TarEntry} {files : TarFiles}
    (h : ArchiveAt s.mem start endAddr es) (hfew : es.length ≤ numTarfiles)
    (hparse : tarParse s.mem s.files.headers start endAddr = some files) :
    files.tarfsFiles = es.length ∧
      ∀ i e, es[i]? = some e → s.mem (files.headers i + 156) = e.typeflag := by
  obtain ⟨t, ht, hcount, hheaders⟩ := tarParse_archive s.mem s.files.headers start endAddr es h hfew
  rw [hparse] at ht
  cases ht
  refine ⟨hcount, fun i e he => ?_⟩
  obtain ⟨-, -, -, htype⟩ := e.holds_fields (Mem.holds_append.mp (h.holds_at he).1).1
  rw [hheaders i (List.getElem?_eq_some_iff.mp he).1, htype]

/-- The nodes of the small archive. -/
theorem contents_small : ∃ s' ns, (withArchive smallArchive).tarfsInit sampleAllocs 0x1000 0x1800 =
    some s' ∧ Represents s'.fs.heap (s'.fs.dirs (s'.fs.node s'.tarfsRoot).inode) ns ∧
    s'.HoldsFiles ns := by
  obtain ⟨s', -, hs', -⟩ := exists_mounted holds_emptyRegistries fresh_sampleAllocs
    (s := withArchive smallArchive) archiveAt_smallArchive (by decide) regular_smallArchive
  obtain ⟨hmem, hparse, -⟩ := tarfsInit_filled holds_emptyRegistries fresh_sampleAllocs hs'
  obtain ⟨hcount, htypes⟩ := typeflag_of_archive archiveAt_smallArchive (by decide) hparse
  obtain ⟨ns, hlist, hiff⟩ :=
    tarfsInit_contents_iff holds_emptyRegistries fresh_sampleAllocs hs'
  refine ⟨s', ns, hs', hlist, hiff.mpr fun i hi hlt => ?_⟩
  obtain rfl : i = 1 := by
    rw [hcount] at hlt
    exact Nat.le_antisymm (Nat.le_of_lt_succ hlt) hi
  unfold RegularAt
  rw [hmem]
  exact htypes 1 _ rfl

/-- The directory `d`. -/
def dirEntry : TarEntry :=
  { tarFile [0x64] mode644 [] (by simp) length_mode644 (by simp) with typeflag := 0x35 }

/-- The directories `.` and `d`. -/
def dirArchive : List TarEntry := [dotEntry, dirEntry]

theorem length_dirArchive : (archiveBytes dirArchive).length = 1536 := by
  simp only [archiveBytes, entriesBytes, dirArchive, List.flatMap_cons, List.flatMap_nil,
    List.length_append, TarEntry.length_bytes, List.length_replicate, List.length_nil]
  rfl

/-- NULL is put into the list for the directory `d`. -/
theorem not_contents_dir : ∃ s' ns, (withArchive dirArchive).tarfsInit sampleAllocs 0x1000 0x1800 =
    some s' ∧ Represents s'.fs.heap (s'.fs.dirs (s'.fs.node s'.tarfsRoot).inode) ns ∧
    ¬ s'.HoldsFiles ns := by
  have hat : ArchiveAt (withArchive dirArchive).mem 0x1000 0x1800 dirArchive :=
    ⟨Mem.holds_ofBytes (by rw [length_dirArchive]; decide), by rw [length_dirArchive]; decide⟩
  obtain ⟨files, hparse, -, -⟩ := tarParse_archive _ (withArchive dirArchive).files.headers _ _ _
    hat (by decide)
  obtain ⟨hcount, htypes⟩ := typeflag_of_archive hat (by decide) hparse
  have hother : (withArchive dirArchive).mem (files.headers 1 + 156) ≠ regtype := by
    rw [htypes 1 _ rfl]
    decide
  obtain ⟨s', hs'⟩ := exists_tarfsInit holds_emptyRegistries fresh_sampleAllocs hparse
    fun i hi hlt hreg => by
      obtain rfl : i = 1 := by
        rw [hcount] at hlt
        exact Nat.le_antisymm (Nat.le_of_lt_succ hlt) hi
      exact absurd hreg hother
  obtain ⟨hmem, hparse', -, ns, node, hlist, hfilled⟩ :=
    tarfsInit_filled holds_emptyRegistries fresh_sampleAllocs hs'
  rw [hparse] at hparse'
  cases hparse'
  refine ⟨s', ns, hs', hlist, fun hok => ?_⟩
  have hother' : ¬ s'.RegularAt 1 := by
    unfold RegularAt
    rw [hmem]
    exact hother
  have hlt : 1 < 1 + (s'.files.tarfsFiles - 1) := by
    rw [hcount]
    decide
  rcases hfilled.broken 1 (Nat.le_refl 1) hlt hother' with hnull | hdup
  · exact hok.no_null hnull
  · exact hdup hok.nodup

end Initrd

end PiggyOS
