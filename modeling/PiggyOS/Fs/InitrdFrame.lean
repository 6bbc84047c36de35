import PiggyOS.Fs.InitrdNodes

/-!
# What `tarfs_init` leaves alone

The directory `initrd` has nodes and list nodes of its own. The list of the devices and the nodes
that were there before stay as they are, and the root directory gets one node more.

* `Apart.addHeader` — one round of the loop
* `tarfsInit_rep` — the registries after `tarfs_init`
-/

namespace PiggyOS

open Infra

namespace Initrd

/-- Before the `i`-th header, the loop has not touched the devices, whose list nodes are `ds`, nor a
node of `s₀` that is not one for a file. -/
structure Apart (s₀ s : Initrd) (al : TarAllocs) (devLog ds ns : List U32) (i : Nat) : Prop where
  mem : s.mem = s₀.mem
  headers : s.files = s₀.files
  dev : s.fs.dev.Holds s.fs.heap s.fs.node ds devLog
  disjoint : ds.Disjoint ns
  rootFiles : s.fs.rootFiles = s₀.fs.rootFiles
  others : ∀ a, (∀ i < numTarfiles, a ≠ al.file i) → s.fs.node a = s₀.fs.node a
  made : ∀ j, 1 ≤ j → j < i → s₀.RegularAt j →
    ∃ name, s.fs.node (al.file j) = s₀.fileNode j name

variable {s s' s₀ : Initrd} {al : TarAllocs} {fs₀ : FsState} {rs ds log devLog ns : List U32}
  {i n : Nat} {node node' : U32}

/-- The node for a new file is none of those that are there. -/
theorem Apart.setNode (h : s₀.Apart s al devLog ds ns i) (hal : al.Fresh fs₀ log)
    (hi : i < numTarfiles) (hlog : ∀ a ∈ devLog, ∀ i < numTarfiles, a ≠ al.file i) (n : FsNode) :
    s₀.Apart (s.setNode (al.file i) n) al devLog ds ns i where
  mem := h.mem
  headers := h.headers
  dev := h.dev.rename fun a ha _ hcs => (named_update_of_ne (hlog a ha i hi)).mpr hcs
  disjoint := h.disjoint
  rootFiles := h.rootFiles
  others := fun a ha => by
    show Function.update s.fs.node (al.file i) n a = s₀.fs.node a
    rw [Function.update_of_ne (ha i hi), h.others a ha]
  made := fun j hj hlt hreg => by
    rw [node_setNode hal hi hlt]
    exact h.made j hj hlt hreg

/-- The list of the devices is not the one of the directory. -/
theorem Apart.insertFile (h : s₀.Apart s al devLog ds ns i) (hlisted : s.Listed al rs log ns i)
    (hi : i < numTarfiles) (node : U32) :
    s₀.Apart (s.insertFile node (al.link i)) al devLog ds (al.link i :: ns) i := by
  have hdisj : ds.Disjoint (al.link i :: ns) := by
    have hfree := hlisted.linkFree i (Nat.le_refl i) hi
    rw [List.disjoint_cons_right]
    exact ⟨fun hm => h.dev.represents.ne_of_not_live hfree hm rfl, h.disjoint⟩
  refine ⟨h.mem, h.headers, ?_, hdisj, h.rootFiles, h.others, h.made⟩
  rw [hlisted.heap_insertFile]
  exact h.dev.of_untouched hlisted.list.untouched_listInsertFront hdisj

/-- One header more. -/
theorem Apart.next (h : s₀.Apart s al devLog ds ns i)
    (hmade : s₀.RegularAt i → ∃ name, s.fs.node (al.file i) = s₀.fileNode i name) :
    s₀.Apart s al devLog ds ns (i + 1) where
  mem := h.mem
  headers := h.headers
  dev := h.dev
  disjoint := h.disjoint
  rootFiles := h.rootFiles
  others := h.others
  made := fun j hj hlt hreg => by
    by_cases hji : j = i
    · exact hji ▸ hmade (hji ▸ hreg)
    · exact h.made j hj (by omega) hreg

theorem Listed.addHeader (h : s.Listed al rs log ns i) (hal : al.Fresh fs₀ log)
    (hi : i < numTarfiles) (hround : s.addHeader al i node = some (s', node')) :
    s'.Listed al rs log (al.link i :: ns) (i + 1) := by
  rcases addHeader_cases hround with ⟨-, name, -, rfl, rfl⟩ | ⟨-, rfl, rfl⟩
  · exact ((h.setNode hal hi (s.fileNode i name)).insertFile hal hi (al.file i)).1
  · exact (h.insertFile hal hi node').1

/-- One round of the loop. -/
theorem Apart.addHeader (h : s₀.Apart s al devLog ds ns i) (hlisted : s.Listed al rs log ns i)
    (hal : al.Fresh fs₀ log) (hi : i < numTarfiles)
    (hlog : ∀ a ∈ devLog, ∀ i < numTarfiles, a ≠ al.file i)
    (hround : s.addHeader al i node = some (s', node')) :
    s₀.Apart s' al devLog ds (al.link i :: ns) (i + 1) := by
  rcases addHeader_cases hround with ⟨-, name, -, rfl, rfl⟩ | ⟨hreg, rfl, rfl⟩
  · have hinsert := (h.setNode hal hi hlog (s.fileNode i name)).insertFile
      (hlisted.setNode hal hi _) hi (al.file i)
    refine hinsert.next fun _ => ⟨name, ?_⟩
    exact (Function.update_self ..).trans (fileNode_congr h.mem h.headers name)
  · refine (h.insertFile hlisted hi node').next fun hreg₀ => absurd ?_ hreg
    exact (regularAt_congr h.mem h.headers).mpr hreg₀

/-- The loop over the headers that are left. -/
theorem Apart.addHeaders (h : s₀.Apart s al devLog ds ns i) (hlisted : s.Listed al rs log ns i)
    (hal : al.Fresh fs₀ log) (hi : i + n ≤ numTarfiles)
    (hlog : ∀ a ∈ devLog, ∀ i < numTarfiles, a ≠ al.file i)
    (hloop : s.addHeaders al n i node = some s') :
    ∃ ns', s'.Listed al rs log ns' (i + n) ∧ s₀.Apart s' al devLog ds ns' (i + n) := by
  induction n generalizing s ns i node with
  | zero =>
    cases hloop
    exact ⟨ns, hlisted, h⟩
  | succ n ih =>
    rw [Initrd.addHeaders] at hloop
    obtain ⟨⟨s₁, node₁⟩, hround, hrest⟩ := Option.bind_eq_some_iff.mp hloop
    have hlisted₁ := hlisted.addHeader hal (by omega) hround
    have h₁ := h.addHeader hlisted hal (by omega) hlog hround
    obtain ⟨ns', hlisted', h'⟩ := ih h₁ hlisted₁ (by omega) hrest
    rw [Nat.add_assoc, Nat.add_comm 1 n] at hlisted' h'
    exact ⟨ns', hlisted', h'⟩

/-- The nodes after `tarfs_init`: its own ones, and those that it leaves alone. -/
structure Keeps (s s' : Initrd) (al : TarAllocs) (name : Chars) : Prop where
  tarfsRoot : s'.tarfsRoot = al.root
  root : s'.fs.node al.root = s.rootNode al name
  files : ∀ j, 1 ≤ j → j < s'.files.tarfsFiles → s'.RegularAt j →
    ∃ name, s'.fs.node (al.file j) = s'.fileNode j name
  others : ∀ a, a ≠ al.root → (∀ i < numTarfiles, a ≠ al.file i) → s'.fs.node a = s.fs.node a

/-- **The registries after `tarfs_init`**: the root directory has been given one node more. -/
theorem tarfsInit_rep {start endAddr : U32} (hrep : RegistryRun.Rep ⟨s.fs, log, devLog⟩ rs ds)
    (hal : al.Fresh s.fs (log ++ devLog)) (h : s.tarfsInit al start endAddr = some s') :
    ∃ rs' name, RegistryRun.Rep ⟨s'.fs, log ++ [al.root], devLog⟩ rs' ds ∧
      s.Keeps s' al name := by
  obtain ⟨files, name, s₁, fs, -, hfits, hstr, hloop, hfs, rfl⟩ := tarfsInit_eq_some h
  have hal' : al.Fresh s.fs log := hal.mono fun a ha => List.mem_append_left _ ha
  have hlog : ∀ a ∈ devLog, ∀ i < numTarfiles, a ≠ al.file i := fun a ha i hi =>
    hal.file_ne_logged i hi a (List.mem_append_right _ ha)
  have hlisted := (built_start hrep.root hal' files hstr).toListed
  obtain ⟨s₀, hs₀⟩ : ∃ s₀, s₀ = ({ s with files := files, tarfsRoot := al.root }.setNode al.root
    (s.rootNode al name)).setDir al.dir listCreate := ⟨_, rfl⟩
  rw [← hs₀] at hloop hlisted
  have hnode₀ : s₀.fs.node = Function.update s.fs.node al.root (s.rootNode al name) := by
    rw [hs₀]
    rfl
  have hstart : s₀.Apart s₀ al devLog ds [] 1 := by
    refine ⟨rfl, rfl, ?_, List.disjoint_nil_right _, rfl, fun _ _ => rfl,
      fun _ hj hlt => absurd hlt (Nat.not_lt.mpr hj)⟩
    rw [hs₀]
    exact hrep.dev.rename fun a ha _ hcs =>
      (named_update_of_ne (hal.root_ne_logged a (List.mem_append_right _ ha))).mpr hcs
  obtain ⟨ns, hlisted₁, h₁⟩ := hstart.addHeaders hlisted hal' hfits hlog hloop
  obtain ⟨cs, hcs⟩ := hlisted₁.rootName
  have hrep₁ : RegistryRun.Rep ⟨s₁.fs, log, devLog⟩ rs ds := by
    refine ⟨hlisted₁.root, h₁.dev, hrep.disjoint, ?_⟩
    rw [h₁.rootFiles, hs₀]
    exact hrep.rootFiles
  rw [hlisted₁.tarfsRoot] at hfs
  obtain ⟨rs', hrep'⟩ := hrep₁.fsRegister hcs hlisted₁.rootLinkFree hal.rootLink_ne_zero hfs
  obtain ⟨hnode, -, -⟩ := FsState.fsRegister_frame hfs
  refine ⟨rs', name, hrep', hlisted₁.tarfsRoot, ?_, fun j hj hlt hreg => ?_, fun a haroot ha => ?_⟩
  · show fs.node al.root = s.rootNode al name
    rw [hnode, h₁.others _ hal.file_ne_root, hnode₀, Function.update_self]
  · have hcount : s₁.files.tarfsFiles = files.tarfsFiles := by
      rw [h₁.headers, hs₀]
      rfl
    have hlt : j < s₁.files.tarfsFiles := hlt
    have hreg₀ : s₀.RegularAt j := (regularAt_congr h₁.mem h₁.headers).mp hreg
    obtain ⟨jname, hjname⟩ := h₁.made j hj (by omega) hreg₀
    refine ⟨jname, ?_⟩
    show fs.node (al.file j) = s₁.fileNode j jname
    rw [hnode, hjname, fileNode_congr h₁.mem h₁.headers]
  · show fs.node a = s.fs.node a
    rw [hnode, h₁.others _ ha, hnode₀, Function.update_of_ne haroot]

end Initrd

end PiggyOS
