import Mathlib.Data.List.FinRange
import PiggyOS.Vmm.Pages

/-!
# Copies of page directories

`copy_page_directory` shares the tables that the source has in common with the kernel's directory
and copies the others with `copy_page_table`, page by page, through a temporary mapping at address
0. The test for a page to be copied looks at the new table, which is empty, so that no page is.
-/

namespace PiggyOS

open Infra

/-- The kernel and the contents of the physical memory. -/
structure Physical where
  kernel : Kernel
  phys : Mem

namespace Vmm

variable (v : Vmm)

/-- The page that a directory maps `va` to. -/
def lookup (dir va : U32) : Option Page :=
  if v.tableOf dir va ≠ 0 && ((v.dirs dir).tables (pagedirIndex va)).present &&
      (v.entry (v.tableOf dir va) va).present then
    some (v.entry (v.tableOf dir va) va)
  else none

/-- Where a byte lies in the physical memory. -/
def translate (dir va : U32) : Option U32 :=
  (v.lookup dir va).map fun page : Page => (page.frame.setWidth 32 <<< 12) + pageframeIndex va

/-- The address of the page with the given indices. -/
def pageAddr (idx i : Fin 1024) : U32 := (BitVec.ofNat 32 idx <<< 22) ||| (BitVec.ofNat 32 i <<< 12)

/-- Sets the bits in the page at `i` of `table` that are set in `src`. -/
def orBits (table src : U32) (i : Fin 1024) : Vmm :=
  let page := v.tabs table i
  let p := v.tabs src i
  { v with
    tabs := Function.update v.tabs table (Function.update (v.tabs table) i
      { page with
        present := page.present || p.present
        rw := page.rw || p.rw
        user := page.user || p.user
        accessed := page.accessed || p.accessed
        dirty := page.dirty || p.dirty }) }

/-- `dst->ref_tables[i] = ref; dst->tables[i] = entry;` -/
def setRegion (dst : U32) (i : Fin 1024) (ref : U32) (entry : PageDirEntry) : Vmm :=
  { v with
    dirs := Function.update v.dirs dst
      { tables := Function.update (v.dirs dst).tables i entry
        refTables := Function.update (v.dirs dst).refTables i ref } }

/-- The directory entry for a table of its own. -/
def privateEntry (dst src : U32) (i : Fin 1024) (table : U32) : PageDirEntry :=
  let entry := (v.dirs dst).tables i
  -- `ref_tables[i]` is set before the table is looked up
  let phys := (v.setRegion dst i table entry).virt2phys src table
  { entry with
    frame := (phys >>> 12).setWidth 20
    user := true
    rw := true
    present := true }

end Vmm

namespace Physical

variable (kmallocA : TableSource) (s : Physical)

/-- `memcpy(dst, src, n)` in the current address space; `none` for a page fault. -/
def memcpy (dst src : U32) : Nat → Physical → Option Physical
  | 0, s => some s
  | n + 1, s =>
    (s.kernel.vmm.translate s.kernel.vmm.currentPageDir dst).bind fun d =>
      (s.kernel.vmm.translate s.kernel.vmm.currentPageDir src).bind fun p =>
        memcpy (dst + 1) (src + 1) n { s with phys := Function.update s.phys d (s.phys p) }

/-- One round of the loop of `copy_page_table`. -/
def copyPage (srcDir dstDir : U32) (idx : Fin 1024) (src table : U32) (i : Fin 1024) :
    Option Physical :=
  -- the test is of the new table, not of `src`
  if (s.kernel.vmm.tabs table i).frame = 0 then some s
  else
    let va := Vmm.pageAddr idx i
    (s.kernel.allocatePage kmallocA dstDir va 0 false true).bind fun k =>
      -- a physical address is passed where a frame number is expected
      (k.allocatePage kmallocA srcDir 0 (k.vmm.virt2phys dstDir va) false true).bind fun k =>
        (memcpy 0 va 4096 { s with kernel := { k with vmm := k.vmm.orBits table src i } }).map
          fun s => { s with
            kernel := { s.kernel with vmm := s.kernel.vmm.freePage srcDir 0 false } }

/-- The loop of `copy_page_table`, over the pages still to come. -/
def copyPages (srcDir dstDir : U32) (idx : Fin 1024) (src table : U32) :
    List (Fin 1024) → Physical → Option Physical
  | [], s => some s
  | i :: rest, s =>
    (s.copyPage kmallocA srcDir dstDir idx src table i).bind
      (copyPages srcDir dstDir idx src table rest)

/-- `copy_page_table` -/
def copyPageTable (srcDir dstDir : U32) (idx : Fin 1024) (src : U32) : Option (Physical × U32) :=
  (kmallocA s.kernel sizeofPageTable).bind fun (k, table) =>
    (copyPages kmallocA srcDir dstDir idx src table (List.finRange 1024)
      { s with kernel := k }).map (·, table)

/-- The state after `dst->ref_tables[i] = ref; dst->tables[i] = entry;`. -/
def withRegion (dst : U32) (i : Fin 1024) (ref : U32) (entry : PageDirEntry) : Physical :=
  { s with kernel := { s.kernel with vmm := s.kernel.vmm.setRegion dst i ref entry } }

/-- One round of the loop of `copy_page_directory`. -/
def copyRegion (dst src : U32) (i : Fin 1024) : Option Physical :=
  let v := s.kernel.vmm
  if (v.dirs v.kernelPageDir).refTables i = (v.dirs src).refTables i then
    some (s.withRegion dst i ((v.dirs src).refTables i) ((v.dirs src).tables i))
  else
    (s.copyPageTable kmallocA src dst i ((v.dirs src).refTables i)).map fun (s, table) =>
      s.withRegion dst i table (s.kernel.vmm.privateEntry dst src i table)

/-- The loop of `copy_page_directory`, over the regions still to come. -/
def copyRegions (kmallocA : Fin 1024 → TableSource) (dst src : U32) :
    List (Fin 1024) → Physical → Option Physical
  | [], s => some s
  | i :: rest, s => (s.copyRegion (kmallocA i) dst src i).bind (copyRegions kmallocA dst src rest)

/-- `copy_page_directory`; `kmallocA i` is what `kmalloc_a` does for the region `i`. -/
def copyPageDirectory (kmallocA : Fin 1024 → TableSource) (dst src : U32) : Option Physical :=
  copyRegions kmallocA dst src (List.finRange 1024) s

end Physical

/-! ## What a copy is -/

/-- The source has the table of the region in common with the kernel's directory. -/
def Vmm.Shared (v : Vmm) (src : U32) (i : Fin 1024) : Prop :=
  (v.dirs v.kernelPageDir).refTables i = (v.dirs src).refTables i

/-- The bytes of a frame. -/
def frameByte (phys : Mem) (frame : BitVec 20) (off : Fin 4096) : BitVec 8 :=
  phys ((frame.setWidth 32 <<< 12) + BitVec.ofNat 32 off)

/-- `dst` in the state `s'` is a copy of what `src` was in the state `s`. -/
structure Copied (s s' : Physical) (dst src : U32) : Prop where
  /-- the same pages, with the same bits -/
  pages : ∀ va, (s'.kernel.vmm.lookup dst va).map (fun p => (p.present, p.rw, p.user)) =
    (s.kernel.vmm.lookup src va).map fun p => (p.present, p.rw, p.user)
  /-- under shared tables the same frames -/
  shared : ∀ va p p', s.kernel.vmm.Shared src (pagedirIndex va) →
    s.kernel.vmm.lookup src va = some p → s'.kernel.vmm.lookup dst va = some p' →
    p'.frame = p.frame
  /-- under the other tables other frames, with the same contents -/
  copies : ∀ va p p', ¬ s.kernel.vmm.Shared src (pagedirIndex va) →
    s.kernel.vmm.lookup src va = some p → s'.kernel.vmm.lookup dst va = some p' →
    p'.frame ≠ p.frame ∧ ∀ off, frameByte s'.phys p'.frame off = frameByte s.phys p.frame off

/-! ## The loops -/

namespace Vmm

variable {v : Vmm} {dst ref d : U32} {i j : Fin 1024} {entry : PageDirEntry}

theorem dirs_setRegion_self_refTables :
    ((v.setRegion dst i ref entry).dirs dst).refTables i = ref := by
  simp [setRegion]

theorem dirs_setRegion_self_tables :
    ((v.setRegion dst i ref entry).dirs dst).tables i = entry := by
  simp [setRegion]

/-- The other regions, of all directories. -/
theorem dirs_setRegion_of_ne (hne : j ≠ i) :
    ((v.setRegion dst i ref entry).dirs d).refTables j = (v.dirs d).refTables j ∧
      ((v.setRegion dst i ref entry).dirs d).tables j = (v.dirs d).tables j := by
  by_cases hd : d = dst
  · subst hd
    simp [setRegion, hne]
  · simp [setRegion, hd]

theorem dirs_setRegion_other (hne : d ≠ dst) :
    (v.setRegion dst i ref entry).dirs d = v.dirs d := by
  simp [setRegion, hne]

end Vmm

namespace Physical

variable {s s' : Physical} {dst src : U32} {fresh : Fin 1024 → U32}

/-- Nothing is copied into an empty table. -/
theorem copyPages_of_zero {kmallocA : TableSource} {idx : Fin 1024} {table ref : U32}
    (h : s.kernel.vmm.tabs table = zeroTable) (l : List (Fin 1024)) :
    copyPages kmallocA src dst idx ref table l s = some s := by
  induction l with
  | nil => rfl
  | cons i rest ih =>
    have hpage : s.copyPage kmallocA src dst idx ref table i = some s := by
      unfold copyPage
      rw [if_pos]
      rw [h]
      rfl
    rw [copyPages, hpage, Option.bind_some, ih]

/-- `kmalloc_a` with the given answers. -/
def answers (fresh : Fin 1024 → U32) : Fin 1024 → TableSource := fun i k _ => some (k, fresh i)

variable (dst src) in
/-- What one round does, when tables come empty. -/
theorem copyRegion_cases (hzero : ∀ i, s.kernel.vmm.tabs (fresh i) = zeroTable) (i : Fin 1024) :
    ∃ ref entry, s.copyRegion (answers fresh i) dst src i = some (s.withRegion dst i ref entry) ∧
      (s.kernel.vmm.Shared src i ∧ ref = (s.kernel.vmm.dirs src).refTables i ∧
          entry = (s.kernel.vmm.dirs src).tables i ∨
        ¬ s.kernel.vmm.Shared src i ∧ ref = fresh i) := by
  by_cases hshared : s.kernel.vmm.Shared src i
  · refine ⟨_, _, ?_, Or.inl ⟨hshared, rfl, rfl⟩⟩
    exact if_pos hshared
  · have htable : s.copyPageTable (answers fresh i) src dst i
        ((s.kernel.vmm.dirs src).refTables i) = some (s, fresh i) := by
      unfold copyPageTable answers
      rw [Option.bind_some]
      dsimp only
      rw [copyPages_of_zero (hzero i)]
      rfl
    refine ⟨fresh i, s.kernel.vmm.privateEntry dst src i (fresh i), ?_, Or.inr ⟨hshared, rfl⟩⟩
    refine (if_neg hshared).trans ?_
    rw [htable]
    rfl

variable (dst src) in
/-- What the loop does, over regions that each come once: a region reads nothing that another one
writes, also when `dst` is `src` or the kernel's directory. -/
theorem copyRegions_spec (hzero : ∀ i, s.kernel.vmm.tabs (fresh i) = zeroTable)
    {l : List (Fin 1024)} (hl : l.Nodup) :
    ∃ s', copyRegions (answers fresh) dst src l s = some s' ∧ s'.phys = s.phys ∧
      s'.kernel.vmm.tabs = s.kernel.vmm.tabs ∧
      (∀ i ∉ l, (s'.kernel.vmm.dirs dst).refTables i = (s.kernel.vmm.dirs dst).refTables i ∧
        (s'.kernel.vmm.dirs dst).tables i = (s.kernel.vmm.dirs dst).tables i) ∧
      ∀ i ∈ l, s.kernel.vmm.Shared src i ∧
          (s'.kernel.vmm.dirs dst).refTables i = (s.kernel.vmm.dirs src).refTables i ∧
          (s'.kernel.vmm.dirs dst).tables i = (s.kernel.vmm.dirs src).tables i ∨
        ¬ s.kernel.vmm.Shared src i ∧ (s'.kernel.vmm.dirs dst).refTables i = fresh i := by
  induction l generalizing s with
  | nil => exact ⟨s, rfl, rfl, rfl, fun _ _ => ⟨rfl, rfl⟩, by simp⟩
  | cons i rest ih =>
    obtain ⟨hi, hrest⟩ := List.nodup_cons.mp hl
    obtain ⟨ref, entry, hround, hcase⟩ := copyRegion_cases dst src hzero i
    have hzero' : ∀ i', (s.withRegion dst i ref entry).kernel.vmm.tabs (fresh i') = zeroTable :=
      hzero
    obtain ⟨s', hloop, hphys, htabs, hout, hin⟩ := ih hzero' hrest
    -- a round writes to its own region only
    have hother : ∀ (d : U32) (j : Fin 1024), j ≠ i →
        ((s.withRegion dst i ref entry).kernel.vmm.dirs d).refTables j =
            (s.kernel.vmm.dirs d).refTables j ∧
          ((s.withRegion dst i ref entry).kernel.vmm.dirs d).tables j =
            (s.kernel.vmm.dirs d).tables j := fun d j hj => Vmm.dirs_setRegion_of_ne hj
    refine ⟨s', ?_, hphys, htabs, ?_, ?_⟩
    · rw [copyRegions, hround, Option.bind_some]
      exact hloop
    · intro j hj
      rw [List.mem_cons, not_or] at hj
      obtain ⟨h₁, h₂⟩ := hout j hj.2
      obtain ⟨h₃, h₄⟩ := hother dst j hj.1
      exact ⟨h₁.trans h₃, h₂.trans h₄⟩
    · intro j hj
      rcases List.mem_cons.mp hj with rfl | hj
      · obtain ⟨h₁, h₂⟩ := hout j hi
        have href : (s'.kernel.vmm.dirs dst).refTables j = ref :=
          h₁.trans Vmm.dirs_setRegion_self_refTables
        have hentry : (s'.kernel.vmm.dirs dst).tables j = entry :=
          h₂.trans Vmm.dirs_setRegion_self_tables
        rw [href, hentry]
        exact hcase
      · have hne : j ≠ i := fun h => hi (h ▸ hj)
        have hshared : (s.withRegion dst i ref entry).kernel.vmm.Shared src j ↔
            s.kernel.vmm.Shared src j := by
          unfold Vmm.Shared
          rw [(hother _ j hne).1, (hother src j hne).1]
          rfl
        rw [← hshared, ← (hother src j hne).1, ← (hother src j hne).2]
        exact hin j hj

/-- What a copy maps: the pages under shared tables, and nothing else. -/
theorem exists_copyPageDirectory (dst src : U32)
    (hzero : ∀ i, s.kernel.vmm.tabs (fresh i) = zeroTable) :
    ∃ s', s.copyPageDirectory (answers fresh) dst src = some s' ∧ s'.phys = s.phys ∧
      (∀ va, s.kernel.vmm.Shared src (pagedirIndex va) →
        s'.kernel.vmm.lookup dst va = s.kernel.vmm.lookup src va) ∧
      ∀ va, ¬ s.kernel.vmm.Shared src (pagedirIndex va) → s'.kernel.vmm.lookup dst va = none := by
  obtain ⟨s', hcopy, hphys, htabs, -, hin⟩ :=
    copyRegions_spec dst src hzero (List.nodup_finRange 1024)
  refine ⟨s', hcopy, hphys, ?_, ?_⟩
  · intro va hshared
    rcases hin (pagedirIndex va) (List.mem_finRange _) with ⟨-, href, hentry⟩ | ⟨hnot, -⟩
    · unfold Vmm.lookup Vmm.tableOf Vmm.entry
      rw [href, hentry, htabs]
    · exact absurd hshared hnot
  · intro va hnot
    rcases hin (pagedirIndex va) (List.mem_finRange _) with ⟨hshared, -⟩ | ⟨-, href⟩
    · exact absurd hshared hnot
    · have hentry : (s'.kernel.vmm.entry (s'.kernel.vmm.tableOf dst va) va).present = false := by
        unfold Vmm.entry Vmm.tableOf
        rw [href, htabs, hzero]
        rfl
      unfold Vmm.lookup
      rw [hentry]
      simp

/-- With page tables that come empty, `copy_page_directory` comes back, and what it makes is a copy
exactly when the source maps no page under a table of its own. -/
theorem copied_iff_shared (fresh : Fin 1024 → U32) (dst src : U32)
    (hzero : ∀ i, s.kernel.vmm.tabs (fresh i) = zeroTable) :
    ∃ s', s.copyPageDirectory (answers fresh) dst src = some s' ∧
      (Copied s s' dst src ↔ ∀ va p, s.kernel.vmm.lookup src va = some p →
        s.kernel.vmm.Shared src (pagedirIndex va)) := by
  obtain ⟨s', hcopy, -, hshared, hprivate⟩ := s.exists_copyPageDirectory dst src hzero
  refine ⟨s', hcopy, ?_, ?_⟩
  · intro h va p hp
    by_contra hnot
    have hpages := h.pages va
    rw [hprivate va hnot, hp] at hpages
    cases hpages
  · intro h
    refine ⟨?_, ?_, ?_⟩
    · intro va
      by_cases hs : s.kernel.vmm.Shared src (pagedirIndex va)
      · rw [hshared va hs]
      · have hnone : s.kernel.vmm.lookup src va = none := by
          by_contra hne
          obtain ⟨p, hp⟩ := Option.ne_none_iff_exists'.mp hne
          exact hs (h va p hp)
        rw [hprivate va hs, hnone]
    · intro va p p' hs hp hp'
      rw [hshared va hs, hp] at hp'
      cases hp'
      rfl
    · intro va p p' hs hp
      exact absurd (h va p hp) hs

/-! ## Copies of directories that share all their tables -/

/-- The state with the directory `dir` at `dst`. -/
def withDirectory (s : Physical) (dst : U32) (dir : PageDirectory) : Physical :=
  { s with
    kernel := { s.kernel with
      vmm := { s.kernel.vmm with dirs := Function.update s.kernel.vmm.dirs dst dir } } }

theorem copyRegions_of_shared (kmallocA : Fin 1024 → TableSource) (hsrc : dst ≠ src)
    (hkernel : dst ≠ s.kernel.vmm.kernelPageDir) (hshared : ∀ i, s.kernel.vmm.Shared src i)
    (l : List (Fin 1024)) :
    ∃ dir, copyRegions kmallocA dst src l s = some (s.withDirectory dst dir) ∧
      (∀ i ∈ l, dir.refTables i = (s.kernel.vmm.dirs src).refTables i ∧
        dir.tables i = (s.kernel.vmm.dirs src).tables i) ∧
      ∀ i ∉ l, dir.refTables i = (s.kernel.vmm.dirs dst).refTables i ∧
        dir.tables i = (s.kernel.vmm.dirs dst).tables i := by
  induction l generalizing s with
  | nil =>
    refine ⟨s.kernel.vmm.dirs dst, ?_, by simp, fun _ _ => ⟨rfl, rfl⟩⟩
    rw [copyRegions, withDirectory, Function.update_eq_self]
  | cons i rest ih =>
    have hround : s.copyRegion (kmallocA i) dst src i = some (s.withRegion dst i
        ((s.kernel.vmm.dirs src).refTables i) ((s.kernel.vmm.dirs src).tables i)) :=
      if_pos (hshared i)
    -- the round writes to `dst` only, which the rest of the loop does not read
    obtain ⟨s₁, hs₁⟩ : ∃ s₁, s₁ = s.withRegion dst i ((s.kernel.vmm.dirs src).refTables i)
      ((s.kernel.vmm.dirs src).tables i) := ⟨_, rfl⟩
    have hother : ∀ d, d ≠ dst → s₁.kernel.vmm.dirs d = s.kernel.vmm.dirs d := by
      rintro d hd
      rw [hs₁]
      exact Vmm.dirs_setRegion_other hd
    have hdir : s₁.kernel.vmm.kernelPageDir = s.kernel.vmm.kernelPageDir := by
      rw [hs₁]
      rfl
    have hshared₁ : ∀ j, s₁.kernel.vmm.Shared src j := by
      intro j
      unfold Vmm.Shared
      rw [hdir, hother src hsrc.symm, hother _ hkernel.symm]
      exact hshared j
    obtain ⟨dir, hloop, hin, hout⟩ := ih (s := s₁) (by rwa [hdir]) hshared₁
    rw [hother src hsrc.symm] at hin
    have hself : (s₁.kernel.vmm.dirs dst).refTables i = (s.kernel.vmm.dirs src).refTables i ∧
        (s₁.kernel.vmm.dirs dst).tables i = (s.kernel.vmm.dirs src).tables i := by
      rw [hs₁]
      exact ⟨Vmm.dirs_setRegion_self_refTables, Vmm.dirs_setRegion_self_tables⟩
    refine ⟨dir, ?_, ?_, ?_⟩
    · rw [copyRegions, hround, Option.bind_some, ← hs₁, hloop, hs₁]
      simp [withDirectory, withRegion, Vmm.setRegion]
    · intro j hj
      by_cases hrest : j ∈ rest
      · exact hin j hrest
      · obtain rfl : j = i := (List.mem_cons.mp hj).resolve_right hrest
        rw [← hself.1, ← hself.2]
        exact hout j hrest
    · intro j hj
      rw [List.mem_cons, not_or] at hj
      obtain ⟨h₁, h₂⟩ := hout j hj.2
      have hne : (s₁.kernel.vmm.dirs dst).refTables j = (s.kernel.vmm.dirs dst).refTables j ∧
          (s₁.kernel.vmm.dirs dst).tables j = (s.kernel.vmm.dirs dst).tables j := by
        rw [hs₁]
        exact Vmm.dirs_setRegion_of_ne hj.1
      exact ⟨h₁.trans hne.1, h₂.trans hne.2⟩

/-- Where all tables are shared, the copy is equal to the source, and no memory is asked for. -/
theorem copyPageDirectory_of_shared (kmallocA : Fin 1024 → TableSource) (hsrc : dst ≠ src)
    (hkernel : dst ≠ s.kernel.vmm.kernelPageDir) (hshared : ∀ i, s.kernel.vmm.Shared src i) :
    s.copyPageDirectory kmallocA dst src =
      some (s.withDirectory dst (s.kernel.vmm.dirs src)) := by
  obtain ⟨⟨tables, refTables⟩, hcopy, hall, -⟩ :=
    copyRegions_of_shared kmallocA hsrc hkernel hshared (List.finRange 1024)
  have href : refTables = (s.kernel.vmm.dirs src).refTables :=
    funext fun i => (hall i (List.mem_finRange i)).1
  have htables : tables = (s.kernel.vmm.dirs src).tables :=
    funext fun i => (hall i (List.mem_finRange i)).2
  rw [copyPageDirectory, hcopy, href, htables]

end Physical

/-- A directory at `0x9000` with a table at `0x5000`, which maps the page at `0x3000` of every
region; the kernel's directory is at `kernelDir`. -/
def oneTable (kernelDir : U32) : Physical where
  kernel := { Kernel.bare with
    vmm := { Kernel.bare.vmm with
      kernelPageDir := kernelDir
      dirs := Function.update (fun _ => zeroDirectory) 0x9000
        ⟨fun _ => ⟨true, true, true, false, 0⟩, fun _ => 0x5000⟩
      tabs := Function.update (fun _ => zeroTable) 0x5000
        fun i => ⟨i.val = 3, true, true, false, false, 7⟩ } }
  phys := fun _ => 0

/-- Tables from `0x100000` on. -/
def tablesFrom (i : Fin 1024) : U32 := 0x100000 + 4096 * BitVec.ofNat 32 i

theorem tabs_tablesFrom (kernelDir : U32) (i : Fin 1024) :
    (oneTable kernelDir).kernel.vmm.tabs (tablesFrom i) = zeroTable := by
  have hi := i.isLt
  have hne : tablesFrom i ≠ 0x5000 := by
    unfold tablesFrom
    bv_omega
  unfold oneTable
  dsimp only
  rw [Function.update_of_ne hne]

/-- A copy of the kernel's directory. -/
theorem Physical.copied_iff_shared_kernel : ∃ s', (oneTable 0x9000).copyPageDirectory
    (answers tablesFrom) 0xA000 0x9000 = some s' ∧ Copied (oneTable 0x9000) s' 0xA000 0x9000 := by
  obtain ⟨s', hcopy, hiff⟩ := copied_iff_shared tablesFrom 0xA000 0x9000 (tabs_tablesFrom 0x9000)
  exact ⟨s', hcopy, hiff.mpr fun _ _ _ => rfl⟩

/-- A copy of a directory that has the table for itself maps nothing. -/
theorem Physical.not_copied_of_own_table : ∃ s', (oneTable 0x8000).copyPageDirectory
    (answers tablesFrom) 0xA000 0x9000 = some s' ∧ ¬ Copied (oneTable 0x8000) s' 0xA000 0x9000 := by
  obtain ⟨s', hcopy, -, -, hprivate⟩ :=
    exists_copyPageDirectory 0xA000 0x9000 (tabs_tablesFrom 0x8000)
  refine ⟨s', hcopy, fun h => ?_⟩
  have hnot : ¬ (oneTable 0x8000).kernel.vmm.Shared 0x9000 (pagedirIndex 0x3000) := by
    unfold Vmm.Shared
    decide +kernel
  have hpages := h.pages 0x3000
  rw [hprivate 0x3000 hnot] at hpages
  exact absurd hpages (by decide +kernel)

end PiggyOS
