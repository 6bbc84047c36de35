import PiggyOS.Sys.Image

/-!
# Whether what `elf_relocate` writes is mapped

`elf_relocate` maps the pages of the file part of a segment, the page of its end with them, and
then writes the file part and the zeros behind it. The zeros may go on for any number of pages that
nothing has mapped.

* `WritesMapped` — the writes of a sequence of calls go to pages that are there by then
* `elfRelocate_mapped_iff` — when those of `elf_relocate` do
* `Kernel.mapped_elfCalls_iff` — what is mapped is what the memory manager has mapped
-/

namespace PiggyOS

open Infra

/-- Every address that a call writes to is on a page that is mapped when the call is made. The last
call comes first, and `pages` are mapped before the first one. -/
def WritesMapped (pages : U32 → Bool) : List ElfEffect → Prop
  | [] => True
  | e :: es =>
    (∀ x, e.Writes x → mapPages pages es (x &&& 0xfffff000) = true) ∧ WritesMapped pages es

/-- A page that begins in the zeros of the segment. -/
def ElfProgramHeader.ZeroPage (p : ElfProgramHeader) (va : U32) : Prop :=
  va.toNat % 4096 = 0 ∧ p.pVaddr.toNat + p.pFilesz.toNat < va.toNat ∧
    va.toNat < p.pVaddr.toNat + p.pMemsz.toNat

/-- The segments to be loaded are not larger in the file than in memory, and end below the
kernel. -/
def ElfSized (m : Mem) (header : U32) : Prop :=
  ∀ n < elfPhnum m header, (elfSegment m header n).pType = ptLoad →
    (elfSegment m header n).pFilesz.toNat ≤ (elfSegment m header n).pMemsz.toNat ∧
      (elfSegment m header n).pVaddr.toNat + (elfSegment m header n).pMemsz.toNat < kernBase.toNat

/-- The pages that begin in the zeros of the segments before number `k` are mapped from the
beginning or by an earlier segment. -/
def ElfZerosMapped (pages : U32 → Bool) (m : Mem) (header : U32) (k : Nat) : Prop :=
  ∀ n < k, (elfSegment m header n).pType = ptLoad → ∀ va, (elfSegment m header n).ZeroPage va →
    pages va = true ∨ ∃ j < n, (elfSegment m header j).MapsPage va

section

variable {pages : U32 → Bool} {m : Mem} {header offset va : U32} {n k : Nat} {e : ElfEffect}
  {es : List ElfEffect} {s : Relocation} {p : ElfSegment}

/-! ## One segment -/

/-- A segment that ends below the kernel passes the test. -/
theorem ElfSized.loads (h : ElfSized m header) (hn : n < elfPhnum m header)
    (htype : (elfSegment m header n).pType = ptLoad) :
    (elfSegment m header n).Loads ∧ (elfSegment m header n).Fits := by
  obtain ⟨hsize, hend⟩ := h n hn htype
  rw [kernBase_toNat] at hend
  have hfits : (elfSegment m header n).Fits := Nat.lt_trans hend (by decide)
  refine ⟨⟨htype, ElfProgramHeader.rejected_eq_false.mpr ⟨hsize, ?_⟩⟩, hfits⟩
  rw [BitVec.toNat_add, Nat.mod_eq_of_lt hfits]
  exact hend

/-- The file part lies on the pages that are mapped for it. -/
theorem page_mem_of_file (hfits : p.Fits) (hsize : p.pFilesz.toNat ≤ p.pMemsz.toNat) {x : U32}
    (hx : x - p.pVaddr < p.pFilesz) :
    x &&& 0xfffff000 ∈ regionPages p.pVaddr (p.pVaddr + p.pFilesz) := by
  unfold ElfProgramHeader.Fits at hfits
  have hmod := toNat_and_pageMask_mod x
  have hend : (p.pVaddr + p.pFilesz).toNat = p.pVaddr.toNat + p.pFilesz.toNat := by
    rw [BitVec.toNat_add, Nat.mod_eq_of_lt (by omega)]
  rw [mem_regionPages, toNat_and_pageMask x, toNat_and_pageMask p.pVaddr, toNat_and_pageMask, hend]
  have hlo : p.pVaddr.toNat ≤ x.toNat := by bv_omega
  have hhi : x.toNat < p.pVaddr.toNat + p.pFilesz.toNat := by bv_omega
  omega

/-- The zeros lie on the page of the end of the file part, and on pages that begin in them. -/
theorem zeros_mapped_iff (hfits : p.Fits) (hsize : p.pFilesz.toNat ≤ p.pMemsz.toNat) :
    (∀ x, x - (p.pVaddr + p.pFilesz) < p.pMemsz - p.pFilesz →
      x &&& 0xfffff000 ∈ regionPages p.pVaddr (p.pVaddr + p.pFilesz) ∨
        mapPages pages es (x &&& 0xfffff000) = true) ↔
      ∀ va, p.ZeroPage va → mapPages pages es va = true := by
  unfold ElfProgramHeader.Fits at hfits
  have hend : (p.pVaddr + p.pFilesz).toNat = p.pVaddr.toNat + p.pFilesz.toNat := by
    rw [BitVec.toNat_add, Nat.mod_eq_of_lt (by omega)]
  constructor
  · rintro h va ⟨hmod, hlo, hhi⟩
    have hpage : va &&& 0xfffff000 = va := by
      apply BitVec.eq_of_toNat_eq
      rw [toNat_and_pageMask]
      omega
    have hin := h va (by bv_omega)
    rw [hpage, mem_regionPages, toNat_and_pageMask, toNat_and_pageMask, hend] at hin
    refine hin.resolve_left fun hregion => ?_
    omega
  · intro h x hx
    have hlo : p.pVaddr.toNat + p.pFilesz.toNat ≤ x.toNat := by bv_omega
    have hhi : x.toNat < p.pVaddr.toNat + p.pMemsz.toNat := by bv_omega
    by_cases hsame : x.toNat / 4096 = (p.pVaddr.toNat + p.pFilesz.toNat) / 4096
    · refine Or.inl (mem_regionPages.mpr ⟨toNat_and_pageMask_mod x, ?_, ?_⟩)
      · rw [toNat_and_pageMask, toNat_and_pageMask]
        omega
      · rw [toNat_and_pageMask, toNat_and_pageMask, hend, hsame]
    · refine Or.inr (h _ ⟨toNat_and_pageMask_mod x, ?_, ?_⟩)
      · rw [toNat_and_pageMask]
        omega
      · rw [toNat_and_pageMask]
        omega

/-- The writes for a segment are mapped if the pages of its zeros are, before its turn. -/
theorem writesMapped_loaded (hfits : p.Fits) (hsize : p.pFilesz.toNat ≤ p.pMemsz.toNat) :
    WritesMapped pages (((s.mapSegment p).copySegment offset p).clearSegment p).next.effects ↔
      WritesMapped pages s.effects ∧ ∀ va, p.ZeroPage va → mapPages pages s.effects va = true := by
  have hregion : WritesMapped pages (s.mapSegment p).effects ↔ WritesMapped pages s.effects :=
    and_iff_right fun x hx => hx.elim
  have hfile : WritesMapped pages ((s.mapSegment p).copySegment offset p).effects ↔
      WritesMapped pages s.effects := by
    refine (and_iff_right fun x hx => ?_).trans hregion
    exact mapPages_cons.mpr (Or.inl (page_mem_of_file hfits hsize hx))
  have hpage : ∀ va, mapPages pages ((s.mapSegment p).copySegment offset p).effects va = true ↔
      va ∈ regionPages p.pVaddr (p.pVaddr + p.pFilesz) ∨ mapPages pages s.effects va = true :=
    fun va => (mapPages_cons.trans (or_iff_right List.not_mem_nil)).trans mapPages_cons
  rw [← zeros_mapped_iff hfits hsize, ← hfile, and_comm]
  unfold Relocation.next Relocation.clearSegment
  split
  · exact and_congr_left fun _ => forall₂_congr fun x _ => hpage _
  · next hzero =>
    refine (and_iff_right fun x hx => ?_).symm
    exact absurd hx (by bv_omega)

/-! ## The whole loop -/

/-- What the calls for the segments before number `k` amount to. -/
structure MappedUpTo (pages : U32 → Bool) (m : Mem) (header : U32) (k : Nat) (s : Relocation) :
    Prop where
  writes : WritesMapped pages s.effects ↔ ElfZerosMapped pages m header k
  pages : ∀ va, mapPages pages s.effects va = true ↔
    pages va = true ∨ ∃ n < k, (elfSegment m header n).MapsPage va

theorem MappedUpTo.start : MappedUpTo pages m header 0 (.start m) := by
  refine ⟨iff_of_true trivial fun n hn => absurd hn (Nat.not_lt_zero n), fun va => ?_⟩
  rw [mapPages_eq_true]
  refine or_congr_right (iff_of_false ?_ ?_)
  · rintro ⟨e, he, -⟩
    exact List.not_mem_nil he
  · rintro ⟨n, hn, -⟩
    exact Nat.not_lt_zero n hn

theorem elfZerosMapped_succ : ElfZerosMapped pages m header (k + 1) ↔
    ElfZerosMapped pages m header k ∧ ((elfSegment m header k).pType = ptLoad →
      ∀ va, (elfSegment m header k).ZeroPage va →
        pages va = true ∨ ∃ j < k, (elfSegment m header j).MapsPage va) :=
  Nat.forall_lt_succ_right

theorem MappedUpTo.skip (h : MappedUpTo pages m header k s)
    (htype : (elfSegment m header k).pType ≠ ptLoad) :
    MappedUpTo pages m header (k + 1) s.next := by
  refine ⟨?_, fun va => ?_⟩
  · rw [elfZerosMapped_succ, ← h.writes]
    exact (and_iff_left fun ht => absurd ht htype).symm
  · rw [show s.next.effects = s.effects from rfl, h.pages, Nat.exists_lt_succ_right]
    exact or_congr_right (or_iff_left fun hmap => htype hmap.1).symm

theorem MappedUpTo.load (h : MappedUpTo pages m header k s) (hsized : ElfSized m header)
    (hk : k < elfPhnum m header) (htype : (elfSegment m header k).pType = ptLoad) :
    MappedUpTo pages m header (k + 1)
      (((s.mapSegment (elfSegment m header k)).copySegment offset
        (elfSegment m header k)).clearSegment (elfSegment m header k)).next := by
  obtain ⟨hloads, hfits⟩ := hsized.loads hk htype
  refine ⟨?_, fun va => ?_⟩
  · rw [writesMapped_loaded hfits (hsized k hk htype).1, elfZerosMapped_succ, h.writes]
    simp only [h.pages, htype, true_imp_iff]
  · rw [mapPages_eq_true, Relocation.pages_loaded, Nat.exists_lt_succ_right,
      ElfProgramHeader.mapsPage_iff hloads, or_left_comm, ← mapPages_eq_true, h.pages]
    exact or_comm.trans or_assoc

/-- The loop has come to some header, or it has returned at the end of the table. -/
inductive Mapping (pages : U32 → Bool) (m : Mem) (header : U32) (s : Relocation) : Prop
  | reading (h : Relocation.Reading m header s) (hmapped : MappedUpTo pages m header s.i.toNat s)
  | done (hstatus : s.status = .returned 0)
      (hmapped : MappedUpTo pages m header (elfPhnum m header) s)

theorem Mapping.round (h : Mapping pages m header s) (hs : s.status = .running)
    (ht : ElfTableInKernel m header) (hsized : ElfSized m header) :
    Mapping pages m header (s.round header offset) := by
  cases h with
  | done hstatus _ =>
    rw [hs] at hstatus
    cases hstatus
  | reading h hmapped =>
    rcases h.round_of_fits offset ht (fun _ => hsized.loads) with
      ⟨hi, hread, hnext, hround⟩ | ⟨hlast, hround⟩
    · refine .reading hread ?_
      rw [hnext]
      rcases hround with ⟨htype, heq⟩ | ⟨htype, heq⟩
      · rw [heq]
        exact hmapped.skip htype
      · rw [heq]
        exact hmapped.load hsized hi htype
    · rw [hround]
      rw [hlast] at hmapped
      exact .done rfl ⟨hmapped.writes, hmapped.pages⟩

end

/-! ## The memory manager -/

namespace Vmm

variable {v : Vmm} {dir va va₀ table frame : U32} {isKernel isWritable : Bool}

/-- An entry that is filled is one page more. -/
theorem mapped_fillEntry_iff (hdistinct : v.TablesDistinct dir) (hne : table ≠ 0)
    (htable : v.tableOf dir va₀ = table) :
    (v.fillEntry table (pagetblIndex va₀) frame isKernel isWritable).Mapped dir va ↔
      v.Mapped dir va ∨ va.toNat / 4096 = va₀.toNat / 4096 := by
  subst htable
  constructor
  · rintro ⟨htable, hpresent⟩
    rw [tableOf_fillEntry] at htable hpresent
    refine or_iff_not_imp_right.mpr fun hne => ⟨htable, ?_⟩
    refine (congrArg Page.present (v.tabs_fillEntry_of_ne _ _ _ _ _ ?_)).symm.trans hpresent
    rintro ⟨hsame, hidx⟩
    exact hne (page_eq_iff.mp ⟨hdistinct _ _ htable hsame, hidx⟩)
  · rintro (h | hpage)
    · exact h.fillEntry _ _ _ _ _
    · exact (mapped_fillEntry _ _ _ hne).of_page hpage

/-- A new table has no pages. -/
theorem mapped_installTable_iff (hnone : v.tableOf dir va₀ = 0)
    (hfresh : ∀ i, (v.dirs dir).refTables i ≠ table) :
    (v.installTable dir (pagedirIndex va₀) table isKernel isWritable).Mapped dir va ↔
      v.Mapped dir va := by
  refine ⟨?_, fun h => h.installTable _ _ hnone hfresh⟩
  rintro ⟨htable, hpresent⟩
  by_cases hidx : pagedirIndex va = pagedirIndex va₀
  · rw [tableOf, refTables_installTable, hidx, Function.update_self, entry,
      tabs_installTable_self] at hpresent
    cases hpresent
  · rw [tableOf, refTables_installTable, Function.update_of_ne hidx] at htable hpresent
    refine ⟨htable, ?_⟩
    rwa [entry, tabs_installTable_of_ne _ _ _ _ _ _ (hfresh _)] at hpresent

end Vmm

namespace Kernel

/-- Every table that the heap answers with is one that the directory does not use. -/
def FreshTablesFor (dir : U32) (kmallocA : TableSource) : Prop :=
  ∀ k k' table, kmallocA k sizeofPageTable = some (k', table) →
    k'.vmm = k.vmm ∧ k'.heap.kheapEnabled = k.heap.kheapEnabled ∧ table ≠ 0 ∧
      ∀ i, (k.vmm.dirs dir).refTables i ≠ table

/-- The calls of `elf_relocate` as the memory manager sees them, the last one first. What is written
below the kernel does not reach the page tables. -/
def elfCalls (kmallocA : TableSource) (k : Kernel) : List ElfEffect → Option Kernel
  | [] => some k
  | .allocateRegion startVa endVa :: es => (elfCalls kmallocA k es).bind fun k =>
    k.allocateRegion kmallocA k.vmm.currentPageDir startVa endVa false false true
  | _ :: es => elfCalls kmallocA k es

/-- The heap is in use, and `dir` is the current directory and no two of its regions share a
table. -/
structure Maps (dir : U32) (k : Kernel) : Prop where
  current : k.vmm.currentPageDir = dir
  nonzero : dir ≠ 0
  distinct : k.vmm.TablesDistinct dir
  enabled : k.heap.kheapEnabled = true

variable {kmallocA : TableSource} {k k' : Kernel} {dir va va₀ startVa endVa frame : U32}
  {isKernel isWritable : Bool} {es : List ElfEffect}

theorem Maps.allocatePage (h : Maps dir k) (hsource : FreshTablesFor dir kmallocA)
    (hk : k.allocatePage kmallocA dir va₀ frame isKernel isWritable = some k') :
    Maps dir k' ∧ ∀ va, k'.vmm.Mapped dir va ↔
      k.vmm.Mapped dir va ∨ va.toNat / 4096 = va₀.toNat / 4096 := by
  rcases allocatePage_cases hk with ⟨hdir, -⟩ | ⟨-, ht, rfl⟩ | ⟨-, ht, k₁, table, hnew, rfl⟩
  · exact absurd hdir h.nonzero
  · refine ⟨⟨?_, h.nonzero, h.distinct.of_dirs (Vmm.dirs_fillEntry ..), h.enabled⟩, fun va => ?_⟩
    · exact (Vmm.currentPageDir_fillEntry ..).trans h.current
    · exact Vmm.mapped_fillEntry_iff h.distinct ht rfl
  · rw [newTable_of_enabled h.enabled] at hnew
    obtain ⟨hvmm, henabled, hne, hfresh⟩ := hsource k k₁ table hnew
    obtain ⟨hcurrent, hdir, hdistinct, hheap⟩ := h
    rw [← hvmm] at hcurrent hdistinct ht hfresh ⊢
    have hinst : (k₁.vmm.installTable dir (pagedirIndex va₀) table isKernel
        isWritable).TablesDistinct dir := hdistinct.installTable _ _ _ hfresh
    refine ⟨⟨?_, hdir, hinst.of_dirs (Vmm.dirs_fillEntry ..), henabled.trans hheap⟩, fun va => ?_⟩
    · exact (Vmm.currentPageDir_fillEntry ..).trans hcurrent
    · rw [← Vmm.mapped_installTable_iff ht hfresh]
      exact Vmm.mapped_fillEntry_iff hinst hne (Vmm.tableOf_installTable_self ..)

theorem Maps.foldlM_allocatePage (h : Maps dir k) (hsource : FreshTablesFor dir kmallocA)
    {vas : List U32} (hk : vas.foldlM (fun k va => k.allocatePage kmallocA dir va frame isKernel
      isWritable) k = some k') :
    Maps dir k' ∧ ∀ va, k'.vmm.Mapped dir va ↔
      k.vmm.Mapped dir va ∨ ∃ va₀ ∈ vas, va.toNat / 4096 = va₀.toNat / 4096 := by
  induction vas generalizing k with
  | nil =>
    obtain rfl := Option.some.inj hk
    exact ⟨h, fun va => by simp⟩
  | cons va₀ vas ih =>
    rw [List.foldlM_cons] at hk
    obtain ⟨k₁, hk₁, hrest⟩ := Option.bind_eq_some_iff.mp hk
    obtain ⟨h₁, hmapped₁⟩ := h.allocatePage hsource hk₁
    obtain ⟨h', hmapped⟩ := ih h₁ hrest
    refine ⟨h', fun va => ?_⟩
    rw [hmapped, hmapped₁, or_assoc, List.exists_mem_cons_iff]

/-- `allocate_region`, if it comes back, maps the pages of the region. -/
theorem Maps.allocateRegion (h : Maps dir k) (hsource : FreshTablesFor dir kmallocA)
    (hk : k.allocateRegion kmallocA dir startVa endVa false isKernel isWritable = some k') :
    Maps dir k' ∧ ∀ va, k'.vmm.Mapped dir va ↔
      k.vmm.Mapped dir va ∨ va &&& 0xfffff000 ∈ regionPages startVa endVa := by
  cases hend : regionEnds endVa with
  | false =>
    rw [allocateRegion_eq_none hend] at hk
    cases hk
  | true =>
    rw [allocateRegion_eq_foldlM hend] at hk
    obtain ⟨h', hmapped⟩ := h.foldlM_allocatePage hsource hk
    refine ⟨h', fun va => (hmapped va).trans (or_congr_right ?_)⟩
    constructor
    · rintro ⟨va₀, hmem, hpage⟩
      have hmod := (mem_regionPages.mp hmem).1
      have heq : va &&& 0xfffff000 = va₀ := by
        apply BitVec.eq_of_toNat_eq
        rw [toNat_and_pageMask]
        omega
      rwa [heq]
    · intro hmem
      refine ⟨_, hmem, ?_⟩
      rw [toNat_and_pageMask]
      omega

/-- After the calls of `elf_relocate` the memory manager has mapped what `mapPages` says. -/
theorem mapped_elfCalls_iff (h : Maps dir k) (hsource : FreshTablesFor dir kmallocA)
    {pages : U32 → Bool} (hpages : ∀ va, k.vmm.Mapped dir va ↔ pages (va &&& 0xfffff000) = true)
    (hk : elfCalls kmallocA k es = some k') :
    Maps dir k' ∧ ∀ va, k'.vmm.Mapped dir va ↔ mapPages pages es (va &&& 0xfffff000) = true := by
  induction es generalizing k' with
  | nil =>
    obtain rfl := Option.some.inj hk
    exact ⟨h, fun va => by rw [hpages, mapPages_nil]⟩
  | cons e es ih =>
    -- a call that maps nothing
    have hsame (he : e.pages = []) (hk : elfCalls kmallocA k es = some k') : Maps dir k' ∧
        ∀ va, k'.vmm.Mapped dir va ↔ mapPages pages (e :: es) (va &&& 0xfffff000) = true := by
      obtain ⟨h', hmapped⟩ := ih hk
      refine ⟨h', fun va => (hmapped va).trans ?_⟩
      rw [mapPages_cons, he]
      simp
    cases e with
    | memcpy dest src count => exact hsame rfl hk
    | memset a n => exact hsame rfl hk
    | allocateRegion startVa endVa =>
      obtain ⟨k₁, hk₁, hregion⟩ := Option.bind_eq_some_iff.mp hk
      obtain ⟨h₁, hmapped₁⟩ := ih hk₁
      rw [h₁.current] at hregion
      obtain ⟨h', hmapped⟩ := h₁.allocateRegion hsource hregion
      refine ⟨h', fun va => ?_⟩
      rw [hmapped, hmapped₁, mapPages_cons]
      exact or_comm

/-- A write of `elf_relocate` that `WritesMapped` speaks of goes to a page of the directory. -/
theorem mapped_of_writesMapped (h : Maps dir k) (hsource : FreshTablesFor dir kmallocA)
    {pages : U32 → Bool} (hpages : ∀ va, k.vmm.Mapped dir va ↔ pages (va &&& 0xfffff000) = true)
    {later : List ElfEffect} {e : ElfEffect} (hwrites : WritesMapped pages (later ++ e :: es))
    (hk : elfCalls kmallocA k es = some k') : ∀ x, e.Writes x → k'.vmm.Mapped dir x := by
  intro x hx
  refine ((mapped_elfCalls_iff h hsource hpages hk).2 x).mpr ?_
  induction later with
  | nil => exact hwrites.1 x hx
  | cons _ later ih => exact ih hwrites.2

end Kernel

end PiggyOS
