import PiggyOS.Sys.Loader

/-!
# Where `elf_relocate` writes

The test of `elf_relocate` for a segment adds two 32-bit numbers. A segment that passes it stays
below the kernel unless the sum has wrapped around, and one whose sum has wrapped around does not.
-/

namespace PiggyOS

open Infra

/-- The addresses from `KERN_BASE` on. -/
def kernelHalf : Region := ⟨kernBase, 0x40000000, by decide⟩

theorem kernelHalf_covers {x : U32} : kernelHalf.Covers x.toNat 1 ↔ ¬ x < kernBase := by
  show 0xc0000000 ≤ x.toNat ∧ x.toNat + 1 ≤ 0xc0000000 + 0x40000000 ↔ ¬ x.toNat < 0xc0000000
  have := x.isLt
  omega

/-- What `elf_relocate` reads of the headers lies in kernel memory. -/
structure ElfTableInKernel (m : Mem) (header : U32) : Prop where
  fields : kernelHalf.Covers header.toNat 46
  table : ∀ n < elfPhnum m header,
    kernelHalf.Covers (elfGetProgramHeader m header (BitVec.ofNat 32 n)).toNat 24

section

variable {m m' : Mem} {header : U32} {n : Nat}

theorem elfSegmentAt_congr {r : Region} {a : U32} (h : Mem.SameOn r m m')
    (ha : r.Covers a.toNat 24) : elfSegmentAt m' a = elfSegmentAt m a := by
  unfold elfSegmentAt
  have h0 : r.Covers a.toNat 4 := ⟨ha.1, by have := ha.2; omega⟩
  rw [h.read32 h0, h.read32 (ha.add (k := 4) (l := 4) (by decide) (by decide)),
    h.read32 (ha.add (k := 8) (l := 4) (by decide) (by decide)),
    h.read32 (ha.add (k := 16) (l := 4) (by decide) (by decide)),
    h.read32 (ha.add (k := 20) (l := 4) (by decide) (by decide))]

namespace ElfTableInKernel

variable (h : ElfTableInKernel m header) (hsame : Mem.SameOn kernelHalf m m')

include h hsame

theorem phnum : elfPhnum m' header = elfPhnum m header := by
  unfold elfPhnum
  rw [hsame.read16 (h.fields.add (k := 44) (l := 2) (by decide) (by decide))]

theorem getProgramHeader (num : U32) :
    elfGetProgramHeader m' header num = elfGetProgramHeader m header num := by
  unfold elfGetProgramHeader
  rw [hsame.read32 (h.fields.add (k := 28) (l := 4) (by decide) (by decide)),
    hsame.read16 (h.fields.add (k := 42) (l := 2) (by decide) (by decide))]

theorem segmentAt (hn : n < elfPhnum m header) :
    elfSegmentAt m' (elfGetProgramHeader m header (BitVec.ofNat 32 n)) = elfSegment m header n :=
  elfSegmentAt_congr hsame (h.table n hn)

end ElfTableInKernel

end

/-! ## One segment -/

namespace ElfProgramHeader

variable (p : ElfProgramHeader)

/-- The segment is to be loaded and passes the test. -/
def Loads : Prop := p.pType = ptLoad ∧ p.rejected = false

/-- The segment is to be loaded and does not pass the test. -/
def Fails : Prop := p.pType = ptLoad ∧ p.rejected = true

/-- The end of the segment is an address. -/
def Fits : Prop := p.pVaddr.toNat + p.pMemsz.toNat < 2 ^ 32

variable {p}

theorem Loads.not_fails (h : p.Loads) : ¬ p.Fails :=
  fun hf => Bool.false_ne_true (h.2.symm.trans hf.2)

theorem rejected_eq_false : p.rejected = false ↔
    p.pFilesz.toNat ≤ p.pMemsz.toNat ∧ (p.pVaddr + p.pMemsz).toNat < 0xc0000000 := by
  unfold rejected
  rw [Bool.or_eq_false_iff, decide_eq_false_iff_not, decide_eq_false_iff_not, BitVec.lt_def,
    BitVec.le_def, kernBase_toNat]
  omega

/-- A segment that passes the test and does not wrap around stays below the kernel. -/
theorem Loads.below (h : p.Loads) (hfits : p.Fits) :
    regionEnds (p.pVaddr + p.pFilesz) = true ∧
      (ElfEffect.allocateRegion p.pVaddr (p.pVaddr + p.pFilesz)).Below ∧
      (∀ src, (ElfEffect.memcpy p.pVaddr src p.pFilesz).Below) ∧
      (ElfEffect.memset (p.pVaddr + p.pFilesz) (p.pMemsz - p.pFilesz)).Below := by
  obtain ⟨hsize, hend⟩ := rejected_eq_false.mp h.2
  unfold Fits at hfits
  have hmem : (p.pVaddr + p.pMemsz).toNat = p.pVaddr.toNat + p.pMemsz.toNat := by
    rw [BitVec.toNat_add, Nat.mod_eq_of_lt hfits]
  have hfile : (p.pVaddr + p.pFilesz).toNat = p.pVaddr.toNat + p.pFilesz.toNat := by
    rw [BitVec.toNat_add, Nat.mod_eq_of_lt (by omega)]
  have hmask := toNat_and_pageMask (p.pVaddr + p.pFilesz)
  refine ⟨?_, ⟨fun va hva => ?_, fun x hx => hx.elim⟩,
    fun src => ⟨fun va hva => ?_, fun x hx => ?_⟩,
    ⟨fun va hva => ?_, fun x hx => ?_⟩⟩
  · refine decide_eq_true fun hlast => ?_
    rw [hlast] at hmask
    have : (0xfffff000 : U32).toNat = 0xfffff000 := rfl
    omega
  · obtain ⟨-, -, hle⟩ := mem_regionPages.mp hva
    rw [BitVec.lt_def, kernBase_toNat]
    omega
  · cases hva
  · have hx : x - p.pVaddr < p.pFilesz := hx
    rw [BitVec.lt_def, kernBase_toNat]
    bv_omega
  · cases hva
  · have hx : x - (p.pVaddr + p.pFilesz) < p.pMemsz - p.pFilesz := hx
    rw [BitVec.lt_def, kernBase_toNat]
    bv_omega

/-- The pages of a segment for which `allocate_region` does not come back. -/
theorem not_below_of_hangs (h : regionEnds (p.pVaddr + p.pFilesz) = false) :
    ¬ (ElfEffect.allocateRegion p.pVaddr (p.pVaddr + p.pFilesz)).Below := by
  intro hbelow
  have hlast : (p.pVaddr + p.pFilesz) &&& 0xfffff000 = 0xfffff000 :=
      not_not.mp (of_decide_eq_false h)
  have hmem : (0xfffff000 : U32) ∈ regionPages p.pVaddr (p.pVaddr + p.pFilesz) := by
    rw [mem_regionPages, hlast]
    refine ⟨by decide, ?_, Nat.le_refl _⟩
    rw [toNat_and_pageMask]
    show _ ≤ 0xfffff000
    have := p.pVaddr.isLt
    omega
  exact absurd (hbelow.pages _ hmem) (by decide)

/-- A segment that wraps around covers the last byte of the address space: its `memcpy` writes it,
or its `memset`. -/
theorem Loads.not_below (h : p.Loads) (hfits : ¬ p.Fits) {src : U32}
    (hcopy : (ElfEffect.memcpy p.pVaddr src p.pFilesz).Below) :
    p.pMemsz - p.pFilesz > 0 ∧
      ¬ (ElfEffect.memset (p.pVaddr + p.pFilesz) (p.pMemsz - p.pFilesz)).Below := by
  obtain ⟨hsize, -⟩ := rejected_eq_false.mp h.2
  unfold Fits at hfits
  have hfile : ¬ (0xffffffff : U32) - p.pVaddr < p.pFilesz := fun hx =>
    absurd (hcopy.writes _ hx) (by decide)
  constructor
  · bv_omega
  · intro hset
    have hx : (0xffffffff : U32) - (p.pVaddr + p.pFilesz) < p.pMemsz - p.pFilesz := by bv_omega
    exact absurd (hset.writes _ hx) (by decide)

end ElfProgramHeader

/-! ## A round -/

namespace Relocation

variable {s : Relocation} {offset a header : U32} {p : ElfSegment} {e : ElfEffect} {m : Mem}

theorem effects_clearSegment : s.effects ⊆ (s.clearSegment p).effects := by
  unfold clearSegment
  split
  · exact List.subset_cons_self ..
  · exact List.Subset.refl _

theorem mem_effects_loadSegment (h : e ∈ s.effects) : e ∈ (s.loadSegment offset a).effects := by
  unfold loadSegment
  dsimp only
  split
  · exact effects_clearSegment (List.mem_cons_of_mem _ (List.mem_cons_of_mem _ h))
  · exact List.mem_cons_of_mem _ h

/-- No call is forgotten. -/
theorem mem_effects_round (h : e ∈ s.effects) : e ∈ (s.round header offset).effects := by
  unfold round
  split
  · split
    · exact h
    · split
      · exact h
      · exact mem_effects_loadSegment h
  · exact h

/-- A `memcpy` that stays below the kernel. -/
theorem sameOn_copySegment
    (h : (ElfEffect.memcpy p.pVaddr (offset + p.pOffset) p.pFilesz).Below) :
    Mem.SameOn kernelHalf s.mem (s.copySegment offset p).mem := by
  intro x hx
  have hout : ¬ x - p.pVaddr < p.pFilesz := fun hlt => kernelHalf_covers.mp hx (h.writes x hlt)
  exact Mem.copy_of_le (Nat.le_of_not_lt hout)

/-- A `memset` that stays below the kernel. -/
theorem sameOn_clearSegment
    (h : (ElfEffect.memset (p.pVaddr + p.pFilesz) (p.pMemsz - p.pFilesz)).Below) :
    Mem.SameOn kernelHalf s.mem (s.clearSegment p).mem := by
  intro x hx
  unfold clearSegment
  split
  · have hout : ¬ x - (p.pVaddr + p.pFilesz) < p.pMemsz - p.pFilesz :=
      fun hlt => kernelHalf_covers.mp hx (h.writes x hlt)
    show s.mem.fill _ 0 _ x = s.mem x
    rw [Mem.fill_apply (p.pMemsz - p.pFilesz).isLt]
    exact if_neg hout
  · rfl

/-- The effects of a segment, when its header is where no `memcpy` of it goes. -/
theorem loadSegment_eq (hp : elfSegmentAt s.mem a = p) (ha : kernelHalf.Covers a.toNat 24)
    (hends : regionEnds (p.pVaddr + p.pFilesz) = true)
    (hcopy : (ElfEffect.memcpy p.pVaddr (offset + p.pOffset) p.pFilesz).Below) :
    s.loadSegment offset a =
      (((s.mapSegment p).copySegment offset p).clearSegment p).next := by
  have hagain : elfSegmentAt ((s.mapSegment p).copySegment offset p).mem a = p :=
    (elfSegmentAt_congr (sameOn_copySegment (s := s.mapSegment p) hcopy) ha).trans hp
  rw [loadSegment_of_ends hp hends, finishSegment, hagain]

/-- A segment that stays below the kernel is loaded. -/
theorem loadSegment_of_fits (offset : U32) (hp : elfSegmentAt s.mem a = p)
    (ha : kernelHalf.Covers a.toNat 24) (hloads : p.Loads) (hfits : p.Fits) :
    s.loadSegment offset a =
      (((s.mapSegment p).copySegment offset p).clearSegment p).next ∧
      Mem.SameOn kernelHalf s.mem (s.loadSegment offset a).mem ∧
      ∀ e ∈ (s.loadSegment offset a).effects, e ∈ s.effects ∨ e.Below := by
  obtain ⟨hends, hregion, hcopy, hset⟩ := hloads.below hfits
  have heq := loadSegment_eq hp ha hends (hcopy (offset + p.pOffset))
  refine ⟨heq, ?_, ?_⟩
  · rw [heq]
    exact (sameOn_copySegment (s := s.mapSegment p) (hcopy _)).trans (sameOn_clearSegment hset)
  · intro e he
    rw [heq] at he
    have he' : e = .memset (p.pVaddr + p.pFilesz) (p.pMemsz - p.pFilesz) ∨
        e ∈ ((s.mapSegment p).copySegment offset p).effects := by
      unfold next clearSegment at he
      split at he
      · exact List.mem_cons.mp he
      · exact Or.inr he
    rcases he' with rfl | he
    · exact Or.inr hset
    · rcases List.mem_cons.mp he with rfl | he
      · exact Or.inr (hcopy _)
      · rcases List.mem_cons.mp he with rfl | he
        · exact Or.inr hregion
        · exact Or.inl he

/-- A segment that wraps around reaches into the kernel. -/
theorem loadSegment_of_not_fits (hp : elfSegmentAt s.mem a = p) (ha : kernelHalf.Covers a.toNat 24)
    (hloads : p.Loads) (hfits : ¬ p.Fits) :
    ∃ e ∈ (s.loadSegment offset a).effects, ¬ e.Below := by
  cases hends : regionEnds (p.pVaddr + p.pFilesz) with
  | false =>
    rw [loadSegment_of_hangs hp hends]
    exact ⟨_, List.mem_cons_self, ElfProgramHeader.not_below_of_hangs hends⟩
  | true =>
    by_cases hcopy : (ElfEffect.memcpy p.pVaddr (offset + p.pOffset) p.pFilesz).Below
    · obtain ⟨hpos, hset⟩ := hloads.not_below hfits hcopy
      rw [loadSegment_eq hp ha hends hcopy, clearSegment, if_pos hpos]
      exact ⟨_, List.mem_cons_self, hset⟩
    · rw [loadSegment_of_ends hp hends]
      exact ⟨_, effects_clearSegment List.mem_cons_self, hcopy⟩

end Relocation

/-! ## The whole loop -/

/-- The loop comes to the header number `n`: no header before it has failed. -/
def ElfReaches (m : Mem) (header : U32) (n : Nat) : Prop :=
  n < elfPhnum m header ∧ ∀ j < n, ¬ (elfSegment m header j).Fails

/-- Every segment that `elf_relocate` comes to and loads ends below 4 GB. -/
def ElfFits (m : Mem) (header : U32) : Prop :=
  ∀ n, ElfReaches m header n → (elfSegment m header n).Loads → (elfSegment m header n).Fits

namespace Relocation

variable {m : Mem} {header offset : U32} {s : Relocation}

/-- The loop is at the header `s.i`, and all went well so far. -/
structure Reading (m : Mem) (header : U32) (s : Relocation) : Prop where
  status : s.status = .running
  bound : s.i.toNat ≤ elfPhnum m header
  same : Mem.SameOn kernelHalf m s.mem
  before : ∀ j < s.i.toNat, ¬ (elfSegment m header j).Fails ∧
    ((elfSegment m header j).Loads → (elfSegment m header j).Fits)
  below : ∀ e ∈ s.effects, e.Below

/-- What is known of the loop after some rounds. -/
inductive Stage (m : Mem) (header : U32) (s : Relocation) : Prop
  | reading (h : Reading m header s)
  | done (hstatus : s.status ≠ .running) (hbelow : ∀ e ∈ s.effects, e.Below)
      (hfits : ElfFits m header)
  | broken (hbelow : ∃ e ∈ s.effects, ¬ e.Below) (hfits : ¬ ElfFits m header)

theorem Reading.start (m : Mem) (header : U32) : Reading m header (.start m) :=
  ⟨rfl, Nat.zero_le _, Mem.SameOn.refl _ _, fun j hj => absurd hj (Nat.not_lt_zero j),
    fun _ he => absurd he List.not_mem_nil⟩

namespace Reading

variable (h : Reading m header s)

include h

theorem pheader_eq (ht : ElfTableInKernel m header) :
    s.pheader header = elfGetProgramHeader m header (BitVec.ofNat 32 s.i.toNat) := by
  rw [BitVec.ofNat_toNat, BitVec.setWidth_eq]
  exact ht.getProgramHeader h.same s.i

/-- Where the next header is, and what it is. -/
theorem segment (ht : ElfTableInKernel m header) (hi : s.i.toNat < elfPhnum m header) :
    kernelHalf.Covers (s.pheader header).toNat 24 ∧
      elfSegmentAt s.mem (s.pheader header) = elfSegment m header s.i.toNat := by
  rw [h.pheader_eq ht]
  exact ⟨ht.table _ hi, ht.segmentAt h.same hi⟩

theorem reaches (hi : s.i.toNat < elfPhnum m header) : ElfReaches m header s.i.toNat :=
  ⟨hi, fun j hj => (h.before j hj).1⟩

/-- Headers that the loop comes to are behind it, or this is the last one. -/
theorem fits_of_stop (hstop : ∀ n, ElfReaches m header n → n ≤ s.i.toNat)
    (hlast : (elfSegment m header s.i.toNat).Loads → ElfReaches m header s.i.toNat →
      (elfSegment m header s.i.toNat).Fits) : ElfFits m header := by
  intro n hn hloads
  rcases Nat.lt_or_eq_of_le (hstop n hn) with hlt | rfl
  · exact (h.before n hlt).2 hloads
  · exact hlast hloads hn

/-- The round for a header that does not stop the loop. -/
theorem advance {t : Relocation} (hi : s.i.toNat < elfPhnum m header)
    (hstatus : t.status = s.status) (hnext : t.i = s.i + 1)
    (hsame : Mem.SameOn kernelHalf s.mem t.mem)
    (hbelow : ∀ e ∈ t.effects, e ∈ s.effects ∨ e.Below)
    (hfails : ¬ (elfSegment m header s.i.toNat).Fails)
    (hfits : (elfSegment m header s.i.toNat).Loads → (elfSegment m header s.i.toNat).Fits) :
    Reading m header t := by
  have hnat : t.i.toNat = s.i.toNat + 1 :=
    (congrArg BitVec.toNat hnext).trans (toNat_i_add_one hi)
  refine ⟨hstatus.trans h.status, by omega, h.same.trans hsame, fun j hj => ?_, fun e he => ?_⟩
  · rcases Nat.lt_or_eq_of_le (Nat.le_of_lt_succ (hnat ▸ hj)) with hlt | rfl
    · exact h.before j hlt
    · exact ⟨hfails, hfits⟩
  · exact (hbelow e he).elim (h.below e) id

/-- A round, when all segments to be loaded pass the test and fit: a header of another type, a
segment that is loaded, or the end of the table. -/
theorem round_of_fits (offset : U32) (ht : ElfTableInKernel m header)
    (hall : ∀ n < elfPhnum m header, (elfSegment m header n).pType = ptLoad →
      (elfSegment m header n).Loads ∧ (elfSegment m header n).Fits) :
    (s.i.toNat < elfPhnum m header ∧ Reading m header (s.round header offset) ∧
      (s.round header offset).i.toNat = s.i.toNat + 1 ∧
      ((elfSegment m header s.i.toNat).pType ≠ ptLoad ∧ s.round header offset = s.next ∨
        (elfSegment m header s.i.toNat).pType = ptLoad ∧ s.round header offset =
          (((s.mapSegment (elfSegment m header s.i.toNat)).copySegment offset
            (elfSegment m header s.i.toNat)).clearSegment
            (elfSegment m header s.i.toNat)).next)) ∨
      s.i.toNat = elfPhnum m header ∧ s.round header offset = { s with status := .returned 0 } := by
  have hphnum := ht.phnum h.same
  by_cases hi : s.i.toNat < elfPhnum m header
  · obtain ⟨hat, hp⟩ := h.segment ht hi
    have hi' : s.i.toNat < elfPhnum s.mem header := hphnum ▸ hi
    have hnext := toNat_i_add_one hi
    refine Or.inl ⟨hi, ?_⟩
    by_cases htype : (elfSegment m header s.i.toNat).pType = ptLoad
    · obtain ⟨hloads, hfits⟩ := hall _ hi htype
      rw [round_of_accepted hi' hp htype hloads.2]
      obtain ⟨heq, hsame, hbelow⟩ := loadSegment_of_fits offset hp hat hloads hfits
      have hi_eq : (s.loadSegment offset (s.pheader header)).i = s.i + 1 := by
        rw [heq]
        exact congrArg (· + 1) i_clearSegment
      refine ⟨h.advance hi ?_ hi_eq hsame hbelow hloads.not_fails fun _ => hfits, ?_,
        Or.inr ⟨htype, heq⟩⟩
      · rw [heq]
        exact status_clearSegment
      · rw [hi_eq, hnext]
    · rw [round_of_other hi' hp htype]
      exact ⟨h.advance hi rfl rfl (Mem.SameOn.refl _ _) (fun e he => Or.inl he)
        (fun hf => htype hf.1) fun hl => absurd hl.1 htype, hnext, Or.inl ⟨htype, rfl⟩⟩
  · have hi' : ¬ s.i.toNat < elfPhnum s.mem header := hphnum ▸ hi
    exact Or.inr ⟨Nat.le_antisymm h.bound (Nat.le_of_not_lt hi), round_of_end hi'⟩

theorem round (ht : ElfTableInKernel m header) : Stage m header (s.round header offset) := by
  have hphnum := ht.phnum h.same
  by_cases hi : s.i.toNat < elfPhnum m header
  · obtain ⟨hat, hp⟩ := h.segment ht hi
    have hi' : s.i.toNat < elfPhnum s.mem header := hphnum ▸ hi
    by_cases htype : (elfSegment m header s.i.toNat).pType = ptLoad
    · cases hrej : (elfSegment m header s.i.toNat).rejected with
      | true =>
        rw [round_of_rejected hi' hp htype hrej]
        refine .done (by exact ElfStatus.noConfusion) h.below (h.fits_of_stop (fun n hn => ?_) ?_)
        · refine Nat.le_of_not_lt fun hlt => ?_
          exact hn.2 _ hlt ⟨htype, hrej⟩
        · exact fun hloads => absurd ⟨htype, hrej⟩ hloads.not_fails
      | false =>
        rw [round_of_accepted hi' hp htype hrej]
        have hloads : (elfSegment m header s.i.toNat).Loads := ⟨htype, hrej⟩
        by_cases hfits : (elfSegment m header s.i.toNat).Fits
        · obtain ⟨heq, hsame, hbelow⟩ := loadSegment_of_fits offset hp hat hloads hfits
          refine .reading (h.advance hi ?_ ?_ hsame hbelow hloads.not_fails fun _ => hfits)
          · rw [heq]
            exact status_clearSegment
          · rw [heq]
            exact congrArg (· + 1) i_clearSegment
        · refine .broken (loadSegment_of_not_fits hp hat hloads hfits) fun hall => ?_
          exact hfits (hall _ (h.reaches hi) hloads)
    · rw [round_of_other hi' hp htype]
      exact .reading (h.advance hi rfl rfl (Mem.SameOn.refl _ _) (fun e he => Or.inl he)
        (fun hf => htype hf.1) fun hl => absurd hl.1 htype)
  · have hi' : ¬ s.i.toNat < elfPhnum s.mem header := hphnum ▸ hi
    rw [round_of_end hi']
    refine .done (by exact ElfStatus.noConfusion) h.below (h.fits_of_stop (fun n hn => ?_) ?_)
    · exact Nat.le_of_lt (Nat.lt_of_lt_of_le hn.1 (Nat.le_of_not_lt hi))
    · exact fun _ hreach => absurd hreach.1 hi

end Reading

theorem Stage.round (h : Stage m header s) (hs : s.status = .running)
    (ht : ElfTableInKernel m header) : Stage m header (s.round header offset) := by
  cases h with
  | reading h => exact h.round ht
  | done hstatus _ _ => exact absurd hs hstatus
  | broken hbelow hfits =>
    obtain ⟨e, he, hnot⟩ := hbelow
    exact .broken ⟨e, mem_effects_round he, hnot⟩ hfits

end Relocation

def le16 (v : BitVec 16) : List (BitVec 8) := [v.extractLsb' 0 8, v.extractLsb' 8 8]

def le32 (v : U32) : List (BitVec 8) :=
  [v.extractLsb' 0 8, v.extractLsb' 8 8, v.extractLsb' 16 8, v.extractLsb' 24 8]

/-- A program header as it is in a file. -/
def elfSegmentBytes (p : ElfSegment) : List (BitVec 8) :=
  le32 p.pType ++ le32 p.pOffset ++ le32 p.pVaddr ++ le32 0 ++ le32 p.pFilesz ++ le32 p.pMemsz ++
    le32 7 ++ le32 0x1000

/-- A program with the headers `ps` right behind the ELF header. -/
def elfFile (ps : List ElfSegment) (data : List (BitVec 8)) : List (BitVec 8) :=
  [0x7f, 0x45, 0x4c, 0x46, 1, 1, 1, 0, 0, 0, 0, 0, 0, 0, 0, 0] ++ le16 etExec ++ le16 3 ++ le32 1 ++
    le32 0x400000 ++ le32 52 ++ le32 0 ++ le32 0 ++ le16 52 ++ le16 32 ++
    le16 (BitVec.ofNat 16 ps.length) ++ le16 0 ++ le16 0 ++ le16 0 ++ ps.flatMap elfSegmentBytes ++
    data

end PiggyOS
