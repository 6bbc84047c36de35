import PiggyOS.Sys.Relocate

/-!
# What `elf_relocate` loads

For a program whose segments are apart and below the kernel, and whose headers and contents are in
the buffer, the loop over the headers leaves each segment where it belongs and nothing else.
-/

namespace PiggyOS

open Infra

/-- The address `x` is in the segment. -/
def ElfProgramHeader.Has (p : ElfProgramHeader) (x : U32) : Prop := x - p.pVaddr < p.pMemsz

instance (p : ElfProgramHeader) (x : U32) : Decidable (p.Has x) :=
  inferInstanceAs (Decidable (_ < _))

/-- A program of `len` bytes in kernel memory. -/
structure ElfImage (m : Mem) (buffer : U32) (len : Nat) : Prop where
  kernel : kernelHalf.Covers buffer.toNat len
  fields : 52 ≤ len
  table : ∀ n < elfPhnum m buffer,
    (m.read32 (buffer + 28)).toNat + n * (m.read16 (buffer + 42)).toNat + 32 ≤ len
  file : ∀ n < elfPhnum m buffer, (elfSegment m buffer n).pType = ptLoad →
    (elfSegment m buffer n).pOffset.toNat + (elfSegment m buffer n).pFilesz.toNat ≤ len
  size : ∀ n < elfPhnum m buffer, (elfSegment m buffer n).pType = ptLoad →
    (elfSegment m buffer n).pFilesz.toNat ≤ (elfSegment m buffer n).pMemsz.toNat
  below : ∀ n < elfPhnum m buffer, (elfSegment m buffer n).pType = ptLoad →
    (elfSegment m buffer n).pVaddr.toNat + (elfSegment m buffer n).pMemsz.toNat < kernBase.toNat
  apart : ∀ n < elfPhnum m buffer, ∀ n' < elfPhnum m buffer, n ≠ n' →
    (elfSegment m buffer n).pType = ptLoad → (elfSegment m buffer n').pType = ptLoad →
    ∀ x, (elfSegment m buffer n).Has x → ¬ (elfSegment m buffer n').Has x

namespace ElfImage

variable {m : Mem} {buffer : U32} {len n : Nat}

/-- The headers of the image do not wrap around. -/
theorem toNat_getProgramHeader (h : ElfImage m buffer len) (hn : n < elfPhnum m buffer) :
    (elfGetProgramHeader m buffer (BitVec.ofNat 32 n)).toNat =
      buffer.toNat + ((m.read32 (buffer + 28)).toNat + n * (m.read16 (buffer + 42)).toNat) := by
  have hend := h.table n hn
  have hlen := h.kernel.2
  have hfits := kernelHalf.fits
  have hn16 := Nat.lt_trans hn (Relocation.elfPhnum_lt m buffer)
  unfold elfGetProgramHeader
  rw [BitVec.toNat_add, BitVec.toNat_add, BitVec.toNat_mul, BitVec.toNat_ofNat,
    BitVec.toNat_setWidth, Nat.mod_eq_of_lt (show n < 2 ^ 32 by omega),
    Nat.mod_eq_of_lt (show (m.read16 (buffer + 42)).toNat < 2 ^ 32 by
      have := (m.read16 (buffer + 42)).isLt
      omega)]
  rw [Nat.mod_eq_of_lt (show n * (m.read16 (buffer + 42)).toNat < 2 ^ 32 by omega),
    Nat.mod_eq_of_lt (show buffer.toNat + (m.read32 (buffer + 28)).toNat < 2 ^ 32 by omega),
    Nat.mod_eq_of_lt (by omega)]
  omega

theorem tableInKernel (h : ElfImage m buffer len) : ElfTableInKernel m buffer := by
  have hlo := h.kernel.1
  have hhi := h.kernel.2
  have hfields := h.fields
  refine ⟨⟨hlo, by omega⟩, fun n hn => ?_⟩
  have hend := h.table n hn
  rw [h.toNat_getProgramHeader hn]
  exact ⟨by omega, by omega⟩

theorem loads (h : ElfImage m buffer len) (hn : n < elfPhnum m buffer)
    (htype : (elfSegment m buffer n).pType = ptLoad) :
    (elfSegment m buffer n).Loads ∧ (elfSegment m buffer n).Fits := by
  have hbelow := h.below n hn htype
  rw [kernBase_toNat] at hbelow
  have hfits : (elfSegment m buffer n).Fits := Nat.lt_trans hbelow (by decide)
  refine ⟨⟨htype, ElfProgramHeader.rejected_eq_false.mpr ⟨h.size n hn htype, ?_⟩⟩, hfits⟩
  rw [BitVec.toNat_add, Nat.mod_eq_of_lt hfits]
  exact hbelow

end ElfImage

/-! ## One segment -/

namespace Relocation

variable {s : Relocation} {p : ElfSegment} {buffer offset x : U32} {m : Mem} {len : Nat}

theorem mem_clearSegment : (s.clearSegment p).mem x =
    if x - (p.pVaddr + p.pFilesz) < p.pMemsz - p.pFilesz then 0 else s.mem x := by
  unfold clearSegment
  split
  · exact Mem.fill_apply (p.pMemsz - p.pFilesz).isLt
  · next hzero => rw [if_neg (by bv_omega)]

/-- The segment is loaded, as far as its own bytes go. -/
structure Loaded (m : Mem) (buffer : U32) (p : ElfSegment) (m' : Mem) : Prop where
  file : ∀ x, x - p.pVaddr < p.pFilesz → m' x = m (buffer + p.pOffset + (x - p.pVaddr))
  zero : ∀ x, ¬ x - p.pVaddr < p.pFilesz → p.Has x → m' x = 0

/-- A segment that is not written to stays as it is. -/
theorem Loaded.congr {m' m'' : Mem} (h : Loaded m buffer p m')
    (hsize : p.pFilesz.toNat ≤ p.pMemsz.toNat) (hsame : ∀ x, p.Has x → m'' x = m' x) :
    Loaded m buffer p m'' := by
  refine ⟨fun x hx => ?_, fun x hx hhas => ?_⟩
  · rw [hsame x (Nat.lt_of_lt_of_le hx hsize), h.file x hx]
  · rw [hsame x hhas, h.zero x hx hhas]

/-- The `memcpy` and the `memset` for a segment whose bytes are in the buffer. -/
theorem loaded_segment (hloads : p.Loads) (hfits : p.Fits)
    (hbuffer : kernelHalf.Covers buffer.toNat len)
    (hfile : p.pOffset.toNat + p.pFilesz.toNat ≤ len) (hsame : Mem.SameOn kernelHalf m s.mem) :
    Loaded m buffer p (((s.mapSegment p).copySegment buffer p).clearSegment p).next.mem ∧
      ∀ x, ¬ p.Has x →
        (((s.mapSegment p).copySegment buffer p).clearSegment p).next.mem x = s.mem x := by
  obtain ⟨hsize, hend⟩ := ElfProgramHeader.rejected_eq_false.mp hloads.2
  have hlo : 0xc0000000 ≤ buffer.toNat := hbuffer.1
  have hhi : buffer.toNat + len ≤ 2 ^ 32 := hbuffer.2
  unfold ElfProgramHeader.Fits at hfits
  -- the source is above the kernel's base and the destination below it
  have hsrc : p.pFilesz.toNat ≤ (p.pVaddr - (buffer + p.pOffset)).toNat := by bv_omega
  have hmem : ∀ x, (((s.mapSegment p).copySegment buffer p).clearSegment p).next.mem x =
      if x - (p.pVaddr + p.pFilesz) < p.pMemsz - p.pFilesz then 0
      else if (x - p.pVaddr).toNat < p.pFilesz.toNat then
        s.mem (buffer + p.pOffset + (x - p.pVaddr))
      else s.mem x := by
    intro x
    show (((s.mapSegment p).copySegment buffer p).clearSegment p).mem x = _
    rw [mem_clearSegment]
    exact congrArg (ite _ _) (Mem.copy_apply hsrc)
  refine ⟨⟨fun x hx => ?_, fun x hx hhas => ?_⟩, fun x hx => ?_⟩
  · rw [hmem, if_neg (by bv_omega), if_pos (show (x - p.pVaddr).toNat < p.pFilesz.toNat from hx)]
    refine hsame _ (kernelHalf_covers.mpr ?_)
    rw [BitVec.lt_def, kernBase_toNat]
    bv_omega
  · rw [hmem, if_pos]
    unfold ElfProgramHeader.Has at hhas
    bv_omega
  · unfold ElfProgramHeader.Has at hx
    rw [hmem, if_neg (by bv_omega), if_neg (by bv_omega)]

/-- The pages of the calls for a segment. -/
theorem pages_loaded {va : U32} :
    (∃ e ∈ (((s.mapSegment p).copySegment offset p).clearSegment p).next.effects, va ∈ e.pages) ↔
      va ∈ regionPages p.pVaddr (p.pVaddr + p.pFilesz) ∨ ∃ e ∈ s.effects, va ∈ e.pages := by
  have hclear : ∀ s : Relocation, (∃ e ∈ (s.clearSegment p).next.effects, va ∈ e.pages) ↔
      ∃ e ∈ s.effects, va ∈ e.pages := by
    intro s
    unfold next clearSegment
    split
    · exact List.exists_mem_cons_iff .. |>.trans (or_iff_right List.not_mem_nil)
    · rfl
  rw [hclear]
  exact (List.exists_mem_cons_iff ..).trans ((or_iff_right List.not_mem_nil).trans
    (List.exists_mem_cons_iff ..))

end Relocation

theorem ElfProgramHeader.mapsPage_iff {p : ElfProgramHeader} {va : U32} (h : p.Loads) :
    p.MapsPage va ↔ va ∈ regionPages p.pVaddr (p.pVaddr + p.pFilesz) := by
  have hmod : va &&& 0xfff = 0 ↔ va.toNat % 4096 = 0 := by
    rw [← pageframeIndex_toNat]
    exact ⟨fun h => congrArg BitVec.toNat h, fun h => BitVec.eq_of_toNat_eq h⟩
  rw [mem_regionPages, ← hmod]
  exact ⟨fun hmap => ⟨hmap.2.2.1, hmap.2.2.2.1, hmap.2.2.2.2⟩,
    fun hmap => ⟨h.1, h.2, hmap.1, hmap.2.1, hmap.2.2⟩⟩

/-! ## The whole program -/

namespace Relocation

variable {m : Mem} {buffer : U32} {len : Nat} {s : Relocation}

/-- The segments before number `k` have been loaded, and nothing else. -/
structure LoadedUpTo (m : Mem) (buffer : U32) (k : Nat) (s : Relocation) : Prop where
  inside : ∀ n < k, (elfSegment m buffer n).pType = ptLoad →
    Loaded m buffer (elfSegment m buffer n) s.mem
  outside : ∀ x,
    (∀ n < k, (elfSegment m buffer n).pType = ptLoad → ¬ (elfSegment m buffer n).Has x) →
    s.mem x = m x
  pages : ∀ va, (∃ e ∈ s.effects, va ∈ e.pages) ↔ ∃ n < k, (elfSegment m buffer n).MapsPage va

/-- A header of another type has no effect. -/
theorem LoadedUpTo.skip {k : Nat} (h : LoadedUpTo m buffer k s)
    (htype : (elfSegment m buffer k).pType ≠ ptLoad) : LoadedUpTo m buffer (k + 1) s.next where
  inside := fun n hn ht => by
    rcases Nat.lt_or_eq_of_le (Nat.le_of_lt_succ hn) with hlt | rfl
    · exact h.inside n hlt ht
    · exact absurd ht htype
  outside := fun x hx => h.outside x fun n hn => hx n (Nat.lt_succ_of_lt hn)
  pages := fun va => by
    rw [show s.next.effects = s.effects from rfl, h.pages, Nat.exists_lt_succ_right]
    exact (or_iff_left fun hmap => htype hmap.1).symm

theorem LoadedUpTo.load {k : Nat} (h : LoadedUpTo m buffer k s) (himage : ElfImage m buffer len)
    (hk : k < elfPhnum m buffer) (hsame : Mem.SameOn kernelHalf m s.mem)
    (htype : (elfSegment m buffer k).pType = ptLoad) :
    LoadedUpTo m buffer (k + 1)
      (((s.mapSegment (elfSegment m buffer k)).copySegment buffer
        (elfSegment m buffer k)).clearSegment (elfSegment m buffer k)).next := by
  obtain ⟨hloads, hfits⟩ := himage.loads hk htype
  obtain ⟨hnew, hold⟩ := loaded_segment hloads hfits himage.kernel (himage.file k hk htype) hsame
  refine ⟨fun n hn ht => ?_, fun x hx => ?_, fun va => ?_⟩
  · rcases Nat.lt_or_eq_of_le (Nat.le_of_lt_succ hn) with hlt | rfl
    · have hn' : n < elfPhnum m buffer := Nat.lt_trans hlt hk
      refine (h.inside n hlt ht).congr (himage.size n hn' ht) fun x hx => hold x ?_
      exact himage.apart n hn' k hk (Nat.ne_of_lt hlt) ht htype x hx
    · exact hnew
  · rw [hold x (hx k (Nat.lt_succ_self k) htype)]
    exact h.outside x fun n hn => hx n (Nat.lt_succ_of_lt hn)
  · rw [pages_loaded, h.pages, Nat.exists_lt_succ_right, ElfProgramHeader.mapsPage_iff hloads]
    exact or_comm

/-- The loop has come to some header, or it has returned 0 at the end of the table. -/
inductive Loading (m : Mem) (buffer : U32) (s : Relocation) : Prop
  | reading (h : Reading m buffer s) (hloaded : LoadedUpTo m buffer s.i.toNat s)
  | done (hstatus : s.status = .returned 0) (hloaded : LoadedUpTo m buffer (elfPhnum m buffer) s)

theorem Loading.round (h : Loading m buffer s) (hs : s.status = .running)
    (himage : ElfImage m buffer len) : Loading m buffer (s.round buffer buffer) := by
  have ht := himage.tableInKernel
  cases h with
  | done hstatus _ =>
    rw [hs] at hstatus
    cases hstatus
  | reading h hloaded =>
    rcases h.round_of_fits buffer ht (fun _ => himage.loads) with
      ⟨hi, hread, hnext, hround⟩ | ⟨hlast, hround⟩
    · refine .reading hread ?_
      rw [hnext]
      rcases hround with ⟨htype, heq⟩ | ⟨htype, heq⟩
      · rw [heq]
        exact hloaded.skip htype
      · rw [heq]
        exact hloaded.load himage hi h.same htype
    · rw [hround]
      rw [hlast] at hloaded
      exact .done rfl ⟨hloaded.inside, hloaded.outside, hloaded.pages⟩

theorem Loading.start (m : Mem) (buffer : U32) : Loading m buffer (.start m) := by
  refine .reading (.start m buffer)
    ⟨fun n hn => absurd hn (Nat.not_lt_zero n), fun x _ => rfl, fun va => ?_⟩
  refine iff_of_false ?_ ?_
  · rintro ⟨e, he, -⟩
    exact List.not_mem_nil he
  · rintro ⟨n, hn, -⟩
    exact Nat.not_lt_zero n hn

end Relocation

theorem loading_of_elfRelocate {m : Mem} {buffer : U32} {len : Nat} {t : Relocation}
    (himage : ElfImage m buffer len) (hloop : elfRelocate m buffer buffer = some t) :
    Relocation.Loading m buffer t ∧ t.status ≠ .running :=
  elfRelocate_invariant (.start m buffer) (fun _ hs hrun => hs.round hrun himage) hloop

/-- A program is loaded: its segments are in memory, everything else is as before, and what is
mapped are the pages of its segments. -/
theorem elfRelocate_loads {m : Mem} {buffer : U32} {len : Nat} (himage : ElfImage m buffer len) :
    ∃ t, elfRelocate m buffer buffer = some t ∧ t.status = .returned 0 ∧
      (∀ n < elfPhnum m buffer, (elfSegment m buffer n).pType = ptLoad →
        (∀ k < (elfSegment m buffer n).pFilesz.toNat,
          t.mem ((elfSegment m buffer n).pVaddr + BitVec.ofNat 32 k) =
            m (buffer + (elfSegment m buffer n).pOffset + BitVec.ofNat 32 k)) ∧
        ∀ k < (elfSegment m buffer n).pMemsz.toNat, (elfSegment m buffer n).pFilesz.toNat ≤ k →
          t.mem ((elfSegment m buffer n).pVaddr + BitVec.ofNat 32 k) = 0) ∧
      (∀ x, (∀ n < elfPhnum m buffer, (elfSegment m buffer n).pType = ptLoad →
        ¬ (elfSegment m buffer n).Has x) → t.mem x = m x) ∧
      ∀ va, (∃ e ∈ t.effects, va ∈ e.pages) ↔
        ∃ n < elfPhnum m buffer, (elfSegment m buffer n).MapsPage va := by
  obtain ⟨t, hloop, -⟩ := elfRelocate_total m buffer buffer
  obtain ⟨hloading, hexit⟩ := loading_of_elfRelocate himage hloop
  refine ⟨t, hloop, ?_⟩
  cases hloading with
  | reading h _ => exact absurd h.status hexit
  | done hstatus hloaded =>
    refine ⟨hstatus, fun n hn htype => ?_, hloaded.outside, hloaded.pages⟩
    generalize hp : elfSegment m buffer n = p
    have hsegment := hloaded.inside n hn htype
    rw [hp] at hsegment
    -- the byte number `k` of the segment
    have hoff : ∀ k < 2 ^ 32, (p.pVaddr + BitVec.ofNat 32 k - p.pVaddr).toNat = k :=
      fun k hk => Mem.toNat_offset hk
    refine ⟨fun k hk => ?_, fun k hk hge => ?_⟩
    · have hk32 : k < 2 ^ 32 := Nat.lt_trans hk p.pFilesz.isLt
      have hhas : (p.pVaddr + BitVec.ofNat 32 k - p.pVaddr).toNat < p.pFilesz.toNat := by
        rw [hoff k hk32]
        exact hk
      rw [hsegment.file _ hhas, BitVec.add_comm p.pVaddr, BitVec.add_sub_cancel]
    · have hk32 : k < 2 ^ 32 := Nat.lt_trans hk p.pMemsz.isLt
      have hhas : (p.pVaddr + BitVec.ofNat 32 k - p.pVaddr).toNat < p.pMemsz.toNat := by
        rw [hoff k hk32]
        exact hk
      refine hsegment.zero _ (fun hlt => ?_) hhas
      have hlt : (p.pVaddr + BitVec.ofNat 32 k - p.pVaddr).toNat < p.pFilesz.toNat := hlt
      rw [hoff k hk32] at hlt
      omega

/-! ## A program -/

/-- Four bytes at 4 MB and four zeros behind. -/
def textSegment : ElfSegment := ⟨⟨ptLoad, 0x400000, 4, 8⟩, 148⟩

/-- `PT_NOTE` -/
def noteSegment : ElfSegment := ⟨⟨4, 0, 4, 4⟩, 148⟩

/-- Two bytes a page further on, and zeros up to the end of the third page. -/
def dataSegment : ElfSegment := ⟨⟨ptLoad, 0x401000, 2, 0x3000⟩, 152⟩

/-- A program of 154 bytes. -/
def programFile : List (BitVec 8) :=
  elfFile [textSegment, noteSegment, dataSegment] [1, 2, 3, 4, 5, 6]

/-- The program in a buffer of the heap. -/
def programMemory : Mem := Mem.write (fun _ => 0) 0xc0500000 programFile

/-- The headers of the program, wherever they are read. -/
def ProgramHeaders (phnum : Nat) (segment : Nat → ElfSegment) : Prop :=
  phnum = 3 ∧ segment 0 = textSegment ∧ segment 1 = noteSegment ∧ segment 2 = dataSegment

/-- What holds of the three segments. -/
theorem ProgramHeaders.forall {phnum : Nat} {segment : Nat → ElfSegment}
    {P : Nat → ElfSegment → Prop} (h : ProgramHeaders phnum segment) (htext : P 0 textSegment)
    (hnote : P 1 noteSegment) (hdata : P 2 dataSegment) : ∀ n < phnum, P n (segment n) := by
  obtain ⟨rfl, h0, h1, h2⟩ := h
  intro n hn
  obtain rfl | rfl | rfl : n = 0 ∨ n = 1 ∨ n = 2 := by omega
  · exact h0 ▸ htext
  · exact h1 ▸ hnote
  · exact h2 ▸ hdata

theorem elfHeaders_program :
    ProgramHeaders (elfPhnum programMemory 0xc0500000) (elfSegment programMemory 0xc0500000) := by
  unfold ProgramHeaders
  decide +kernel

/-- Where the segments to be loaded are, in the file and in memory. -/
theorem elfPlaces_program : ∀ n < elfPhnum programMemory 0xc0500000,
    (elfSegment programMemory 0xc0500000 n).pType = ptLoad →
      (elfSegment programMemory 0xc0500000 n).pOffset.toNat +
          (elfSegment programMemory 0xc0500000 n).pFilesz.toNat ≤ 154 ∧
        (elfSegment programMemory 0xc0500000 n).pFilesz.toNat ≤
          (elfSegment programMemory 0xc0500000 n).pMemsz.toNat ∧
        (elfSegment programMemory 0xc0500000 n).pVaddr.toNat +
          (elfSegment programMemory 0xc0500000 n).pMemsz.toNat < kernBase.toNat :=
  elfHeaders_program.forall (P := fun _ p => p.pType = ptLoad →
      p.pOffset.toNat + p.pFilesz.toNat ≤ 154 ∧ p.pFilesz.toNat ≤ p.pMemsz.toNat ∧
        p.pVaddr.toNat + p.pMemsz.toNat < kernBase.toNat)
    (by decide) (by decide) (by decide)

theorem not_has_data {x : U32} (h : textSegment.Has x) : ¬ dataSegment.Has x := by
  have hlo : (x - 0x400000).toNat < 8 := h
  intro hdata
  have hhi : (x - 0x401000).toNat < 0x3000 := hdata
  bv_omega

theorem elfImage_program : ElfImage programMemory 0xc0500000 154 where
  kernel := by decide
  fields := by decide
  table := by decide +kernel
  file := fun n hn hload => (elfPlaces_program n hn hload).1
  size := fun n hn hload => (elfPlaces_program n hn hload).2.1
  below := fun n hn hload => (elfPlaces_program n hn hload).2.2
  apart := by
    refine elfHeaders_program.forall (P := fun n p => ∀ n' < elfPhnum programMemory 0xc0500000,
      n ≠ n' → p.pType = ptLoad → (elfSegment programMemory 0xc0500000 n').pType = ptLoad →
      ∀ x, p.Has x → ¬ (elfSegment programMemory 0xc0500000 n').Has x) ?_ ?_ ?_
    · refine elfHeaders_program.forall (P := fun n' p => 0 ≠ n' → textSegment.pType = ptLoad →
        p.pType = ptLoad → ∀ x, textSegment.Has x → ¬ p.Has x) ?_ ?_ ?_
      · exact fun hne => absurd rfl hne
      · exact fun _ _ hload => absurd hload (by decide)
      · exact fun _ _ _ x => not_has_data
    · exact fun n' hn' hne hload => absurd hload (by decide)
    · refine elfHeaders_program.forall (P := fun n' p => 2 ≠ n' → dataSegment.pType = ptLoad →
        p.pType = ptLoad → ∀ x, dataSegment.Has x → ¬ p.Has x) ?_ ?_ ?_
      · exact fun _ _ _ x hx htext => not_has_data htext hx
      · exact fun _ _ hload => absurd hload (by decide)
      · exact fun hne => absurd rfl hne

/-- Both segments are in memory, with their zeros, and the note is not. -/
theorem elfRelocate_loads_program : ∃ t,
    elfRelocate programMemory 0xc0500000 0xc0500000 = some t ∧ t.status = .returned 0 ∧
      t.mem 0x400002 = 3 ∧ t.mem 0x400004 = 0 ∧ t.mem 0x401001 = 6 ∧ t.mem 0x403fff = 0 ∧
      t.mem 0 = programMemory 0 := by
  obtain ⟨hphnum, h0, h1, h2⟩ := elfHeaders_program
  obtain ⟨t, ht, hstatus, hinside, hrest, -⟩ := elfRelocate_loads elfImage_program
  have htext := hinside 0 (by omega)
  rw [h0] at htext
  obtain ⟨hfile, hzero⟩ := htext rfl
  have hdata := hinside 2 (by omega)
  rw [h2] at hdata
  obtain ⟨hfile', hzero'⟩ := hdata rfl
  refine ⟨t, ht, hstatus, (hfile 2 (by decide)).trans (by decide +kernel), hzero 4 (by decide)
    (by decide), (hfile' 1 (by decide)).trans (by decide +kernel),
    hzero' 0x2fff (by decide) (by decide), hrest 0 ?_⟩
  refine elfHeaders_program.forall (P := fun _ p => p.pType = ptLoad → ¬ p.Has 0) ?_ ?_ ?_
  · exact fun _ h => absurd h (by decide)
  · exact fun h => absurd h (by decide)
  · exact fun _ h => absurd h (by decide)

end PiggyOS
