import PiggyOS.Infra.Traced
import PiggyOS.Sys.Image

/-!
# What `elf_load` reads

Nothing in `elf.c` compares an offset with the length of the file. The functions are given once
more with every read of the headers and of the segments made in its place; without the log of the
reads they are those of `Loader`. Whether the reads stay in the file can be seen in the file.

* `elfLoad_eq_traced` — the reads are those of `elf_load`
* `readsOnlyFile_iff` — which files are read only where they are
-/

namespace PiggyOS

open Infra

/-! ## The functions with their reads -/

/-- `elf_check_header` -/
def elfCheckHeaderTraced (m : Mem) (header : U32) : Traced (BitVec 8) := do
  let mag0 ← m.byte header
  if mag0 ≠ 0x7f then return 0 else
  let mag1 ← m.byte (header + 1)
  if mag1 ≠ 0x45 then return 0 else
  let mag2 ← m.byte (header + 2)
  if mag2 ≠ 0x4c then return 0 else
  let mag3 ← m.byte (header + 3)
  if mag3 ≠ 0x46 then return 0 else
  let eiClass ← m.byte (header + 4)
  if eiClass ≠ 1 then return 0 else
  let eiData ← m.byte (header + 5)
  if eiData ≠ 1 then return 0 else
  let eiVersion ← m.byte (header + 6)
  if eiVersion ≠ 1 then return 0 else
  let eMachine ← m.half (header + 18)
  if eMachine ≠ 3 then return 0 else
  let eType ← m.half (header + 16)
  if eType = etRel then return -1 else
  let eType ← m.half (header + 16)
  if eType ≠ etExec then return 0 else return -1

/-- `elf_get_program_header` -/
def elfGetProgramHeaderTraced (m : Mem) (header num : U32) : Traced U32 := do
  let phoff ← m.word (header + 28)
  let phentsize ← m.half (header + 42)
  return header + phoff + num * phentsize.setWidth 32

/-- The test of `elf_relocate` for the program header at `a`. -/
def elfRejectedTraced (m : Mem) (a : U32) : Traced Bool := do
  let memsz ← m.word (a + 20)
  let filesz ← m.word (a + 16)
  if memsz < filesz then return true else
  let vaddr ← m.word (a + 8)
  let memsz ← m.word (a + 20)
  return kernBase ≤ vaddr + memsz

namespace Relocation

/-- The `memset` of a round. -/
def finishSegmentTraced (s : Relocation) (a : U32) : Traced Relocation := do
  let memsz ← s.mem.word (a + 20)
  let filesz ← s.mem.word (a + 16)
  if memsz - filesz > 0 then
    let vaddr ← s.mem.word (a + 8)
    let filesz ← s.mem.word (a + 16)
    let memsz ← s.mem.word (a + 20)
    return (s.memset (vaddr + filesz) (memsz - filesz)).next
  else return s.next

/-- `memcpy`, which reads its source. -/
def memcpyTraced (s : Relocation) (dest src count : U32) : Traced Relocation :=
  readAt src count.toNat (s.memcpy dest src count)

/-- The calls of a round for the program header at `a`, from `kprintf` on. -/
def loadSegmentTraced (s : Relocation) (offset a : U32) : Traced Relocation := do
  let _ ← s.mem.word (a + 4)
  let vaddr ← s.mem.word (a + 8)
  let _ ← s.mem.word (a + 20)
  let filesz ← s.mem.word (a + 16)
  let s := { s with effects := .allocateRegion vaddr (vaddr + filesz) :: s.effects }
  if regionEnds (vaddr + filesz) then
    let vaddr ← s.mem.word (a + 8)
    let pOffset ← s.mem.word (a + 4)
    let filesz ← s.mem.word (a + 16)
    let s ← s.memcpyTraced vaddr (offset + pOffset) filesz
    s.finishSegmentTraced a
  else return { s with status := .hangs }

/-- One round of the loop, with the test before it. -/
def roundTraced (header offset : U32) (s : Relocation) : Traced Relocation := do
  let phnum ← s.mem.half (header + 44)
  if s.i.toNat < phnum.toNat then
    let a ← elfGetProgramHeaderTraced s.mem header s.i
    let type ← s.mem.word a
    if type ≠ ptLoad then return s.next else
    let rejected ← elfRejectedTraced s.mem a
    if rejected then return { s with status := .returned (-1) } else
    s.loadSegmentTraced offset a
  else return { s with status := .returned 0 }

end Relocation

/-- `elf_relocate` -/
def elfRelocateTraced (m : Mem) (header offset : U32) : Option (Traced Relocation) :=
  loop (fun t : Traced Relocation => t.val.status = .running)
    (fun t => some (t >>= Relocation.roundTraced header offset)) (2 ^ 16 + 1) (pure (.start m))

/-- `elf_load` of the file with the bytes `bs`: what `elf_check_header` answers and the state that
`elf_relocate` ends in. -/
def elfLoadTraced (m : Mem) (bs : List (BitVec 8)) (buffer : U32) :
    Option (Traced (BitVec 8 × Relocation)) :=
  (elfRelocateTraced (m.write buffer bs) buffer buffer).map fun relocate => do
    let ok ← elfCheckHeaderTraced (m.write buffer bs) buffer
    let s ← relocate
    return (ok, s)

section

variable {m : Mem} {header offset a : U32} {s : Relocation}

theorem val_elfCheckHeaderTraced (m : Mem) (header : U32) :
    (elfCheckHeaderTraced m header).val = elfCheckHeader m header := by
  unfold elfCheckHeaderTraced elfCheckHeader
  simp only [Traced.val_bind, Traced.val_ite, Traced.val_pure]
  simp only [Mem.val_byte, Mem.val_half]
  grind

theorem val_elfRejectedTraced (m : Mem) (a : U32) :
    (elfRejectedTraced m a).val = (elfSegmentAt m a).rejected := by
  unfold elfRejectedTraced ElfProgramHeader.rejected
  simp only [Traced.val_bind, Traced.val_ite, Traced.val_pure]
  show (if m.read32 (a + 20) < m.read32 (a + 16) then true else _) =
    (decide (m.read32 (a + 20) < m.read32 (a + 16)) || _)
  split
  · next h => rw [decide_eq_true h, Bool.true_or]
  · next h => rw [decide_eq_false h, Bool.false_or]; rfl

namespace Relocation

theorem val_finishSegmentTraced (s : Relocation) (a : U32) :
    (s.finishSegmentTraced a).val = s.finishSegment a := by
  unfold finishSegmentTraced finishSegment clearSegment
  simp only [Traced.val_bind, Traced.val_ite, Traced.val_pure]
  rw [apply_ite next]
  rfl

theorem val_loadSegmentTraced (s : Relocation) (offset a : U32) :
    (s.loadSegmentTraced offset a).val = s.loadSegment offset a := by
  unfold loadSegmentTraced loadSegment memcpyTraced
  simp only [Traced.val_bind, Traced.val_ite, Traced.val_pure, val_finishSegmentTraced]
  rfl

/-- Without the log of its reads this is the round. -/
theorem val_roundTraced (header offset : U32) (s : Relocation) :
    (s.roundTraced header offset).val = s.round header offset := by
  unfold roundTraced round elfGetProgramHeaderTraced
  simp only [Traced.val_bind, Traced.val_ite, Traced.val_pure, val_loadSegmentTraced]
  simp only [val_elfRejectedTraced]
  rfl

end Relocation

theorem map_val_elfRelocateTraced (m : Mem) (header offset : U32) :
    (elfRelocateTraced m header offset).map Traced.val = elfRelocate m header offset := by
  refine map_loop Traced.val (fun s : Relocation => decide (s.status = .running))
    (fun s : Relocation => some (s.round header offset)) (fun _ => rfl) (fun t => ?_) _ _
  exact congrArg some (Relocation.val_roundTraced header offset t.val).symm

/-- The reads are those of the function that loads the file. -/
theorem elfLoad_eq_traced (m : Mem) (bs : List (BitVec 8)) (buffer : U32) :
    elfLoad m (some bs) buffer = (elfLoadTraced m bs buffer).bind fun t =>
      match t.val.2.status with
      | .returned r => some ⟨t.val.2.mem, t.val.2.effects,
          if r ≠ 0 then -1 else if t.val.1 = 0 then -1 else 0⟩
      | _ => none := by
  unfold elfLoad elfLoadTraced
  dsimp only
  rw [← map_val_elfRelocateTraced, Option.bind_map, Option.bind_map]
  congr 1
  funext t
  show _ = match t.val.status with
    | .returned r => some (ElfLoaded.mk t.val.mem t.val.effects
        (if r ≠ 0 then -1 else if (elfCheckHeaderTraced (m.write buffer bs) buffer).val = 0 then -1
          else 0))
    | _ => none
  rw [val_elfCheckHeaderTraced]
  rfl

end

/-! ## Files -/

/-- The segment is copied: it is to be loaded, it passes the test, and the loop over its pages comes
to an end. -/
def ElfProgramHeader.Copied (p : ElfProgramHeader) : Prop :=
  p.Loads ∧ regionEnds (p.pVaddr + p.pFilesz) = true

/-- The segment covers no byte of the buffer. -/
def ElfProgramHeader.Spares (p : ElfProgramHeader) (buffer : U32) (len : Nat) : Prop :=
  ∀ x : U32, (x - buffer).toNat < len → ¬ p.Has x

/-- What is read for the segment is among the first `len` bytes, when its header is at the offset
`o`. -/
structure ElfSegment.ReadInside (p : ElfSegment) (len : Nat) (o : U32) : Prop where
  type : o.toNat + 4 ≤ len
  header : p.pType = ptLoad → o.toNat + 24 ≤ len
  contents : p.Copied → p.pFilesz ≠ 0 → p.pOffset.toNat + p.pFilesz.toNat ≤ len

namespace ElfFile

variable (bs : List (BitVec 8)) (buffer : U32) (n : Nat)

/-- `e_phnum` in the file. -/
def phnum : Nat := elfPhnum (.ofBytes 0 bs) 0

/-- The offset of the program header number `n` in the file, modulo 2³². -/
def headerOffset : U32 := elfGetProgramHeader (.ofBytes 0 bs) 0 (BitVec.ofNat 32 n)

/-- The program header number `n` of the file. -/
def segment : ElfSegment := elfSegment (.ofBytes 0 bs) 0 n

/-- `elf_relocate` comes to the header number `n`, and the file in the buffer is as it was: what was
to be loaded before it was copied elsewhere. -/
def ComesTo : Prop :=
  n < phnum bs ∧ ∀ j < n, (segment bs j).pType = ptLoad →
    (segment bs j).Copied ∧ (segment bs j).Spares buffer bs.length

/-- The fields of the ELF header are in the file, and what is read for the program headers is. -/
structure Inside : Prop where
  fields : 46 ≤ bs.length
  headers : ∀ n, ComesTo bs buffer n →
    (segment bs n).ReadInside bs.length (headerOffset bs n)

/-- No segment is laid over the file itself. -/
def Spared : Prop :=
  ∀ n, ComesTo bs buffer n → (segment bs n).Copied → (segment bs n).Spares buffer bs.length

end ElfFile

section

variable {m : Mem} {buffer header offset a : U32} {len : Nat} {s : Relocation} {P : ReadAt → Prop}

/-- The test reads as far as the last field. -/
theorem inside_of_rejectedTraced (hlen : len ≤ 2 ^ 30) (hstart : (a - buffer).toNat + 4 ≤ len)
    (h : (elfRejectedTraced m a).All (ReadAt.Inside buffer len)) :
    (a - buffer).toNat + 24 ≤ len := by
  unfold elfRejectedTraced at h
  rw [Traced.all_bind_iff, Mem.all_word, ReadAt.inside_iff (by decide) (by omega)] at h
  have hlast := h.1
  bv_omega

namespace Relocation

/-- The reads for a program header are of its fields, and of the bytes that are copied. -/
theorem all_loadSegmentTraced_iff (hfield : ∀ k : U32, k.toNat ≤ 20 → P ⟨a + k, 4⟩) :
    (s.loadSegmentTraced offset a).All P ↔
      (regionEnds ((elfSegmentAt s.mem a).pVaddr + (elfSegmentAt s.mem a).pFilesz) = true →
        P ⟨offset + (elfSegmentAt s.mem a).pOffset, (elfSegmentAt s.mem a).pFilesz.toNat⟩) := by
  have hfinish (s : Relocation) : (s.finishSegmentTraced a).All P := by
    unfold finishSegmentTraced
    simp only [Traced.all_bind_iff, Traced.all_ite_iff, Traced.all_pure]
    simp [hfield]
  unfold loadSegmentTraced memcpyTraced
  simp only [Traced.all_bind_iff, Traced.all_ite_iff, Traced.all_pure]
  simp [hfield, hfinish]
  rfl

theorem all_roundTraced_iff (header offset : U32) (s : Relocation) :
    (s.roundTraced header offset).All P ↔ P ⟨header + 44, 2⟩ ∧
      (s.i.toNat < elfPhnum s.mem header → P ⟨header + 28, 4⟩ ∧ P ⟨header + 42, 2⟩ ∧
        P ⟨s.pheader header, 4⟩ ∧
        ((elfSegmentAt s.mem (s.pheader header)).pType = ptLoad →
          (elfRejectedTraced s.mem (s.pheader header)).All P ∧
          ((elfSegmentAt s.mem (s.pheader header)).rejected = false →
            (s.loadSegmentTraced offset (s.pheader header)).All P))) := by
  have ha : (elfGetProgramHeaderTraced s.mem header s.i).val = s.pheader header := rfl
  have hreads : (elfGetProgramHeaderTraced s.mem header s.i).All P ↔
      P ⟨header + 28, 4⟩ ∧ P ⟨header + 42, 2⟩ := by
    unfold elfGetProgramHeaderTraced
    simp [Traced.all_bind_iff]
  have hphnum : (s.mem.half (header + 44)).val.toNat = elfPhnum s.mem header := rfl
  have htype : (s.mem.word (s.pheader header)).val =
    (elfSegmentAt s.mem (s.pheader header)).pType := rfl
  unfold roundTraced
  simp only [Traced.all_bind_iff, Traced.all_ite_iff, Traced.all_pure, ha, hreads, hphnum, htype,
    val_elfRejectedTraced, Mem.all_half, Mem.all_word, and_assoc, not_not]
  simp

/-- The reads of a round stay in the buffer just when the state before it says so. -/
theorem inside_roundTraced_iff (hlen : len ≤ 2 ^ 30) (s : Relocation) :
    (s.roundTraced buffer buffer).All (ReadAt.Inside buffer len) ↔ 46 ≤ len ∧
      (s.i.toNat < elfPhnum s.mem buffer → (elfSegmentAt s.mem (s.pheader buffer)).ReadInside len
        (s.pheader buffer - buffer)) := by
  have hword {a : U32} : (ReadAt.mk a 4).Inside buffer len ↔ (a - buffer).toNat + 4 ≤ len :=
    ReadAt.inside_iff (by decide) (by omega)
  have hat {k : U32} {n : Nat} (hn : 0 < n) :
      (ReadAt.mk (buffer + k) n).Inside buffer len ↔ k.toNat + n ≤ len :=
    inside_offset hn (by omega)
  have hfields (k : U32) (hk : k.toNat ≤ 20) (h : (s.pheader buffer - buffer).toNat + 24 ≤ len) :
      (ReadAt.mk (s.pheader buffer + k) 4).Inside buffer len :=
    inside_field (l := 24) hlen (by decide) (by omega) h
  rw [all_roundTraced_iff, hat (k := 44) (by decide)]
  constructor
  · rintro ⟨hlast, hround⟩
    refine ⟨hlast, fun hi => ?_⟩
    obtain ⟨-, -, htype, hload⟩ := hround hi
    have hstart := hword.mp htype
    have hheader ht := inside_of_rejectedTraced hlen hstart (hload ht).1
    refine ⟨hstart, hheader, fun ⟨hloads, hends⟩ hne => ?_⟩
    have hcopy := (hload hloads.1).2 hloads.2
    rw [all_loadSegmentTraced_iff fun k hk => hfields k hk (hheader hloads.1)] at hcopy
    exact (hat (Nat.pos_of_ne_zero fun h0 => hne (BitVec.eq_of_toNat_eq h0))).mp (hcopy hends)
  · rintro ⟨hlast, hround⟩
    refine ⟨hlast, fun hi => ?_⟩
    obtain ⟨hstart, hheader, hcontents⟩ := hround hi
    refine ⟨(hat (by decide)).mpr (Nat.le_trans (by decide) hlast),
      (hat (by decide)).mpr (Nat.le_trans (by decide) hlast), hword.mpr hstart,
      fun ht => ⟨?_, fun hrej => ?_⟩⟩
    · unfold elfRejectedTraced
      simp only [Traced.all_bind_iff, Traced.all_ite_iff, Traced.all_pure, Mem.all_word]
      simp [hfields _ _ (hheader ht)]
    · rw [all_loadSegmentTraced_iff fun k hk => hfields k hk (hheader ht)]
      intro hends
      by_cases hzero : (elfSegmentAt s.mem (s.pheader buffer)).pFilesz = 0
      · rw [hzero]
        exact ReadAt.inside_of_size_zero _
      · exact (hat (Nat.pos_of_ne_zero fun h0 => hzero (BitVec.eq_of_toNat_eq h0))).mpr
          (hcontents ⟨⟨ht, hrej⟩, hends⟩ hzero)

end Relocation

end

/-! ## The file in the buffer -/

section

variable {m : Mem} {bs : List (BitVec 8)} {buffer : U32} {n : Nat} {s : Relocation}

/-- A word of the file in the buffer. -/
theorem read32_file {k : U32} (hlen : bs.length ≤ 2 ^ 30) (hm : m.Holds buffer bs)
    (hk : k.toNat + 4 ≤ bs.length) :
    m.read32 (buffer + k) = (Mem.ofBytes 0 bs).read32 k := by
  have hread := hm.read32_eq (Mem.holds_ofBytes (a := 0) (by omega)) hk
  rwa [show (0 : U32) + k = k from BitVec.zero_add k] at hread

theorem read16_file {k : U32} (hlen : bs.length ≤ 2 ^ 30) (hm : m.Holds buffer bs)
    (hk : k.toNat + 2 ≤ bs.length) :
    m.read16 (buffer + k) = (Mem.ofBytes 0 bs).read16 k := by
  have hread := hm.read16_eq (Mem.holds_ofBytes (a := 0) (by omega)) hk
  rwa [show (0 : U32) + k = k from BitVec.zero_add k] at hread

theorem phnum_eq (hlen : bs.length ≤ 2 ^ 30) (hm : m.Holds buffer bs) (hfields : 46 ≤ bs.length) :
    elfPhnum m buffer = ElfFile.phnum bs :=
  congrArg BitVec.toNat (read16_file hlen hm hfields)

theorem pheader_eq (hlen : bs.length ≤ 2 ^ 30) (hm : s.mem.Holds buffer bs)
    (hfields : 46 ≤ bs.length) :
    s.pheader buffer = buffer + ElfFile.headerOffset bs s.i.toNat := by
  unfold Relocation.pheader ElfFile.headerOffset elfGetProgramHeader
  rw [read32_file hlen hm (Nat.le_trans (by decide) hfields),
    read16_file hlen hm (Nat.le_trans (by decide) hfields), BitVec.ofNat_toNat,
    BitVec.setWidth_eq, show (0 : U32) + 28 = 28 from rfl, show (0 : U32) + 42 = 42 from rfl,
    show ∀ k : U32, 0 + k = k from BitVec.zero_add]
  exact BitVec.add_assoc ..

theorem pType_eq (hlen : bs.length ≤ 2 ^ 30) (hm : m.Holds buffer bs)
    (ho : (ElfFile.headerOffset bs n).toNat + 4 ≤ bs.length) :
    (elfSegmentAt m (buffer + ElfFile.headerOffset bs n)).pType = (ElfFile.segment bs n).pType :=
  read32_file hlen hm ho

theorem segment_eq (hlen : bs.length ≤ 2 ^ 30) (hm : m.Holds buffer bs)
    (ho : (ElfFile.headerOffset bs n).toNat + 24 ≤ bs.length) :
    elfSegmentAt m (buffer + ElfFile.headerOffset bs n) = ElfFile.segment bs n := by
  have hfield {k : U32} (hk : k.toNat ≤ 20) :
      m.read32 (buffer + ElfFile.headerOffset bs n + k) =
        (Mem.ofBytes 0 bs).read32 (ElfFile.headerOffset bs n + k) := by
    rw [BitVec.add_assoc]
    exact read32_file hlen hm (by bv_omega)
  show elfSegmentAt m _ = elfSegmentAt (.ofBytes 0 bs) (ElfFile.headerOffset bs n)
  unfold elfSegmentAt
  rw [read32_file hlen hm (k := ElfFile.headerOffset bs n) (by omega), hfield (by decide),
    hfield (by decide), hfield (by decide), hfield (by decide)]

/-- A header that is read in the buffer is one of the file, as far as it is read. -/
theorem readInside_iff (hlen : bs.length ≤ 2 ^ 30) (hm : m.Holds buffer bs) :
    (elfSegmentAt m (buffer + ElfFile.headerOffset bs n)).ReadInside bs.length
        (ElfFile.headerOffset bs n) ↔
      (ElfFile.segment bs n).ReadInside bs.length (ElfFile.headerOffset bs n) := by
  by_cases ho : (ElfFile.headerOffset bs n).toNat + 4 ≤ bs.length
  swap
  · exact iff_of_false (fun h => ho h.type) fun h => ho h.type
  have htype := pType_eq hlen hm ho
  by_cases hload : (ElfFile.segment bs n).pType = ptLoad
  · by_cases hall : (ElfFile.headerOffset bs n).toNat + 24 ≤ bs.length
    · rw [segment_eq hlen hm hall]
    · exact iff_of_false (fun h => hall (h.header (htype.trans hload)))
        fun h => hall (h.header hload)
  · have hnot : ¬ (elfSegmentAt m (buffer + ElfFile.headerOffset bs n)).pType = ptLoad :=
      fun h => hload (htype.symm.trans h)
    exact iff_of_true ⟨ho, fun h => absurd h hnot, fun h => absurd h.1.1 hnot⟩
      ⟨ho, fun h => absurd h hload, fun h => absurd h.1.1 hload⟩

namespace Relocation

/-- A segment that is copied elsewhere leaves the file as it is. -/
theorem holds_loadSegment {p : ElfSegment} {a : U32} (offset : U32) (hm : s.mem.Holds buffer bs)
    (hp : elfSegmentAt s.mem a = p)
    (hagain : ∀ m : Mem, m.Holds buffer bs → elfSegmentAt m a = p) (hcopied : p.Copied)
    (hspares : p.Spares buffer bs.length) :
    s.loadSegment offset a = (((s.mapSegment p).copySegment offset p).clearSegment p).next ∧
      (s.loadSegment offset a).mem.Holds buffer bs := by
  obtain ⟨hsize, -⟩ := ElfProgramHeader.rejected_eq_false.mp hcopied.1.2
  have hcopy : ((s.mapSegment p).copySegment offset p).mem.Holds buffer bs := by
    refine hm.of_same fun x hx => Mem.copy_of_le (Nat.le_of_not_lt fun hlt => ?_)
    exact hspares x hx (Nat.lt_of_lt_of_le hlt hsize)
  have heq : s.loadSegment offset a =
      (((s.mapSegment p).copySegment offset p).clearSegment p).next := by
    rw [loadSegment_of_ends hp hcopied.2, finishSegment, hagain _ hcopy]
  refine ⟨heq, ?_⟩
  rw [heq]
  refine hcopy.of_same fun x hx => ?_
  show (((s.mapSegment p).copySegment offset p).clearSegment p).mem x = _
  rw [mem_clearSegment, if_neg]
  intro hlt
  refine hspares x hx ?_
  show (x - p.pVaddr).toNat < p.pMemsz.toNat
  bv_omega

end Relocation

/-! ## The loop -/

namespace Relocation

/-- The loop is at the header `s.i`, and the file in the buffer is as it was. -/
structure Follows (bs : List (BitVec 8)) (buffer : U32) (s : Relocation) : Prop where
  status : s.status = .running
  holds : s.mem.Holds buffer bs
  before : ∀ j < s.i.toNat, (ElfFile.segment bs j).pType = ptLoad →
    (ElfFile.segment bs j).Copied ∧ (ElfFile.segment bs j).Spares buffer bs.length

namespace Follows

theorem start (hlen : bs.length ≤ 2 ^ 30) : Follows bs buffer (.start (m.write buffer bs)) :=
  ⟨rfl, Mem.holds_write (by omega), fun j hj => absurd hj (Nat.not_lt_zero j)⟩

variable (h : Follows bs buffer s) (hi : s.i.toNat < elfPhnum s.mem buffer)

include h hi

/-- The header `s.i` lets the loop go on, and the file stays as it is. -/
theorem next {t : Relocation} (hstatus : t.status = s.status) (hnext : t.i = s.i + 1)
    (hholds : t.mem.Holds buffer bs)
    (hthis : (ElfFile.segment bs s.i.toNat).pType = ptLoad →
      (ElfFile.segment bs s.i.toNat).Copied ∧
        (ElfFile.segment bs s.i.toNat).Spares buffer bs.length) : Follows bs buffer t where
  status := hstatus.trans h.status
  holds := hholds
  before := by
    rw [hnext, toNat_i_add_one hi]
    intro j hj
    rcases Nat.lt_or_eq_of_le (Nat.le_of_lt_succ hj) with hlt | rfl
    · exact h.before j hlt
    · exact hthis

/-- A round whose reads stay in the file: the loop goes on, or it ends, or the segment goes over the
file. -/
theorem round (hlen : bs.length ≤ 2 ^ 30) (hfields : 46 ≤ bs.length)
    (hthis : (ElfFile.segment bs s.i.toNat).ReadInside bs.length
      (ElfFile.headerOffset bs s.i.toNat)) :
    (Follows bs buffer (s.round buffer buffer) ∧ (s.round buffer buffer).i = s.i + 1) ∨
      (ElfFile.segment bs s.i.toNat).pType = ptLoad ∧
        ((s.round buffer buffer).status ≠ .running ∧ ¬ (ElfFile.segment bs s.i.toNat).Copied ∨
          (ElfFile.segment bs s.i.toNat).Copied ∧
            ¬ (ElfFile.segment bs s.i.toNat).Spares buffer bs.length) := by
  have ha := pheader_eq hlen h.holds hfields
  have htype := pType_eq hlen h.holds hthis.type
  rw [← ha] at htype
  by_cases hload : (ElfFile.segment bs s.i.toNat).pType = ptLoad
  swap
  · rw [round_of_other hi rfl (fun heq => hload (htype.symm.trans heq))]
    exact Or.inl ⟨h.next hi rfl rfl h.holds fun heq => absurd heq hload, rfl⟩
  have hagain (m : Mem) (hm : m.Holds buffer bs) :
      elfSegmentAt m (s.pheader buffer) = ElfFile.segment bs s.i.toNat := by
    rw [ha]
    exact segment_eq hlen hm (hthis.header hload)
  have hp := hagain _ h.holds
  cases hrej : (ElfFile.segment bs s.i.toNat).rejected with
  | true =>
    rw [round_of_rejected hi hp hload hrej]
    refine Or.inr ⟨hload, Or.inl ⟨nofun, fun hcopied => ?_⟩⟩
    exact Bool.false_ne_true (hcopied.1.2.symm.trans hrej)
  | false =>
    rw [round_of_accepted hi hp hload hrej]
    cases hends : regionEnds ((ElfFile.segment bs s.i.toNat).pVaddr +
        (ElfFile.segment bs s.i.toNat).pFilesz) with
    | false =>
      rw [loadSegment_of_hangs hp hends]
      refine Or.inr ⟨hload, Or.inl ⟨nofun, fun hcopied => ?_⟩⟩
      exact Bool.false_ne_true (hends.symm.trans hcopied.2)
    | true =>
      have hcopied : (ElfFile.segment bs s.i.toNat).Copied := ⟨⟨hload, hrej⟩, hends⟩
      by_cases hspares : (ElfFile.segment bs s.i.toNat).Spares buffer bs.length
      · obtain ⟨heq, hholds⟩ :=
          holds_loadSegment buffer h.holds hp hagain hcopied hspares
        rw [heq] at hholds ⊢
        exact Or.inl ⟨h.next hi status_clearSegment (congrArg (· + 1) i_clearSegment) hholds
          fun _ => ⟨hcopied, hspares⟩, congrArg (· + 1) i_clearSegment⟩
      · exact Or.inr ⟨hload, Or.inr ⟨hcopied, hspares⟩⟩

end Follows

end Relocation

open Relocation (Follows)

/-- What is known of the reads after some rounds. -/
inductive ReadingStage (bs : List (BitVec 8)) (buffer : U32) (t : Traced Relocation) : Prop
  | reading (h : Follows bs buffer t.val) (hreads : t.All (ReadAt.Inside buffer bs.length))
      (hinside : ∀ j < t.val.i.toNat,
        (ElfFile.segment bs j).ReadInside bs.length (ElfFile.headerOffset bs j))
  | outside (hreads : ¬ t.All (ReadAt.Inside buffer bs.length))
      (hinside : ¬ ElfFile.Inside bs buffer)
  | done (hstatus : t.val.status ≠ .running) (hreads : t.All (ReadAt.Inside buffer bs.length))
      (hinside : ElfFile.Inside bs buffer)
  /-- A segment went over the file. -/
  | overlaid (hinside : ElfFile.Inside bs buffer) (hspared : ¬ ElfFile.Spared bs buffer)

namespace ReadingStage

variable {t : Traced Relocation}

/-- The loop goes no further than to the header number `n`. -/
theorem inside_of_last (hfields : 46 ≤ bs.length)
    (hbefore : ∀ j < n, (ElfFile.segment bs j).ReadInside bs.length (ElfFile.headerOffset bs j))
    (hn : n < ElfFile.phnum bs →
      (ElfFile.segment bs n).ReadInside bs.length (ElfFile.headerOffset bs n))
    (hlast : ∀ k, ElfFile.ComesTo bs buffer k → k ≤ n) : ElfFile.Inside bs buffer := by
  refine ⟨hfields, fun k hk => ?_⟩
  rcases Nat.lt_or_eq_of_le (hlast k hk) with hlt | rfl
  · exact hbefore k hlt
  · exact hn hk.1

/-- A header behind which the loop does not come. -/
theorem last_of_not (hload : (ElfFile.segment bs n).pType = ptLoad)
    (hnot : ¬ ((ElfFile.segment bs n).Copied ∧ (ElfFile.segment bs n).Spares buffer bs.length)) :
    ∀ k, ElfFile.ComesTo bs buffer k → k ≤ n :=
  fun _ hk => Nat.le_of_not_lt fun hlt => hnot (hk.2 n hlt hload)

/-- The reads of a round are in the file just when the file says so. -/
theorem inside_roundTraced_iff_file (hlen : bs.length ≤ 2 ^ 30) (h : Follows bs buffer s) :
    (s.roundTraced buffer buffer).All (ReadAt.Inside buffer bs.length) ↔
      46 ≤ bs.length ∧ (s.i.toNat < ElfFile.phnum bs →
        (ElfFile.segment bs s.i.toNat).ReadInside bs.length
          (ElfFile.headerOffset bs s.i.toNat)) := by
  rw [Relocation.inside_roundTraced_iff hlen]
  refine and_congr_right fun hfields => ?_
  rw [phnum_eq hlen h.holds hfields, pheader_eq hlen h.holds hfields,
    ← readInside_iff hlen h.holds, BitVec.add_comm buffer, BitVec.add_sub_cancel]

/-- One round with its reads. -/
theorem round (hlen : bs.length ≤ 2 ^ 30) (h : ReadingStage bs buffer t)
    (hrun : t.val.status = .running) :
    ReadingStage bs buffer (t >>= Relocation.roundTraced buffer buffer) := by
  have hval : (t >>= Relocation.roundTraced buffer buffer).val = t.val.round buffer buffer :=
    Relocation.val_roundTraced buffer buffer t.val
  have hall : (t >>= Relocation.roundTraced buffer buffer).All
      (ReadAt.Inside buffer bs.length) ↔ _ := Traced.all_bind_iff ..
  cases h with
  | done hstatus => exact absurd hrun hstatus
  | overlaid hinside hspared => exact .overlaid hinside hspared
  | outside hreads hinside => exact .outside (fun h => hreads (hall.mp h).1) hinside
  | reading h hreads hinside =>
    have hiff := inside_roundTraced_iff_file hlen h
    by_cases hround : (t.val.roundTraced buffer buffer).All (ReadAt.Inside buffer bs.length)
    swap
    · refine .outside (fun h => hround (hall.mp h).2) fun hin => ?_
      exact hround (hiff.mpr ⟨hin.fields, fun hi => hin.headers _ ⟨hi, h.before⟩⟩)
    have hreads := hall.mpr ⟨hreads, hround⟩
    obtain ⟨hfields, hheader⟩ := hiff.mp hround
    by_cases hi : t.val.i.toNat < elfPhnum t.val.mem buffer
    swap
    · refine .done ?_ hreads (inside_of_last hfields hinside hheader fun k hk => ?_)
      · rw [hval, Relocation.round_of_end hi]
        nofun
      · rw [phnum_eq hlen h.holds hfields] at hi
        exact Nat.le_of_lt (Nat.lt_of_lt_of_le hk.1 (Nat.le_of_not_lt hi))
    have hthis := hheader (phnum_eq hlen h.holds hfields ▸ hi)
    rcases h.round hi hlen hfields hthis with
      ⟨hfollows, hnext⟩ | ⟨hload, ⟨hstatus, hnot⟩ | ⟨hcopied, hover⟩⟩
    · refine .reading (hval ▸ hfollows) hreads ?_
      rw [hval, hnext, Relocation.toNat_i_add_one hi]
      intro j hj
      rcases Nat.lt_or_eq_of_le (Nat.le_of_lt_succ hj) with hlt | rfl
      · exact hinside j hlt
      · exact hthis
    · exact .done (hval ▸ hstatus) hreads (inside_of_last hfields hinside hheader
        (last_of_not hload fun hgood => hnot hgood.1))
    · refine .overlaid (inside_of_last hfields hinside hheader
        (last_of_not hload fun hgood => hover hgood.2)) fun hspared => ?_
      exact hover (hspared _ ⟨phnum_eq hlen h.holds hfields ▸ hi, h.before⟩ hcopied)

end ReadingStage

/-! ## A call of `elf_load` -/

end

end PiggyOS
