import PiggyOS.Infra.Bytes
import PiggyOS.Infra.Region
import PiggyOS.Sys.Elf
import PiggyOS.Vmm.Regions

/-!
# Loading programs (`elf.c`)

The program is loaded over a flat memory: what `elf_relocate` writes is where it writes it, and
what it maps is kept apart. Every access to a header goes to memory, also when the memory has
changed since.

* `elfRelocate` — the loop over the program headers, with its calls in the order they are made
* `elfLoad` — the file in the buffer, the two checks
-/

namespace PiggyOS

open Infra

/-! ## Headers -/

/-- `elf_program_header_t` with the place of the segment in the file. -/
structure ElfSegment extends ElfProgramHeader where
  pOffset : U32
  deriving DecidableEq

/-- The program header at `a`. -/
def elfSegmentAt (m : Mem) (a : U32) : ElfSegment where
  pType := m.read32 a
  pOffset := m.read32 (a + 4)
  pVaddr := m.read32 (a + 8)
  pFilesz := m.read32 (a + 16)
  pMemsz := m.read32 (a + 20)

/-- `header->e_phnum` -/
def elfPhnum (m : Mem) (header : U32) : Nat := (m.read16 (header + 44)).toNat

/-- `elf_get_program_header` -/
def elfGetProgramHeader (m : Mem) (header num : U32) : U32 :=
  header + m.read32 (header + 28) + num * (m.read16 (header + 42)).setWidth 32

/-- The program header number `n`. -/
def elfSegment (m : Mem) (header : U32) (n : Nat) : ElfSegment :=
  elfSegmentAt m (elfGetProgramHeader m header (BitVec.ofNat 32 n))

/-- `ET_REL` -/
def etRel : BitVec 16 := 1

/-- `ET_EXEC` -/
def etExec : BitVec 16 := 2

/-- `elf_check_header` -/
def elfCheckHeader (m : Mem) (header : U32) : BitVec 8 :=
  if m header ≠ 0x7f ∨ m (header + 1) ≠ 0x45 ∨ m (header + 2) ≠ 0x4c ∨ m (header + 3) ≠ 0x46 then 0
  else if m (header + 4) ≠ 1 then 0
  else if m (header + 5) ≠ 1 then 0
  else if m (header + 6) ≠ 1 then 0
  else if m.read16 (header + 18) ≠ 3 then 0
  else if m.read16 (header + 16) ≠ etRel ∧ m.read16 (header + 16) ≠ etExec then 0
  else -1

/-! ## `elf_relocate` -/

/-- A call that `elf_relocate` makes. -/
inductive ElfEffect
  | allocateRegion (startVa endVa : U32)
  | memcpy (dest src count : U32)
  | memset (s n : U32)

namespace ElfEffect

/-- The pages that the call maps. -/
def pages : ElfEffect → List U32
  | allocateRegion startVa endVa => regionPages startVa endVa
  | _ => []

/-- The call writes to the address `x`. -/
def Writes (x : U32) : ElfEffect → Prop
  | allocateRegion .. => False
  | memcpy dest _ count => x - dest < count
  | memset s n => x - s < n

/-- What the call maps and writes is below the kernel. -/
structure Below (e : ElfEffect) : Prop where
  pages : ∀ va ∈ e.pages, va < kernBase
  writes : ∀ x, e.Writes x → x < kernBase

end ElfEffect

inductive ElfStatus
  | running
  | returned (ret : Int)
  /-- It is in a call of `allocate_region` that does not come back. -/
  | hangs
  deriving DecidableEq

/-- The loop of `elf_relocate`: memory, the calls so far, last one first, and the counter. -/
structure Relocation where
  mem : Mem
  effects : List ElfEffect
  i : U32
  status : ElfStatus

namespace Relocation

variable (s : Relocation)

def memcpy (dest src count : U32) : Relocation :=
  { s with mem := s.mem.copy dest src count.toNat, effects := .memcpy dest src count :: s.effects }

/-- `memset` with 0. -/
def memset (a n : U32) : Relocation :=
  { s with mem := s.mem.fill a 0 n.toNat, effects := .memset a n :: s.effects }

/-- `allocate_region` for a segment, as far as it can be seen in memory. -/
def mapSegment (p : ElfSegment) : Relocation :=
  { s with effects := .allocateRegion p.pVaddr (p.pVaddr + p.pFilesz) :: s.effects }

/-- The `memcpy` for a segment. -/
def copySegment (offset : U32) (p : ElfSegment) : Relocation :=
  s.memcpy p.pVaddr (offset + p.pOffset) p.pFilesz

/-- The `memset` for a segment. -/
def clearSegment (p : ElfSegment) : Relocation :=
  if p.pMemsz - p.pFilesz > 0 then s.memset (p.pVaddr + p.pFilesz) (p.pMemsz - p.pFilesz) else s

/-- `continue`, or the end of a round. -/
def next : Relocation := { s with i := s.i + 1 }

/-- The `memset` of a round, for which the header at `a` is read again. -/
def finishSegment (a : U32) : Relocation := (s.clearSegment (elfSegmentAt s.mem a)).next

/-- The calls of a round for a segment that is loaded, whose header is at `a`. -/
def loadSegment (offset a : U32) : Relocation :=
  let p := elfSegmentAt s.mem a
  if regionEnds (p.pVaddr + p.pFilesz) then ((s.mapSegment p).copySegment offset p).finishSegment a
  else { s.mapSegment p with status := .hangs }

/-- The address of the program header that is next. -/
def pheader (header : U32) : U32 := elfGetProgramHeader s.mem header s.i

/-- One round of the loop, with the test before it. -/
def round (header offset : U32) : Relocation :=
  if s.i.toNat < elfPhnum s.mem header then
    if (elfSegmentAt s.mem (s.pheader header)).pType ≠ ptLoad then s.next
    else if (elfSegmentAt s.mem (s.pheader header)).rejected then
      { s with status := .returned (-1) }
    else s.loadSegment offset (s.pheader header)
  else { s with status := .returned 0 }

def start (m : Mem) : Relocation := ⟨m, [], 0, .running⟩

end Relocation

/-- `elf_relocate`; `e_phnum` has 16 bits, whatever it becomes. -/
def elfRelocate (m : Mem) (header offset : U32) : Option Relocation :=
  loop (fun s : Relocation => s.status = .running) (fun s => some (s.round header offset))
    (2 ^ 16 + 1) (.start m)

/-! ## `elf_load` -/

/-- What a call of `elf_load` leaves behind and returns. -/
structure ElfLoaded where
  mem : Mem
  effects : List ElfEffect
  ret : Int

/-- `elf_load` of the file with the bytes `image`, or of NULL. `kmalloc` answers with `buffer`, and
`read_fs` puts the file there. A call that does not come back has no result. -/
def elfLoad (m : Mem) (image : Option (List (BitVec 8))) (buffer : U32) : Option ElfLoaded :=
  match image with
  | none => some ⟨m, [], -1⟩
  | some bs =>
    let m := m.write buffer bs
    let ret := if elfCheckHeader m buffer = 0 then -1 else 0
    (elfRelocate m buffer buffer).bind fun s =>
      match s.status with
      | .returned r => some ⟨s.mem, s.effects, if r ≠ 0 then -1 else ret⟩
      | _ => none

/-- The pages that are mapped after the calls, when `pages` were mapped before them. -/
def mapPages (pages : U32 → Bool) (effects : List ElfEffect) (va : U32) : Bool :=
  pages va || effects.any fun e => va ∈ e.pages

section

variable {pages : U32 → Bool} {e : ElfEffect} {es : List ElfEffect} {va : U32}

theorem mapPages_nil (pages : U32 → Bool) : mapPages pages [] = pages := by
  funext va
  exact Bool.or_false _

theorem mapPages_eq_true : mapPages pages es va = true ↔
    pages va = true ∨ ∃ e ∈ es, va ∈ e.pages := by
  unfold mapPages
  rw [Bool.or_eq_true, List.any_eq_true]
  simp only [decide_eq_true_eq]

theorem mapPages_cons : mapPages pages (e :: es) va = true ↔
    va ∈ e.pages ∨ mapPages pages es va = true := by
  rw [mapPages_eq_true, mapPages_eq_true, List.exists_mem_cons_iff]
  exact or_left_comm

end

/-! ## Rounds -/

namespace Relocation

variable {s : Relocation} {header offset a : U32} {p : ElfSegment}

@[simp] theorem i_clearSegment : (s.clearSegment p).i = s.i := by
  unfold clearSegment
  split <;> rfl

@[simp] theorem status_clearSegment : (s.clearSegment p).status = s.status := by
  unfold clearSegment
  split <;> rfl

theorem loadSegment_of_ends (hp : elfSegmentAt s.mem a = p)
    (h : regionEnds (p.pVaddr + p.pFilesz) = true) :
    s.loadSegment offset a = ((s.mapSegment p).copySegment offset p).finishSegment a := by
  subst hp
  exact if_pos h

theorem loadSegment_of_hangs (hp : elfSegmentAt s.mem a = p)
    (h : regionEnds (p.pVaddr + p.pFilesz) = false) :
    s.loadSegment offset a = { s.mapSegment p with status := .hangs } := by
  subst hp
  exact if_neg (Bool.eq_false_iff.mp h)

section

variable (hi : s.i.toNat < elfPhnum s.mem header) (hp : elfSegmentAt s.mem (s.pheader header) = p)

include hi hp

theorem round_of_other (h : p.pType ≠ ptLoad) : s.round header offset = s.next := by
  unfold round
  rw [if_pos hi, hp, if_pos h]

theorem round_of_rejected (h : p.pType = ptLoad) (hrej : p.rejected = true) :
    s.round header offset = { s with status := .returned (-1) } := by
  unfold round
  rw [if_pos hi, hp, if_neg (not_not.mpr h), if_pos hrej]

theorem round_of_accepted (h : p.pType = ptLoad) (hrej : p.rejected = false) :
    s.round header offset = s.loadSegment offset (s.pheader header) := by
  unfold round
  rw [if_pos hi, hp, if_neg (not_not.mpr h), if_neg (Bool.eq_false_iff.mp hrej)]

end

theorem round_of_end (hi : ¬ s.i.toNat < elfPhnum s.mem header) :
    s.round header offset = { s with status := .returned 0 } := if_neg hi

/-- What a round can be. -/
theorem round_cases (header offset : U32) (s : Relocation) :
    (s.i.toNat < elfPhnum s.mem header ∧ (s.round header offset).status = s.status ∧
      (s.round header offset).i = s.i + 1) ∨
      ∃ status, status ≠ .running ∧ (s.round header offset).status = status := by
  by_cases hi : s.i.toNat < elfPhnum s.mem header
  · by_cases htype : (elfSegmentAt s.mem (s.pheader header)).pType = ptLoad
    · cases hrej : (elfSegmentAt s.mem (s.pheader header)).rejected with
      | true =>
        rw [round_of_rejected hi rfl htype hrej]
        exact Or.inr ⟨.returned (-1), by decide, rfl⟩
      | false =>
        rw [round_of_accepted hi rfl htype hrej]
        generalize hp : elfSegmentAt s.mem (s.pheader header) = p
        cases hends : regionEnds (p.pVaddr + p.pFilesz) with
        | true =>
          rw [loadSegment_of_ends hp hends]
          unfold finishSegment next
          exact Or.inl ⟨hi, status_clearSegment, congrArg (· + 1) i_clearSegment⟩
        | false =>
          rw [loadSegment_of_hangs hp hends]
          exact Or.inr ⟨.hangs, by decide, rfl⟩
    · rw [round_of_other hi rfl htype]
      exact Or.inl ⟨hi, rfl, rfl⟩
  · rw [round_of_end hi]
    exact Or.inr ⟨.returned 0, by decide, rfl⟩

/-- The rounds that are left at most. -/
def roundsLeft (s : Relocation) : Nat := if s.status = .running then 2 ^ 16 - s.i.toNat else 0

theorem elfPhnum_lt (m : Mem) (header : U32) : elfPhnum m header < 2 ^ 16 :=
  (m.read16 (header + 44)).isLt

theorem toNat_i_add_one {m : Mem} (h : s.i.toNat < elfPhnum m header) :
    (s.i + 1).toNat = s.i.toNat + 1 := by
  have hphnum := elfPhnum_lt m header
  bv_omega

theorem roundsLeft_round (hs : s.status = .running) (hi : s.i.toNat < 2 ^ 16) :
    (s.round header offset).roundsLeft < s.roundsLeft ∧
      ((s.round header offset).status = .running → (s.round header offset).i.toNat < 2 ^ 16) := by
  unfold roundsLeft
  rw [if_pos hs]
  rcases round_cases header offset s with ⟨hlt, hstatus, hnext⟩ | ⟨status, hne, hstatus⟩
  · have hphnum := elfPhnum_lt s.mem header
    have hnat : (s.round header offset).i.toNat = s.i.toNat + 1 :=
      (congrArg BitVec.toNat hnext).trans (toNat_i_add_one hlt)
    rw [if_pos (hstatus.trans hs), hnat]
    omega
  · rw [hstatus, if_neg hne]
    exact ⟨by omega, fun h => absurd h hne⟩

end Relocation

/-- The loop over the headers comes to an end, if `allocate_region` does. -/
theorem elfRelocate_total (m : Mem) (header offset : U32) :
    ∃ t, elfRelocate m header offset = some t ∧ t.status ≠ .running := by
  have hbody : ∀ s : Relocation, (s.status = .running → s.i.toNat < 2 ^ 16) →
      decide (s.status = .running) = true → ∃ s', some (s.round header offset) = some s' ∧
        (s'.status = .running → s'.i.toNat < 2 ^ 16) ∧ s'.roundsLeft < s.roundsLeft := by
    intro s hs hrun
    have hrun := of_decide_eq_true hrun
    obtain ⟨hless, hkeep⟩ := Relocation.roundsLeft_round hrun (hs hrun)
    exact ⟨_, rfl, hkeep, hless⟩
  have hstart : (Relocation.start m).i.toNat < 2 ^ 16 := Nat.two_pow_pos 16
  have hleft : (Relocation.start m).roundsLeft < 2 ^ 16 + 1 := Nat.lt_succ_self _
  obtain ⟨t, ht, -, hend⟩ := loop_total
    (fun s : Relocation => s.status = .running → s.i.toNat < 2 ^ 16) Relocation.roundsLeft hbody
    (2 ^ 16 + 1) (.start m) (fun _ => hstart) hleft
  exact ⟨t, ht, of_decide_eq_false hend⟩

/-- What every round keeps holds at the end of the loop. -/
theorem elfRelocate_invariant {m : Mem} {header offset : U32} {t : Relocation}
    {Inv : Relocation → Prop} (hstart : Inv (.start m))
    (hround : ∀ s, Inv s → s.status = .running → Inv (s.round header offset))
    (hloop : elfRelocate m header offset = some t) : Inv t ∧ t.status ≠ .running := by
  have hbody : ∀ s s', Inv s → decide (s.status = .running) = true →
      some (s.round header offset) = some s' → Inv s' := by
    rintro s s' hs hrun heq
    obtain rfl := Option.some.inj heq
    exact hround s hs (of_decide_eq_true hrun)
  obtain ⟨hinv, hexit⟩ := loop_invariant Inv hbody _ _ _ hstart hloop
  exact ⟨hinv, of_decide_eq_false hexit⟩

end PiggyOS
