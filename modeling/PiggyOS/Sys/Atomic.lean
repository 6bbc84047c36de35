import PiggyOS.Sys.Image

/-!
# What a failed `elf_load` leaves behind

`elf_relocate` tests a segment right before it loads it, and it runs whether the ELF header is in
order or not. So a call of `elf_load` that fails has changed nothing only if the first segment to
be loaded has failed the test, or there is none.
-/

namespace PiggyOS

open Infra

/-- The header number `n` is the first one of a segment to be loaded. -/
def ElfFirstLoad (m : Mem) (header : U32) (n : Nat) : Prop :=
  n < elfPhnum m header ∧ (elfSegment m header n).pType = ptLoad ∧
    ∀ j < n, (elfSegment m header j).pType ≠ ptLoad

/-- The first segment to be loaded does not pass the test. -/
def ElfFirstRejected (m : Mem) (header : U32) : Prop :=
  ∀ n, ElfFirstLoad m header n → (elfSegment m header n).rejected = true

namespace Relocation

variable {m : Mem} {header offset a : U32} {s : Relocation} {p : ElfSegment}

/-- The loop has not come to a segment to be loaded. -/
structure Waiting (m : Mem) (header : U32) (s : Relocation) : Prop where
  status : s.status = .running
  mem : s.mem = m
  effects : s.effects = []
  before : ∀ j < s.i.toNat, (elfSegment m header j).pType ≠ ptLoad

/-- How far the loop is with the first segment to be loaded. -/
inductive FirstStage (m : Mem) (header : U32) (s : Relocation) : Prop
  | waiting (h : Waiting m header s)
  | stopped (hstatus : s.status ≠ .running) (hmem : s.mem = m) (heffects : s.effects = [])
      (hrejected : ElfFirstRejected m header)
  | loaded (n : Nat) (hn : ElfFirstLoad m header n)
      (hpass : (elfSegment m header n).rejected = false)
      (heffect : .allocateRegion (elfSegment m header n).pVaddr
        ((elfSegment m header n).pVaddr + (elfSegment m header n).pFilesz) ∈ s.effects)

theorem mem_effects_mapped (hp : elfSegmentAt s.mem a = p) :
    .allocateRegion p.pVaddr (p.pVaddr + p.pFilesz) ∈ (s.loadSegment offset a).effects := by
  cases hends : regionEnds (p.pVaddr + p.pFilesz) with
  | false =>
    rw [loadSegment_of_hangs hp hends]
    exact List.mem_cons_self
  | true =>
    rw [loadSegment_of_ends hp hends]
    exact effects_clearSegment (List.mem_cons_of_mem _ List.mem_cons_self)

theorem Waiting.segment (h : Waiting m header s) :
    elfSegmentAt s.mem (s.pheader header) = elfSegment m header s.i.toNat := by
  unfold elfSegment pheader
  rw [h.mem, BitVec.ofNat_toNat, BitVec.setWidth_eq]

theorem Waiting.round (h : Waiting m header s) :
    FirstStage m header (s.round header offset) := by
  have hp := h.segment
  by_cases hi : s.i.toNat < elfPhnum m header
  · have hi' : s.i.toNat < elfPhnum s.mem header := h.mem ▸ hi
    by_cases htype : (elfSegment m header s.i.toNat).pType = ptLoad
    · have hfirst : ElfFirstLoad m header s.i.toNat := ⟨hi, htype, h.before⟩
      cases hrej : (elfSegment m header s.i.toNat).rejected with
      | true =>
        rw [round_of_rejected hi' hp htype hrej]
        refine .stopped (by exact ElfStatus.noConfusion) h.mem h.effects fun n hn => ?_
        rcases Nat.lt_trichotomy n s.i.toNat with hlt | rfl | hgt
        · exact absurd hn.2.1 (h.before n hlt)
        · exact hrej
        · exact absurd htype (hn.2.2 _ hgt)
      | false =>
        rw [round_of_accepted hi' hp htype hrej]
        exact .loaded _ hfirst hrej (mem_effects_mapped hp)
    · rw [round_of_other hi' hp htype]
      have hnext := toNat_i_add_one hi
      refine .waiting ⟨h.status, h.mem, h.effects, fun j hj => ?_⟩
      have hj : j < (s.i + 1).toNat := hj
      rcases Nat.lt_or_eq_of_le (Nat.le_of_lt_succ (hnext ▸ hj)) with hlt | rfl
      · exact h.before j hlt
      · exact htype
  · have hi' : ¬ s.i.toNat < elfPhnum s.mem header := h.mem ▸ hi
    rw [round_of_end hi']
    refine .stopped (by exact ElfStatus.noConfusion) h.mem h.effects fun n hn => ?_
    exact absurd hn.2.1 (h.before n (Nat.lt_of_lt_of_le hn.1 (Nat.le_of_not_lt hi)))

theorem FirstStage.round (h : FirstStage m header s) (hs : s.status = .running) :
    FirstStage m header (s.round header offset) := by
  cases h with
  | waiting h => exact h.round
  | stopped hstatus => exact absurd hs hstatus
  | loaded n hn hpass heffect => exact .loaded n hn hpass (mem_effects_round heffect)

end Relocation

end PiggyOS
