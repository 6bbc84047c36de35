import PiggyOS.System

/-!
# ELF segments (`elf.c`)
-/

namespace PiggyOS

open Infra

/-- `elf_program_header_t`; the fields that `elf_relocate` does not use for the placement of a
segment are left out. -/
structure ElfProgramHeader where
  pType : U32
  pVaddr : U32
  pFilesz : U32
  pMemsz : U32
  deriving DecidableEq, Repr

/-- `PT_LOAD` -/
def ptLoad : U32 := 1

namespace ElfProgramHeader

variable (p : ElfProgramHeader)

/-- The test of `elf_relocate` for a segment to be loaded. -/
def rejected : Bool := p.pMemsz < p.pFilesz || kernBase ≤ p.pVaddr + p.pMemsz

/-- `elf_relocate` calls `allocate_page` for the address `va` when it loads the segment. -/
def MapsPage (va : U32) : Prop :=
  p.pType = ptLoad ∧ p.rejected = false ∧ va &&& 0xfff = 0 ∧ p.pVaddr &&& 0xfffff000 ≤ va ∧
    va ≤ (p.pVaddr + p.pFilesz) &&& 0xfffff000

end ElfProgramHeader

end PiggyOS
