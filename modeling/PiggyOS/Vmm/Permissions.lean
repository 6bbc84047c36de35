import PiggyOS.Vmm.Frames

/-!
# Effective permissions

The processor combines the bits of the directory entry with those of the page. `allocate_page`
sets the bits of a directory entry when it makes the table, from the rights of the page that
happens to come first; later pages of the region get no more than that.
-/

namespace PiggyOS

open Infra

namespace Vmm

/-- The entries for the processor are present exactly where the directory has a table. -/
def EntriesMatch (v : Vmm) (dir : U32) : Prop :=
  ∀ i, ((v.dirs dir).tables i).present = true ↔ (v.dirs dir).refTables i ≠ 0

end Vmm

/-- A call of `allocate_page`; `table` is the page table from the heap, should one be needed. -/
structure MapCall where
  va : U32
  frame : U32
  isKernel : Bool
  isWritable : Bool
  table : U32
  deriving DecidableEq, Repr

/-- A call of `allocate_page` for the directory `dir`. If it takes a page table, then one that is
not in use. -/
structure MapStep (dir : U32) (k : Kernel) (c : MapCall) (k' : Kernel) : Prop where
  fresh : k.vmm.tableOf dir c.va = 0 → ∀ k₁ table,
    k.newTable (fun k _ => some (k, c.table)) = some (k₁, table) → k.vmm.FreshTable table
  call : k.allocatePage (fun k _ => some (k, c.table)) dir c.va c.frame c.isKernel c.isWritable =
    some k'

theorem newTable_of_oracle {k k₁ : Kernel} {t table : U32}
    (h : k.newTable (fun k _ => some (k, t)) = some (k₁, table)) :
    ∃ tempMem, k₁ = { k with vmm := { k.vmm with tempMem := tempMem } } := by
  cases henabled : k.heap.kheapEnabled with
  | true =>
    rw [Kernel.newTable_of_enabled henabled] at h
    cases h
    exact ⟨k.vmm.tempMem, rfl⟩
  | false =>
    rw [Kernel.newTable_of_disabled henabled] at h
    cases h
    exact ⟨_, rfl⟩

/-- What a call can have done. -/
theorem MapStep.cases {dir : U32} {k k' : Kernel} {c : MapCall} (h : MapStep dir k c k')
    (hdir : dir ≠ 0) :
    (k.vmm.tableOf dir c.va ≠ 0 ∧
        k'.vmm = k.vmm.fillEntry (k.vmm.tableOf dir c.va) (pagetblIndex c.va) c.frame c.isKernel
          c.isWritable) ∨
      (k.vmm.tableOf dir c.va = 0 ∧ ∃ table tempMem, k.vmm.FreshTable table ∧
        k'.vmm = (Vmm.installTable { k.vmm with tempMem := tempMem } dir (pagedirIndex c.va) table
          c.isKernel c.isWritable).fillEntry table (pagetblIndex c.va) c.frame c.isKernel
          c.isWritable) := by
  rcases Kernel.allocatePage_cases h.call with ⟨hd, -⟩ | ⟨-, ht, rfl⟩ |
    ⟨-, ht, k₁, table, hnew, rfl⟩
  · exact absurd hd hdir
  · exact Or.inl ⟨ht, rfl⟩
  · have hfresh := h.fresh ht k₁ table hnew
    obtain ⟨tempMem, rfl⟩ := newTable_of_oracle hnew
    exact Or.inr ⟨ht, table, tempMem, hfresh, rfl⟩

namespace Vmm

variable {v : Vmm} {dir va table frame : U32} {isKernel isWritable : Bool}

theorem EntriesMatch.installTable (h : v.EntriesMatch dir) (hne : table ≠ 0) (idx : Fin 1024) :
    (v.installTable dir idx table isKernel isWritable).EntriesMatch dir := by
  intro i
  by_cases hi : i = idx
  · simpa [Vmm.installTable, hi] using hne
  · rw [tables_installTable_of_ne _ _ _ _ _ _ hi, refTables_installTable, Function.update_of_ne hi]
    exact h i

theorem EntriesMatch.of_dirs {v' : Vmm} (h : v.EntriesMatch dir) (he : v'.dirs = v.dirs) :
    v'.EntriesMatch dir := by
  unfold EntriesMatch
  rw [he]
  exact h

end Vmm

/-- A page of the kernel that may not be written. -/
def kernelPage : MapCall := ⟨0x1000, 5, true, false, 0⟩

end PiggyOS
