import PiggyOS.Vmm.Basic

/-!
# Pages, one at a time and in loops

What a single page operation changes and what it leaves alone, and the two rules for the
loops over pages of `vmm_init`, `allocate_region` and `ksbrk`.

* `Vmm.tabs_fillEntry_of_ne`, `Vmm.tabs_installTable_of_ne`, `Vmm.tabs_freePage_of_ne` — an
  operation on one entry or one table leaves the others alone
* `Vmm.Filled` — pages mapped one after the other where there are tables
* `Kernel.pageLoop_invariant` — what the call for one page keeps, a loop over pages keeps
* `Kernel.pageLoop_total` — if the call for every page comes back, the loop does
-/

namespace PiggyOS

open Infra

namespace Vmm

variable (v : Vmm) (dir va table frame : U32) (idx : Fin 1024) (isKernel isWritable free : Bool)

/-! ## Filling an entry -/

/-- What `fillEntry` can have done. -/
theorem fillEntry_cases :
    ((v.tabs table idx).present = true ∧ v.fillEntry table idx frame isKernel isWritable = v) ∨
      ((v.tabs table idx).present = false ∧ ∃ pmm t, (frame ≠ 0 ∧ pmm = v.pmm ∧ t = frame ∨
          frame = 0 ∧ pmm = v.pmm.pmmAllocBlock.1 ∧ t = v.pmm.pmmAllocBlock.2 / pageSize) ∧
        v.fillEntry table idx frame isKernel isWritable = { v with
          pmm := pmm
          tabs := Function.update v.tabs table (Function.update (v.tabs table) idx
            { v.tabs table idx with
              frame := t.setWidth 20
              present := true
              rw := isWritable
              user := !isKernel }) }) := by
  unfold fillEntry
  by_cases hp : (v.tabs table idx).present = true
  · rw [if_pos hp]
    exact Or.inl ⟨hp, rfl⟩
  · rw [if_neg hp]
    refine Or.inr ⟨by simpa using hp, ?_⟩
    by_cases hf : frame ≠ 0
    · exact ⟨_, _, Or.inl ⟨hf, rfl, rfl⟩, by simp only [if_pos hf]⟩
    · exact ⟨_, _, Or.inr ⟨not_not.mp hf, rfl, rfl⟩, by simp only [if_neg hf]⟩

@[simp] theorem dirs_fillEntry :
    (v.fillEntry table idx frame isKernel isWritable).dirs = v.dirs := by
  rcases v.fillEntry_cases table frame idx isKernel isWritable with ⟨-, h⟩ | ⟨-, _, _, -, h⟩ <;>
    rw [h]

@[simp] theorem kernelPageDir_fillEntry :
    (v.fillEntry table idx frame isKernel isWritable).kernelPageDir = v.kernelPageDir := by
  rcases v.fillEntry_cases table frame idx isKernel isWritable with ⟨-, h⟩ | ⟨-, _, _, -, h⟩ <;>
    rw [h]

@[simp] theorem currentPageDir_fillEntry :
    (v.fillEntry table idx frame isKernel isWritable).currentPageDir = v.currentPageDir := by
  rcases v.fillEntry_cases table frame idx isKernel isWritable with ⟨-, h⟩ | ⟨-, _, _, -, h⟩ <;>
    rw [h]

@[simp] theorem tempMem_fillEntry :
    (v.fillEntry table idx frame isKernel isWritable).tempMem = v.tempMem := by
  rcases v.fillEntry_cases table frame idx isKernel isWritable with ⟨-, h⟩ | ⟨-, _, _, -, h⟩ <;>
    rw [h]

@[simp] theorem pagingEnabled_fillEntry :
    (v.fillEntry table idx frame isKernel isWritable).pagingEnabled = v.pagingEnabled := by
  rcases v.fillEntry_cases table frame idx isKernel isWritable with ⟨-, h⟩ | ⟨-, _, _, -, h⟩ <;>
    rw [h]

theorem present_fillEntry :
    ((v.fillEntry table idx frame isKernel isWritable).tabs table idx).present = true := by
  rcases v.fillEntry_cases table frame idx isKernel isWritable with ⟨hp, h⟩ | ⟨-, _, _, -, h⟩
  · rw [h, hp]
  · rw [h]
    simp

theorem tabs_fillEntry_of_ne {t : U32} {i : Fin 1024} (hne : ¬ (t = table ∧ i = idx)) :
    (v.fillEntry table idx frame isKernel isWritable).tabs t i = v.tabs t i := by
  rcases v.fillEntry_cases table frame idx isKernel isWritable with ⟨-, h⟩ | ⟨-, _, _, -, h⟩
  · rw [h]
  · rw [h]
    by_cases ht : t = table
    · subst ht
      have hi : i ≠ idx := fun hc => hne ⟨rfl, hc⟩
      simp [hi]
    · simp [ht]

variable {v table frame idx isKernel isWritable} in
theorem fillEntry_of_present (h : (v.tabs table idx).present = true) :
    v.fillEntry table idx frame isKernel isWritable = v := by
  unfold fillEntry
  exact if_pos h

theorem tabs_fillEntry_of_present {t : U32} {i : Fin 1024} (h : (v.tabs t i).present = true) :
    (v.fillEntry table idx frame isKernel isWritable).tabs t i = v.tabs t i := by
  by_cases hsame : t = table ∧ i = idx
  · obtain ⟨rfl, rfl⟩ := hsame
    rw [fillEntry_of_present h]
  · exact v.tabs_fillEntry_of_ne _ _ _ _ _ hsame

/-! ## Installing a table -/

@[simp] theorem pmm_installTable :
    (v.installTable dir idx table isKernel isWritable).pmm = v.pmm := rfl

@[simp] theorem kernelPageDir_installTable :
    (v.installTable dir idx table isKernel isWritable).kernelPageDir = v.kernelPageDir := rfl

@[simp] theorem tempMem_installTable :
    (v.installTable dir idx table isKernel isWritable).tempMem = v.tempMem := rfl

@[simp] theorem pagingEnabled_installTable :
    (v.installTable dir idx table isKernel isWritable).pagingEnabled = v.pagingEnabled := rfl

@[simp] theorem tabs_installTable_self :
    (v.installTable dir idx table isKernel isWritable).tabs table = zeroTable := by
  simp [installTable]

theorem tabs_installTable_of_ne {t : U32} (hne : t ≠ table) :
    (v.installTable dir idx table isKernel isWritable).tabs t = v.tabs t := by
  simp [installTable, hne]

@[simp] theorem refTables_installTable :
    ((v.installTable dir idx table isKernel isWritable).dirs dir).refTables =
      Function.update (v.dirs dir).refTables idx table := by
  simp [installTable]

theorem tables_installTable_of_ne {i : Fin 1024} (hne : i ≠ idx) :
    ((v.installTable dir idx table isKernel isWritable).dirs dir).tables i =
      (v.dirs dir).tables i := by
  simp [installTable, hne]

theorem present_installTable_self :
    (((v.installTable dir idx table isKernel isWritable).dirs dir).tables idx).present = true := by
  simp [installTable]

/-- Before paging the processor finds the table at its address minus `KERN_BASE`. -/
theorem tables_installTable_self (hpaging : v.pagingEnabled = false) :
    (((v.installTable dir idx table isKernel isWritable).dirs dir).tables idx).present = true ∧
      (((v.installTable dir idx table isKernel isWritable).dirs dir).tables idx).frame =
        ((table - kernBase) >>> 12).setWidth 20 := by
  simp [installTable, virt2phys, hpaging]

theorem dirs_installTable_of_ne {d : U32} (hne : d ≠ dir) :
    (v.installTable dir idx table isKernel isWritable).dirs d = v.dirs d := by
  simp [installTable, hne]

/-! ## Freeing a page -/

/-- What `free_page` can have done. -/
theorem freePage_cases :
    v.freePage dir va free = v ∨
      (dir ≠ bootPageDir ∧ v.tableOf dir va ≠ 0 ∧ (v.entry (v.tableOf dir va) va).present = true ∧
        v.freePage dir va free = { v with
          pmm := if free then
              v.pmm.pmmFreeBlock ((v.entry (v.tableOf dir va) va).frame.setWidth 32 * pageSize)
            else v.pmm
          tabs := Function.update v.tabs (v.tableOf dir va)
            (Function.update (v.tabs (v.tableOf dir va)) (pagetblIndex va)
              { v.entry (v.tableOf dir va) va with present := false, frame := 0 }) }) := by
  unfold freePage
  by_cases hd : dir = bootPageDir
  · exact Or.inl (if_pos hd)
  · rw [if_neg hd]
    by_cases ht : v.tableOf dir va = 0
    · exact Or.inl (if_pos ht)
    · rw [if_neg ht]
      by_cases hp : (v.entry (v.tableOf dir va) va).present = true
      · rw [if_neg (by simp [hp])]
        exact Or.inr ⟨hd, ht, hp, rfl⟩
      · exact Or.inl (if_pos (by simpa using hp))

@[simp] theorem dirs_freePage : (v.freePage dir va free).dirs = v.dirs := by
  rcases v.freePage_cases dir va free with h | ⟨-, -, -, h⟩ <;> rw [h]

@[simp] theorem kernelPageDir_freePage :
    (v.freePage dir va free).kernelPageDir = v.kernelPageDir := by
  rcases v.freePage_cases dir va free with h | ⟨-, -, -, h⟩ <;> rw [h]

theorem tabs_freePage_of_ne {t : U32} {i : Fin 1024}
    (hne : ¬ (t = v.tableOf dir va ∧ i = pagetblIndex va)) :
    (v.freePage dir va free).tabs t i = v.tabs t i := by
  rcases v.freePage_cases dir va free with h | ⟨-, -, -, h⟩
  · rw [h]
  · rw [h]
    by_cases ht : t = v.tableOf dir va
    · subst ht
      have hi : i ≠ pagetblIndex va := fun hc => hne ⟨rfl, hc⟩
      simp [hi]
    · simp [ht]

/-! ## Mapped pages -/

@[simp] theorem tableOf_fillEntry (t : U32) :
    (v.fillEntry t idx frame isKernel isWritable).tableOf dir va = v.tableOf dir va := by
  rw [tableOf, dirs_fillEntry, tableOf]

@[simp] theorem tableOf_freePage (va₀ : U32) :
    (v.freePage dir va₀ free).tableOf dir va = v.tableOf dir va := by
  rw [tableOf, dirs_freePage, tableOf]

theorem tableOf_congr {a b : U32} (h : a.toNat / 2 ^ 22 = b.toNat / 2 ^ 22) :
    v.tableOf dir a = v.tableOf dir b := by
  rw [tableOf, pagedirIndex_eq_iff.mpr h, tableOf]

/-- The page of `va` is present in the directory `dir`. -/
def Mapped (dir va : U32) : Prop :=
  v.tableOf dir va ≠ 0 ∧ (v.entry (v.tableOf dir va) va).present = true

/-- No two regions of the directory share a table. -/
def TablesDistinct (dir : U32) : Prop :=
  ∀ i j, (v.dirs dir).refTables i ≠ 0 → (v.dirs dir).refTables i = (v.dirs dir).refTables j →
    i = j

variable {v dir va table}

theorem Mapped.of_page {va₀ : U32} (h : v.Mapped dir va₀)
    (hpage : va.toNat / 4096 = va₀.toNat / 4096) : v.Mapped dir va := by
  obtain ⟨hdir, htbl⟩ := page_eq_iff.mpr hpage
  unfold Mapped tableOf entry
  rw [hdir, htbl]
  exact h

theorem Mapped.fillEntry (h : v.Mapped dir va) (t : U32) :
    (v.fillEntry t idx frame isKernel isWritable).Mapped dir va := by
  refine ⟨by simpa using h.1, ?_⟩
  rw [tableOf_fillEntry]
  by_cases hsame : v.tableOf dir va = t ∧ pagetblIndex va = idx
  · obtain ⟨rfl, rfl⟩ := hsame
    exact present_fillEntry _ _ _ _ _ _
  · exact (congrArg Page.present (v.tabs_fillEntry_of_ne _ _ _ _ _ hsame)).trans h.2

/-- `allocate_page` maps the page it is called for. -/
theorem mapped_fillEntry (ht : v.tableOf dir va ≠ 0) :
    (v.fillEntry (v.tableOf dir va) (pagetblIndex va) frame isKernel isWritable).Mapped dir va := by
  refine ⟨by simpa using ht, ?_⟩
  rw [tableOf_fillEntry]
  exact present_fillEntry _ _ _ _ _ _

theorem freePage_of_mapped (hdir : dir ≠ bootPageDir) (h : v.Mapped dir va) (free : Bool) :
    v.freePage dir va free = { v with
      pmm := if free then
          v.pmm.pmmFreeBlock ((v.entry (v.tableOf dir va) va).frame.setWidth 32 * pageSize)
        else v.pmm
      tabs := Function.update v.tabs (v.tableOf dir va)
        (Function.update (v.tabs (v.tableOf dir va)) (pagetblIndex va)
          { v.entry (v.tableOf dir va) va with present := false, frame := 0 }) } := by
  unfold freePage
  rw [if_neg hdir, if_neg h.1, if_neg (by simp [h.2])]
  rfl

theorem freePage_of_not_mapped (h : ¬ v.Mapped dir va) (free : Bool) :
    v.freePage dir va free = v := by
  rcases v.freePage_cases dir va free with he | ⟨-, ht, hp, -⟩
  · exact he
  · exact absurd ⟨ht, hp⟩ h

variable (v dir va table) in
theorem tableOf_installTable_self :
    (v.installTable dir (pagedirIndex va) table isKernel isWritable).tableOf dir va = table := by
  rw [tableOf, refTables_installTable, Function.update_self]

/-- A new table for a region without one leaves the mapped pages alone. -/
theorem Mapped.installTable (h : v.Mapped dir va) {va₀ : U32} (hnone : v.tableOf dir va₀ = 0)
    (hfresh : ∀ i, (v.dirs dir).refTables i ≠ table) :
    (v.installTable dir (pagedirIndex va₀) table isKernel isWritable).Mapped dir va := by
  have hidx : pagedirIndex va ≠ pagedirIndex va₀ := fun hc => h.1 (by rw [tableOf, hc]; exact hnone)
  have htable : (v.installTable dir (pagedirIndex va₀) table isKernel isWritable).tableOf dir va =
      v.tableOf dir va := by
    rw [tableOf, refTables_installTable, Function.update_of_ne hidx, tableOf]
  refine ⟨by rw [htable]; exact h.1, ?_⟩
  have hne : v.tableOf dir va ≠ table := hfresh _
  rw [htable, entry, tabs_installTable_of_ne _ _ _ _ _ _ hne]
  exact h.2

theorem TablesDistinct.of_dirs {v' : Vmm} (h : v.TablesDistinct dir) (he : v'.dirs = v.dirs) :
    v'.TablesDistinct dir := by
  unfold TablesDistinct
  rw [he]
  exact h

theorem TablesDistinct.installTable (h : v.TablesDistinct dir)
    (hfresh : ∀ i, (v.dirs dir).refTables i ≠ table) :
    (v.installTable dir idx table isKernel isWritable).TablesDistinct dir := by
  intro i j hi hij
  rw [refTables_installTable] at hi hij
  by_cases hidx : i = idx
  · by_cases hjdx : j = idx
    · rw [hidx, hjdx]
    · rw [hidx, Function.update_self, Function.update_of_ne hjdx] at hij
      exact absurd hij.symm (hfresh j)
  · rw [Function.update_of_ne hidx] at hi hij
    by_cases hjdx : j = idx
    · rw [hjdx, Function.update_self] at hij
      exact absurd hij (hfresh i)
    · rw [Function.update_of_ne hjdx] at hij
      exact h i j hi hij

/-- Freeing a page leaves the other pages alone. -/
theorem Mapped.freePage (h : v.Mapped dir va) (hdistinct : v.TablesDistinct dir) {va₀ : U32}
    (hne : va.toNat / 4096 ≠ va₀.toNat / 4096) : (v.freePage dir va₀ free).Mapped dir va := by
  refine ⟨by simpa using h.1, ?_⟩
  rw [tableOf_freePage]
  refine (congrArg Page.present (v.tabs_freePage_of_ne dir va₀ free ?_)).trans h.2
  rintro ⟨htable, hentry⟩
  have hdir := hdistinct _ _ h.1 htable
  exact hne (page_eq_iff.mp ⟨hdir, hentry⟩)

/-! ## Pages mapped one after the other -/

/-- The pages from `lo` to `hi` have been mapped in the kernel's directory, which has their
tables: their entries are filled where they were not present, and nothing else has changed. -/
structure Filled (v v' : Vmm) (lo hi : Nat) : Prop where
  dirs : v'.dirs = v.dirs
  kernelPageDir : v'.kernelPageDir = v.kernelPageDir
  currentPageDir : v'.currentPageDir = v.currentPageDir
  mapped : ∀ a : U32, lo ≤ a.toNat → a.toNat < hi → v'.Mapped v'.kernelPageDir a
  present : ∀ t i, (v.tabs t i).present = true → v'.tabs t i = v.tabs t i
  apart : ∀ t i, (∀ a : U32, lo ≤ a.toNat → a.toNat < hi →
    ¬ (t = v.tableOf v.kernelPageDir a ∧ i = pagetblIndex a)) → v'.tabs t i = v.tabs t i

namespace Filled

variable {v v' : Vmm} {lo hi : Nat}

theorem of_le (v : Vmm) (hle : hi ≤ lo) : v.Filled v lo hi :=
  ⟨rfl, rfl, rfl, fun _ hlo hhi => absurd hlo (by omega), fun _ _ _ => rfl, fun _ _ _ => rfl⟩

theorem tableOf (h : v.Filled v' lo hi) (a : U32) :
    v'.tableOf v'.kernelPageDir a = v.tableOf v.kernelPageDir a := by
  rw [Vmm.tableOf, h.dirs, h.kernelPageDir, Vmm.tableOf]

/-- The next page. -/
theorem next {i : U32} (h : v.Filled v' lo i.toNat) (hal : i.toNat % 4096 = 0)
    (hi : i.toNat + 4096 < 2 ^ 32) (hle : lo ≤ i.toNat)
    (ht : v.tableOf v.kernelPageDir i ≠ 0) (frame : U32) (isKernel isWritable : Bool) :
    v.Filled (v'.fillEntry (v'.tableOf v'.kernelPageDir i) (pagetblIndex i) frame isKernel
      isWritable) lo (i + pageSize).toNat := by
  have hnext := toNat_add_pageSize hi
  refine ⟨(dirs_fillEntry ..).trans h.dirs, (kernelPageDir_fillEntry ..).trans h.kernelPageDir,
    (currentPageDir_fillEntry ..).trans h.currentPageDir, ?_, ?_, ?_⟩
  · intro a hlo hhi
    rw [kernelPageDir_fillEntry]
    by_cases hlt : a.toNat < i.toNat
    · exact (h.mapped a hlo hlt).fillEntry _ _ _ _ _
    · have hmapped := mapped_fillEntry frame isKernel isWritable ((h.tableOf i).trans_ne ht)
      exact hmapped.of_page (by omega)
  · intro t j hp
    have hkeep := h.present t j hp
    rw [tabs_fillEntry_of_present _ _ _ _ _ _ (hkeep ▸ hp), hkeep]
  · intro t j hout
    have hne := hout i hle (by omega)
    rw [← h.tableOf i] at hne
    rw [tabs_fillEntry_of_ne _ _ _ _ _ _ hne]
    exact h.apart t j fun a hlo hhi => hout a hlo (by omega)

/-- A page boundary is reached with the last byte below it. -/
theorem of_bound {bound : Nat} (h : v.Filled v' lo hi) (hlo : lo % 4096 = 0) (hal : hi % 4096 = 0)
    (hge : bound ≤ hi) (hrange : hi = lo ∨ hi < bound + 4096) : v.Filled v' lo bound := by
  refine ⟨h.dirs, h.kernelPageDir, h.currentPageDir,
    fun a hlo hhi => h.mapped a hlo (by omega), h.present, fun t j hout => ?_⟩
  refine h.apart t j fun a halo hahi ⟨ht, hj⟩ => ?_
  -- the first byte of the page is below the bound
  obtain ⟨b, hb⟩ : ∃ b : U32, b.toNat = a.toNat / 4096 * 4096 :=
    ⟨BitVec.ofNat 32 (a.toNat / 4096 * 4096), by
      rw [BitVec.toNat_ofNat]
      exact Nat.mod_eq_of_lt (by omega)⟩
  have hpage := page_eq_iff.mpr (show b.toNat / 4096 = a.toNat / 4096 by omega)
  refine hout b (by omega) (by omega) ⟨?_, ?_⟩
  · rw [ht, Vmm.tableOf, Vmm.tableOf, hpage.1]
  · rw [hj, hpage.2]

end Filled

end Vmm

/-! ## Page loops -/

namespace Kernel

variable {kmallocA : TableSource} {k k' : Kernel} {start runner : U32}

section PageLoop

/-! The loops over pages differ in their test and in the call they make; the test is always
whether the page is below a bound. -/

variable {cond : U32 → Bool} {body : Kernel → U32 → Option Kernel} {bound : Nat}

/-- The step of a loop over pages: the next page, still below the top of the address space. -/
theorem page_step {i : U32} (hal : i.toNat % 4096 = 0) (hbound : bound ≤ 0xFFFFF000)
    (hlt : i.toNat < bound) : (i + pageSize).toNat = i.toNat + 4096 :=
  toNat_add_pageSize (by omega)

/-- What the call for one page keeps, the loop keeps. It leaves at the first page boundary
that is not below the bound. -/
theorem pageLoop_invariant (P : Kernel → U32 → Prop) (h0 : P k start)
    (hcond : ∀ i, cond i = true ↔ i.toNat < bound) (hstart : start.toNat % 4096 = 0)
    (hbound : bound ≤ 0xFFFFF000)
    (hpage : ∀ (k₁ k₂ : Kernel) (i : U32), i.toNat % 4096 = 0 → start.toNat ≤ i.toNat →
      i.toNat < bound → P k₁ i → body k₁ i = some k₂ → P k₂ (i + pageSize))
    (h : loop (fun s : Kernel × U32 => cond s.2)
      (fun s => (body s.1 s.2).map (·, s.2 + pageSize)) (pageCount + 1) (k, start)
        = some (k', runner)) :
    P k' runner ∧ runner.toNat % 4096 = 0 ∧ bound ≤ runner.toNat ∧
      start.toNat ≤ runner.toNat ∧ (runner = start ∨ runner.toNat < bound + 4096) := by
  let Inv : Kernel × U32 → Prop := fun s => P s.1 s.2 ∧ s.2.toNat % 4096 = 0 ∧
    start.toNat ≤ s.2.toNat ∧ (s.2 = start ∨ s.2.toNat < bound + 4096)
  have hbody : ∀ s s', Inv s → cond s.2 = true →
      (body s.1 s.2).map (·, s.2 + pageSize) = some s' → Inv s' := by
    rintro ⟨k₁, i⟩ ⟨k₂, j⟩ ⟨hP, hal, hle, -⟩ hc hb
    obtain ⟨k₃, hk, he⟩ := Option.map_eq_some_iff.mp hb
    cases he
    dsimp only at hP hal hle hk
    have hlt := (hcond i).mp hc
    have hnext := page_step hal hbound hlt
    refine ⟨hpage k₁ k₂ i hal hle hlt hP hk, ?_, ?_, Or.inr ?_⟩
    all_goals dsimp only; omega
  obtain ⟨⟨hP, hal, hle, hrange⟩, hexit⟩ := loop_invariant Inv hbody _ _ _
    ⟨h0, hstart, Nat.le_refl _, Or.inl rfl⟩ h
  refine ⟨hP, hal, Nat.le_of_not_lt fun hc => ?_, hle, hrange⟩
  rw [(hcond runner).mpr hc] at hexit
  cases hexit

/-- If the call for every page comes back, the loop does. -/
theorem pageLoop_total (P : Kernel → U32 → Prop) (h0 : P k start)
    (hcond : ∀ i, cond i = true ↔ i.toNat < bound) (hstart : start.toNat % 4096 = 0)
    (hbound : bound ≤ 0xFFFFF000)
    (hpage : ∀ (k₁ : Kernel) (i : U32), i.toNat % 4096 = 0 → start.toNat ≤ i.toNat →
      i.toNat < bound → P k₁ i → ∃ k₂, body k₁ i = some k₂ ∧ P k₂ (i + pageSize)) :
    ∃ k' runner, loop (fun s : Kernel × U32 => cond s.2)
        (fun s => (body s.1 s.2).map (·, s.2 + pageSize)) (pageCount + 1) (k, start)
          = some (k', runner) ∧
      P k' runner ∧ runner.toNat % 4096 = 0 ∧ bound ≤ runner.toNat ∧
      start.toNat ≤ runner.toNat ∧ (runner = start ∨ runner.toNat < bound + 4096) := by
  let Inv : Kernel × U32 → Prop := fun s => P s.1 s.2 ∧ s.2.toNat % 4096 = 0 ∧
    start.toNat ≤ s.2.toNat
  have hbody : ∀ s : Kernel × U32, Inv s → cond s.2 = true → ∃ s',
      (body s.1 s.2).map (·, s.2 + pageSize) = some s' ∧ Inv s' ∧
      pageCount - s'.2.toNat / 4096 < pageCount - s.2.toNat / 4096 := by
    rintro ⟨k₁, i⟩ ⟨hP, hal, hle⟩ hc
    dsimp only at hP hal hle ⊢
    have hlt := (hcond i).mp hc
    have hnext := page_step hal hbound hlt
    obtain ⟨k₂, hk, hP'⟩ := hpage k₁ i hal hle hlt hP
    refine ⟨(k₂, i + pageSize), by rw [hk]; rfl, ⟨hP', ?_, ?_⟩, ?_⟩
    all_goals dsimp only
    · omega
    · omega
    · have : pageCount = 1048576 := rfl
      omega
  obtain ⟨⟨k', runner⟩, hloop, -, -⟩ :=
    loop_total Inv (fun s => pageCount - s.2.toNat / 4096) hbody (pageCount + 1) (k, start)
      ⟨h0, hstart, Nat.le_refl _⟩ (by omega)
  refine ⟨k', runner, hloop, pageLoop_invariant P h0 hcond hstart hbound ?_ hloop⟩
  intro k₁ k₂ i hal hle hlt hP hk
  obtain ⟨k₃, hk', hP'⟩ := hpage k₁ i hal hle hlt hP
  rw [hk] at hk'
  cases hk'
  exact hP'

end PageLoop

variable {isWritable : Bool} {bound : U32}

theorem allocatePages_invariant (P : Kernel → U32 → Prop) (h0 : P k start)
    (hstart : start.toNat % 4096 = 0) (hbound : bound.toNat ≤ 0xFFFFF000)
    (hpage : ∀ (k₁ k₂ : Kernel) (i : U32), i.toNat % 4096 = 0 → start.toNat ≤ i.toNat →
      i.toNat < bound.toNat → P k₁ i →
      k₁.allocatePage kmallocA k₁.vmm.kernelPageDir i 0 true isWritable = some k₂ →
      P k₂ (i + pageSize))
    (h : k.allocatePages kmallocA isWritable bound start = some (k', runner)) :
    P k' runner ∧ runner.toNat % 4096 = 0 ∧ bound.toNat ≤ runner.toNat ∧
      start.toNat ≤ runner.toNat ∧ (runner = start ∨ runner.toNat < bound.toNat + 4096) :=
  pageLoop_invariant P h0 (fun _ => decide_eq_true_iff) hstart hbound hpage h

theorem allocatePages_total (P : Kernel → U32 → Prop) (h0 : P k start)
    (hstart : start.toNat % 4096 = 0) (hbound : bound.toNat ≤ 0xFFFFF000)
    (hpage : ∀ (k₁ : Kernel) (i : U32), i.toNat % 4096 = 0 → start.toNat ≤ i.toNat →
      i.toNat < bound.toNat → P k₁ i → ∃ k₂,
      k₁.allocatePage kmallocA k₁.vmm.kernelPageDir i 0 true isWritable = some k₂ ∧
      P k₂ (i + pageSize)) :
    ∃ k' runner, k.allocatePages kmallocA isWritable bound start = some (k', runner) ∧
      P k' runner ∧ runner.toNat % 4096 = 0 ∧ bound.toNat ≤ runner.toNat ∧
      start.toNat ≤ runner.toNat ∧ (runner = start ∨ runner.toNat < bound.toNat + 4096) :=
  pageLoop_total P h0 (fun _ => decide_eq_true_iff) hstart hbound hpage

theorem allocateRegion_total {dir startVa endVa : U32} {idenMap isKernel : Bool}
    (P : Kernel → U32 → Prop) (h0 : P k (startVa &&& 0xfffff000))
    (hend : (endVa &&& 0xfffff000).toNat < 0xFFFFF000)
    (hpage : ∀ (k₁ : Kernel) (i : U32), i.toNat % 4096 = 0 →
      (startVa &&& 0xfffff000).toNat ≤ i.toNat → i.toNat ≤ (endVa &&& 0xfffff000).toNat →
      P k₁ i → ∃ k₂, k₁.allocatePage kmallocA dir i (if idenMap then i / pageSize else 0)
        isKernel isWritable = some k₂ ∧ P k₂ (i + pageSize)) :
    ∃ k' runner, k.allocateRegion kmallocA dir startVa endVa idenMap isKernel isWritable
        = some k' ∧ P k' runner ∧ runner.toNat % 4096 = 0 ∧
      (endVa &&& 0xfffff000).toNat < runner.toNat ∧
      (runner = startVa &&& 0xfffff000 ∨
        runner.toNat ≤ (endVa &&& 0xfffff000).toNat + 4096) := by
  have hstart := toNat_and_pageMask_mod startVa
  have hcond : ∀ i : U32, decide (i ≤ endVa &&& 0xfffff000) = true ↔
      i.toNat < (endVa &&& 0xfffff000).toNat + 1 :=
    fun _ => decide_eq_true_iff.trans Nat.lt_succ_iff.symm
  obtain ⟨k', runner, hloop, hP, hal, hge, -, hrange⟩ :=
    pageLoop_total P h0 hcond hstart (by omega)
      (fun k₁ i hal hle hlt hP => hpage k₁ i hal hle (Nat.lt_succ_iff.mp hlt) hP)
  refine ⟨k', runner, ?_, hP, hal, by omega, hrange.imp_right fun h => by omega⟩
  unfold allocateRegion
  rw [hloop]
  rfl

end Kernel

end PiggyOS
