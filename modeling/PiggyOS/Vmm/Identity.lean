import PiggyOS.Infra.Run
import PiggyOS.Vmm.Regions
import PiggyOS.Vmm.Translate

/-!
# Identity mappings (`allocate_region` with `iden_map`)

`allocate_region` asks for the frame of the same number as the page. The number of the first page
is 0, and `allocate_page` takes a frame of 0 for a request for any block of the memory manager.

* `identity_of_run` — what a sequence of such calls leaves, as long as no two pages are one entry
* `identity_iff` — for a region, with the exact condition on page 0
-/

namespace PiggyOS

open Infra

namespace Vmm

variable {v v' : Vmm} {dir va x a b p : U32} {isKernel isWritable : Bool} {pages : List U32}

/-! ## The calls one after the other -/

/-- `allocate_page(dir, va, va / PAGE_SIZE, …)` -/
def IdentityStep (dir : U32) (isKernel isWritable : Bool) (v : Vmm) (va : U32) (v' : Vmm) : Prop :=
  v.Allocates dir va (va / pageSize) isKernel isWritable v'

/-- No two of the pages that are not mapped are the same entry. -/
def Separate (v : Vmm) (dir : U32) (pages : List U32) : Prop :=
  ∀ p ∈ pages, ∀ q ∈ pages, v.frameOf dir p = none → v.SameEntry dir p q → p = q

theorem run_sameEntry_iff (h : Run (IdentityStep dir isKernel isWritable) v pages v') :
    v'.SameEntry dir a b ↔ v.SameEntry dir a b :=
  h.invariant (fun u => u.SameEntry dir a b ↔ v.SameEntry dir a b)
    (fun _ _ _ hu hstep => hstep.sameEntry_iff.trans hu) Iff.rfl

theorem run_frameOf_of_some {f : BitVec 20}
    (h : Run (IdentityStep dir isKernel isWritable) v pages v')
    (hx : v.frameOf dir x = some f) : v'.frameOf dir x = some f :=
  h.invariant (fun u => u.frameOf dir x = some f)
    (fun _ _ _ hu hstep => hstep.frameOf_of_some hu) hx

/-- A page is left alone unless the call is for one that is the same entry. -/
theorem run_frameOf_of_not (h : Run (IdentityStep dir isKernel isWritable) v pages v')
    (hx : ∀ p ∈ pages, ¬ (v.frameOf dir p = none ∧ v.SameEntry dir x p)) :
    v'.frameOf dir x = v.frameOf dir x := by
  induction h with
  | nil => rfl
  | @snoc u v' pages va hrun hstep ih =>
    refine (hstep.frameOf_of_not ?_).trans (ih fun p hp => hx p (List.mem_append_left _ hp))
    rintro ⟨hnone, hsame⟩
    refine hx va (by simp) ⟨?_, (run_sameEntry_iff hrun).mp hsame⟩
    cases hva : v.frameOf dir va with
    | none => rfl
    | some f =>
      rw [run_frameOf_of_some hrun hva] at hnone
      cases hnone

/-- The next page is as it was at the start. -/
theorem run_frameOf_next (h : Run (IdentityStep dir isKernel isWritable) v pages v')
    (hsep : v.Separate dir (pages ++ [va])) (hnew : va ∉ pages) :
    v'.frameOf dir va = v.frameOf dir va := by
  refine run_frameOf_of_not h fun p hp => ?_
  rintro ⟨hnone, hsame⟩
  exact hnew (hsep p (List.mem_append_left _ hp) va (by simp) hnone hsame.symm ▸ hp)

theorem Separate.left {before after : List U32} (h : v.Separate dir (before ++ after)) :
    v.Separate dir before :=
  fun p hp q hq => h p (List.mem_append_left _ hp) q (List.mem_append_left _ hq)

theorem div_pageSize_eq_zero_iff (hal : va.toNat % 4096 = 0) : va / pageSize = 0 ↔ va = 0 := by
  rw [← BitVec.toNat_inj, ← BitVec.toNat_inj, BitVec.toNat_udiv, pageSize_toNat]
  show va.toNat / 4096 = 0 ↔ va.toNat = 0
  omega

/-- **A block is taken for page 0 alone.** -/
theorem pmm_of_run (h : Run (IdentityStep dir isKernel isWritable) v pages v')
    (hal : ∀ p ∈ pages, p.toNat % 4096 = 0) (hsep : v.Separate dir pages) (hnodup : pages.Nodup) :
    v'.pmm = if 0 ∈ pages ∧ v.frameOf dir 0 = none then v.pmm.pmmAllocBlock.1 else v.pmm := by
  induction h with
  | nil => simp
  | @snoc u v' pages va hrun hstep ih =>
    rw [← List.concat_eq_append, List.nodup_concat] at hnodup
    obtain ⟨hnew, hnodup⟩ := hnodup
    have hu := ih (fun p hp => hal p (List.mem_append_left _ hp)) hsep.left hnodup
    rw [hstep.pmm_eq, run_frameOf_next hrun hsep hnew]
    by_cases hva : va = 0
    · subst hva
      rw [hu.trans (if_neg fun hc => hnew hc.1)]
      refine if_congr ⟨fun hc => ⟨?_, hc.1⟩, fun hc => ⟨hc.2, rfl⟩⟩ rfl rfl
      exact List.mem_append_right _ (List.mem_singleton_self _)
    · rw [hu, if_neg fun hc => hva ((div_pageSize_eq_zero_iff (hal va (by simp))).mp hc.2)]
      refine if_congr (and_congr_left' ⟨List.mem_append_left _, fun hc => ?_⟩) rfl rfl
      exact (List.mem_append.mp hc).resolve_right fun h => hva (List.mem_singleton.mp h).symm

/-- **Each page gets the frame of its number**, page 0 what the memory manager answers. -/
theorem identity_of_run (h : Run (IdentityStep dir isKernel isWritable) v pages v')
    (hal : ∀ p ∈ pages, p.toNat % 4096 = 0) (hsep : v.Separate dir pages) (hnodup : pages.Nodup)
    (hp : p ∈ pages) (hnone : v.frameOf dir p = none) :
    v'.frameOf dir p = some (v.newFrame (p / pageSize)) := by
  induction h with
  | nil => cases hp
  | @snoc u v' pages va hrun hstep ih =>
    rw [← List.concat_eq_append, List.nodup_concat] at hnodup
    obtain ⟨hnew, hnodup⟩ := hnodup
    have hal' : ∀ p ∈ pages, p.toNat % 4096 = 0 := fun p hp => hal p (List.mem_append_left _ hp)
    rcases List.mem_append.mp hp with hold | hlast
    · exact hstep.frameOf_of_some (ih hal' hsep.left hnodup hold)
    · obtain rfl : p = va := by simpa using hlast
      have hnext := (run_frameOf_next hrun hsep hnew).trans hnone
      rw [hstep.frameOf_self hnext (Or.inl rfl)]
      by_cases h0 : p / pageSize = 0
      · have hpmm := pmm_of_run hrun hal' hsep.left hnodup
        rw [if_neg fun hc => hnew ((div_pageSize_eq_zero_iff (hal p hp)).mp h0 ▸ hc.1)] at hpmm
        unfold newFrame
        rw [hpmm]
      · unfold newFrame
        rw [if_pos h0, if_pos h0]

end Vmm

/-! ## A region -/

namespace Kernel

variable {kmallocA : TableSource} {k k' : Kernel} {dir va startVa endVa : U32}
  {isKernel isWritable : Bool} {pages : List U32}

/-- `allocate_page(dir, va, va / PAGE_SIZE, …)` -/
def identityPage (kmallocA : TableSource) (dir : U32) (isKernel isWritable : Bool) (k : Kernel)
    (va : U32) : Option Kernel :=
  k.allocatePage kmallocA dir va (va / pageSize) isKernel isWritable

/-- A table for the page of `va` comes from elsewhere: it is no page table yet, and taking it
changes nothing but `temp_mem` among the variables of `vmm.c` and `pmm.c`. -/
def TableElsewhere (kmallocA : TableSource) (dir va : U32) (k : Kernel) : Prop :=
  k.vmm.tableOf dir va = 0 → ∃ k₁ table tempMem, k.newTable kmallocA = some (k₁, table) ∧
    k₁.vmm = { k.vmm with tempMem := tempMem } ∧ k.vmm.FreshTable table

/-- All tables for the pages do. -/
def TablesElsewhere (kmallocA : TableSource) (dir : U32) (isKernel isWritable : Bool) (k : Kernel)
    (pages : List U32) : Prop :=
  ∀ before va after k₁, pages = before ++ va :: after →
    before.foldlM (identityPage kmallocA dir isKernel isWritable) k = some k₁ →
    k₁.TableElsewhere kmallocA dir va

theorem TableElsewhere.exists_identityPage (h : k.TableElsewhere kmallocA dir va) (hdir : dir ≠ 0)
    (isKernel isWritable : Bool) :
    ∃ k', k.identityPage kmallocA dir isKernel isWritable va = some k' ∧
      Vmm.IdentityStep dir isKernel isWritable k.vmm va k'.vmm := by
  unfold identityPage allocatePage
  rw [if_neg hdir]
  by_cases ht : k.vmm.tableOf dir va = 0
  · obtain ⟨k₁, table, tempMem, hnew, hvmm, hfresh⟩ := h ht
    rw [if_pos ht, hnew]
    refine ⟨_, rfl, Or.inr ⟨ht, table, tempMem, hfresh, ?_⟩⟩
    rw [← hvmm]
  · rw [if_neg ht]
    exact ⟨_, rfl, Or.inl ⟨ht, rfl⟩⟩

/-- The calls for the pages come back. -/
theorem TablesElsewhere.exists_run (h : TablesElsewhere kmallocA dir isKernel isWritable k pages)
    (hdir : dir ≠ 0) {before after : List U32} (hpages : pages = before ++ after) :
    ∃ k', before.foldlM (identityPage kmallocA dir isKernel isWritable) k = some k' ∧
      Run (Vmm.IdentityStep dir isKernel isWritable) k.vmm before k'.vmm := by
  induction before using List.reverseRecOn generalizing after with
  | nil => exact ⟨k, rfl, .nil _⟩
  | append_singleton before va ih =>
    rw [List.append_assoc] at hpages
    obtain ⟨k₁, hfold, hrun⟩ := ih hpages
    obtain ⟨k', hk', hstep⟩ :=
      (h before va after k₁ hpages hfold).exists_identityPage hdir isKernel isWritable
    refine ⟨k', ?_, .snoc hrun hstep⟩
    rw [List.foldlM_append, hfold]
    simpa using hk'

/-- A directory that has all tables takes none. -/
theorem tablesElsewhere_of_tables (h : ∀ va ∈ pages, k.vmm.tableOf dir va ≠ 0) :
    TablesElsewhere kmallocA dir isKernel isWritable k pages := by
  rintro before va after k₁ rfl hfold hnone
  have hdirs : k₁.vmm.dirs = k.vmm.dirs := by
    induction before generalizing k with
    | nil =>
      cases hfold
      rfl
    | cons p before ih =>
      rw [List.foldlM_cons] at hfold
      obtain ⟨k₂, hk₂, hfold⟩ := Option.bind_eq_some_iff.mp hfold
      have hstep : k₂.vmm.dirs = k.vmm.dirs := by
        rcases allocatePage_cases hk₂ with ⟨-, rfl⟩ | ⟨-, -, rfl⟩ | ⟨-, ht, -⟩
        · rfl
        · exact Vmm.dirs_fillEntry _ _ _ _ _ _
        · exact absurd ht (h p (by simp))
      refine (ih (fun q hq => ?_) hfold).trans hstep
      unfold Vmm.tableOf
      rw [hstep]
      exact h q (List.mem_cons_of_mem _ hq)
  unfold Vmm.tableOf at hnone
  rw [hdirs] at hnone
  exact absurd hnone (h va (by simp))

theorem allocateRegion_identity (hend : regionEnds endVa = true) :
    k.allocateRegion kmallocA dir startVa endVa true isKernel isWritable =
      (regionPages startVa endVa).foldlM (identityPage kmallocA dir isKernel isWritable) k :=
  allocateRegion_eq_foldlM hend

end Kernel

section

variable {v : Vmm} {dir startVa endVa va a b : U32}

/-- The page of `va` is one of the pages from the page of `startVa` to the page of `endVa`. -/
def InRegion (startVa endVa va : U32) : Prop :=
  startVa.toNat / 4096 ≤ va.toNat / 4096 ∧ va.toNat / 4096 ≤ endVa.toNat / 4096

theorem and_mem_regionPages_iff :
    (va &&& 0xfffff000) ∈ regionPages startVa endVa ↔ InRegion startVa endVa va := by
  unfold InRegion
  rw [mem_regionPages, toNat_and_pageMask, toNat_and_pageMask, toNat_and_pageMask]
  omega

theorem sameEntry_page (v : Vmm) (dir va : U32) : v.SameEntry dir va (va &&& 0xfffff000) := by
  refine Or.inl ?_
  rw [toNat_and_pageMask]
  omega

theorem separate_regionPages : v.Separate dir (regionPages startVa endVa) ↔
    ∀ a b, InRegion startVa endVa a → InRegion startVa endVa b → ¬ v.Mapped dir a →
      v.SameEntry dir a b → a.toNat / 4096 = b.toNat / 4096 := by
  constructor
  · intro h a b ha hb habsent hsame
    have hnone : v.frameOf dir (a &&& 0xfffff000) = none :=
      (sameEntry_page v dir a).frameOf_eq.symm.trans (Vmm.frameOf_eq_none_iff.mpr habsent)
    have heq := h _ (and_mem_regionPages_iff.mpr ha) _ (and_mem_regionPages_iff.mpr hb) hnone
      ((sameEntry_page v dir a).symm.trans (hsame.trans (sameEntry_page v dir b)))
    have hnat := congrArg BitVec.toNat heq
    rw [toNat_and_pageMask, toNat_and_pageMask] at hnat
    omega
  · intro h p hp q hq hnone hsame
    obtain ⟨hpal, hp⟩ := mem_regionPages.mp hp
    obtain ⟨hqal, hq⟩ := mem_regionPages.mp hq
    rw [toNat_and_pageMask, toNat_and_pageMask] at hp hq
    have hpage := h p q ⟨by omega, by omega⟩ ⟨by omega, by omega⟩
      (Vmm.frameOf_eq_none_iff.mp hnone) hsame
    exact BitVec.eq_of_toNat_eq (by omega)

/-- The pages of a region that one table covers are different entries. -/
theorem separate_of_one_table (v : Vmm) (dir : U32)
    (h : startVa.toNat / 2 ^ 22 = endVa.toNat / 2 ^ 22) :
    v.Separate dir (regionPages startVa endVa) := by
  refine separate_regionPages.mpr fun a b ha hb _ hsame => ?_
  have hidx := congrArg Fin.val hsame.table_eq.2
  rw [pagetblIndex_val, pagetblIndex_val] at hidx
  unfold InRegion at ha hb
  omega

variable {v' : Vmm} {isKernel isWritable : Bool}

theorem zero_mem_regionPages : 0 ∈ regionPages startVa endVa ↔ startVa.toNat / 4096 = 0 := by
  rw [mem_regionPages, toNat_and_pageMask]
  show 0 % 4096 = 0 ∧ startVa.toNat / 4096 * 4096 ≤ 0 ∧ 0 ≤ (endVa &&& 0xfffff000).toNat ↔ _
  omega

/-- Pages that are translated to themselves are not the same entry. -/
theorem separate_of_identity
    (hrun : Run (Vmm.IdentityStep dir isKernel isWritable) v (regionPages startVa endVa) v')
    (hid : ∀ va, InRegion startVa endVa va → ¬ v.Mapped dir va →
      v'.enablePaging.virt2phys dir va = va) :
    v.Separate dir (regionPages startVa endVa) := by
  refine separate_regionPages.mpr fun a b ha hb habsent hsame => ?_
  have habsent' : ¬ v.Mapped dir b := by
    rw [← Vmm.frameOf_eq_none_iff, ← hsame.frameOf_eq]
    exact Vmm.frameOf_eq_none_iff.mpr habsent
  have ha' := Vmm.virt2phys_enablePaging.symm.trans (hid a ha habsent)
  have hb' := Vmm.virt2phys_enablePaging.symm.trans (hid b hb habsent')
  rw [((Vmm.run_sameEntry_iff hrun).mpr hsame).frameOf_eq] at ha'
  cases hf : v'.frameOf dir b with
  | none =>
    rw [hf] at ha' hb'
    rw [← ha', ← hb']
    rfl
  | some f =>
    rw [hf] at ha' hb'
    have hanat := (toNat_physical f a).symm.trans (congrArg BitVec.toNat ha')
    have hbnat := (toNat_physical f b).symm.trans (congrArg BitVec.toNat hb')
    omega

/-- Only page 0 takes a block. -/
theorem pmm_of_region
    (hrun : Run (Vmm.IdentityStep dir isKernel isWritable) v (regionPages startVa endVa) v')
    (hsep : v.Separate dir (regionPages startVa endVa)) :
    (startVa.toNat / 4096 = 0 ∧ ¬ v.Mapped dir 0 → v'.pmm = v.pmm.pmmAllocBlock.1) ∧
      (¬ (startVa.toNat / 4096 = 0 ∧ ¬ v.Mapped dir 0) → v'.pmm = v.pmm) := by
  have hpmm := Vmm.pmm_of_run hrun (fun p hp => (mem_regionPages.mp hp).1) hsep
    (nodup_regionPages startVa endVa)
  rw [← Vmm.frameOf_eq_none_iff, ← @zero_mem_regionPages startVa endVa]
  exact ⟨fun h => hpmm.trans (if_pos h), fun h => hpmm.trans (if_neg h)⟩

/-- The frame of a new page has the number of the page. -/
theorem toNat_newFrame (hin : InRegion startVa endVa va) (habsent : ¬ v.Mapped dir va)
    (hzero : startVa.toNat / 4096 = 0 → v.Mapped dir 0 ∨ v.pmm.NoneLeft) :
    (v.newFrame ((va &&& 0xfffff000) / pageSize)).toNat = va.toNat / 4096 := by
  have hdiv : ((va &&& 0xfffff000) / pageSize).toNat = va.toNat / 4096 := by
    rw [BitVec.toNat_udiv, toNat_and_pageMask, pageSize_toNat]
    omega
  have hlt := va.isLt
  unfold Vmm.newFrame
  rw [BitVec.toNat_setWidth]
  by_cases h0 : (va &&& 0xfffff000) / pageSize = 0
  · have hva : va.toNat / 4096 = 0 := by
      rw [← hdiv, h0]
      rfl
    have hsame : v.SameEntry dir va 0 := Or.inl hva
    have habsent0 : ¬ v.Mapped dir 0 := by
      rw [← Vmm.frameOf_eq_none_iff, ← hsame.frameOf_eq]
      exact Vmm.frameOf_eq_none_iff.mpr habsent
    have hleft := (hzero (Nat.le_zero.mp (hva ▸ hin.1))).resolve_left habsent0
    rw [if_neg (not_not.mpr h0), hleft.block_eq, hva]
    rfl
  · rw [if_pos h0, hdiv, Nat.mod_eq_of_lt (by omega)]

theorem identity_of_separate
    (hrun : Run (Vmm.IdentityStep dir isKernel isWritable) v (regionPages startVa endVa) v')
    (hsep : v.Separate dir (regionPages startVa endVa))
    (hzero : startVa.toNat / 4096 = 0 → v.Mapped dir 0 ∨ v.pmm.NoneLeft)
    (hin : InRegion startVa endVa va) (habsent : ¬ v.Mapped dir va) :
    v'.enablePaging.virt2phys dir va = va := by
  have hnone : v.frameOf dir (va &&& 0xfffff000) = none :=
    (sameEntry_page v dir va).frameOf_eq.symm.trans (Vmm.frameOf_eq_none_iff.mpr habsent)
  have hframe := Vmm.identity_of_run hrun (fun p hp => (mem_regionPages.mp hp).1) hsep
    (nodup_regionPages startVa endVa) (and_mem_regionPages_iff.mpr hin) hnone
  rw [Vmm.virt2phys_enablePaging, (sameEntry_page v' dir va).frameOf_eq, hframe]
  apply BitVec.eq_of_toNat_eq
  show (physical _ va).toNat = va.toNat
  rw [toNat_physical, toNat_newFrame hin habsent hzero]
  omega

end

/-- **An identity mapping is the identity** and takes no block of the memory manager, exactly when
page 0 is not among its new pages, or there is no block to take, and no two of them are one
entry. -/
theorem identity_iff {kmallocA : TableSource} {k : Kernel} {dir startVa endVa : U32}
    {isKernel isWritable : Bool} (hdir : dir ≠ 0) (hend : endVa < 0xFFFFF000)
    (htables : k.TablesElsewhere kmallocA dir isKernel isWritable (regionPages startVa endVa)) :
    ∃ k', k.allocateRegion kmallocA dir startVa endVa true isKernel isWritable = some k' ∧
      (((∀ va, InRegion startVa endVa va → ¬ k.vmm.Mapped dir va →
          k'.vmm.enablePaging.virt2phys dir va = va) ∧
        k'.vmm.pmm.words = k.vmm.pmm.words) ↔
      (startVa.toNat / 4096 = 0 → k.vmm.Mapped dir 0 ∨ k.vmm.pmm.NoneLeft) ∧
        ∀ a b, InRegion startVa endVa a → InRegion startVa endVa b → ¬ k.vmm.Mapped dir a →
          k.vmm.SameEntry dir a b → a.toNat / 4096 = b.toNat / 4096) := by
  have hlast : regionEnds endVa = true := by
    refine decide_eq_true fun hc => ?_
    have hnat := congrArg BitVec.toNat hc
    rw [toNat_and_pageMask] at hnat
    rw [BitVec.lt_def] at hend
    have : (0xfffff000 : U32).toNat = 4294963200 := rfl
    omega
  obtain ⟨k', hfold, hrun⟩ := htables.exists_run hdir (List.append_nil _).symm
  refine ⟨k', (Kernel.allocateRegion_identity hlast).trans hfold, ?_⟩
  rw [← separate_regionPages]
  constructor
  · rintro ⟨hid, hwords⟩
    have hsep := separate_of_identity hrun hid
    refine ⟨fun h0 => ?_, hsep⟩
    by_contra hc
    obtain ⟨habsent, hleft⟩ := not_or.mp hc
    rw [(pmm_of_region hrun hsep).1 ⟨h0, habsent⟩] at hwords
    exact hleft (Pmm.words_pmmAllocBlock_iff.mp hwords)
  · rintro ⟨hzero, hsep⟩
    refine ⟨fun va => identity_of_separate hrun hsep hzero, ?_⟩
    by_cases hnew : startVa.toNat / 4096 = 0 ∧ ¬ k.vmm.Mapped dir 0
    · rw [(pmm_of_region hrun hsep).1 hnew]
      exact Pmm.words_pmmAllocBlock_iff.mpr ((hzero hnew.1).resolve_left hnew.2)
    · rw [(pmm_of_region hrun hsep).2 hnew]

theorem tablesElsewhere_sharedTable {k : Kernel} {startVa endVa : U32}
    (hdirs : k.vmm.dirs = sharedTable.vmm.dirs) (hend : endVa.toNat < 2 ^ 22) :
    k.TablesElsewhere (fun k _ => some (k, 0)) 0x9000 true false (regionPages startVa endVa) := by
  refine Kernel.tablesElsewhere_of_tables fun va hva => ?_
  have hle := (mem_regionPages.mp hva).2.2
  have hidx : pagedirIndex va = 0 := by
    rw [Fin.ext_iff, pagedirIndex_val]
    rw [toNat_and_pageMask] at hle
    show va.toNat / 2 ^ 22 = 0
    omega
  unfold Vmm.tableOf
  rw [hdirs, hidx]
  decide

/-- Two pages of a directory with a table, not page 0. -/
theorem identity_sharedTable : ∃ k, sharedTable.allocateRegion (fun k _ => some (k, 0)) 0x9000
    0x1000 0x2fff true true false = some k ∧
    k.vmm.enablePaging.virt2phys 0x9000 0x2345 = 0x2345 := by
  have htables : sharedTable.TablesElsewhere (fun k _ => some (k, 0)) 0x9000 true false
      (regionPages 0x1000 0x2fff) := tablesElsewhere_sharedTable rfl (by simp)
  have hsep : sharedTable.vmm.Separate 0x9000 (regionPages 0x1000 0x2fff) :=
    separate_of_one_table sharedTable.vmm 0x9000 (by simp)
  obtain ⟨k, hk, hiff⟩ := identity_iff (by simp) (by simp) htables
  have habsent : ¬ sharedTable.vmm.Mapped 0x9000 0x2345 := fun h => absurd h.2 (by decide)
  have hid := (hiff.mpr ⟨fun h0 => absurd h0 (by simp), separate_regionPages.mp hsep⟩).1
  exact ⟨k, hk, hid 0x2345 ⟨by simp, by simp⟩ habsent⟩

/-- The same directory; block 0 is in use. -/
def blockUsed : Kernel :=
  { sharedTable with vmm := { sharedTable.vmm with pmm := ⟨64, 1, 0, 8, fun _ => 1⟩ } }

/-- The pages from 0 to `0x10000`: page 0 gets block 1, which the second page is mapped to. -/
theorem not_identity_blockUsed : ∃ k, blockUsed.allocateRegion (fun k _ => some (k, 0)) 0x9000 0
    0x10000 true true false = some k ∧ ¬ blockUsed.vmm.Mapped 0x9000 0 ∧
    k.vmm.enablePaging.virt2phys 0x9000 0 = 0x1000 ∧
    k.vmm.pmm.words ≠ blockUsed.vmm.pmm.words := by
  have habsent : ¬ blockUsed.vmm.Mapped 0x9000 0 := fun h => absurd h.2 (by decide)
  have htables : blockUsed.TablesElsewhere (fun k _ => some (k, 0)) 0x9000 true false
      (regionPages 0 0x10000) := tablesElsewhere_sharedTable rfl (by simp)
  have hsep : blockUsed.vmm.Separate 0x9000 (regionPages 0 0x10000) :=
    separate_of_one_table blockUsed.vmm 0x9000 (by simp)
  obtain ⟨k, hfold, hrun⟩ := htables.exists_run (by simp) (List.append_nil _).symm
  refine ⟨k, (Kernel.allocateRegion_identity (by decide)).trans hfold, habsent, ?_, ?_⟩
  · have hframe := Vmm.identity_of_run hrun (fun p hp => (mem_regionPages.mp hp).1) hsep
      (nodup_regionPages 0 0x10000) (zero_mem_regionPages.mpr rfl)
      (Vmm.frameOf_eq_none_iff.mpr habsent)
    rw [Vmm.virt2phys_enablePaging, hframe]
    decide +kernel
  · rw [(pmm_of_region hrun hsep).1 ⟨rfl, habsent⟩]
    exact fun hc => absurd (congrFun hc 0) (by decide +kernel)

end PiggyOS
