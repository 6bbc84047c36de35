import PiggyOS.Vmm.Permissions

/-!
# What a directory translates

A directory is a partial function from pages to frames (`frameOf`), looked up in two steps. Two
pages may be the same entry (`SameEntry`): they are when their regions have one table. A call of
`allocate_page` changes what the pages of one entry are translated to.

* `Allocates.frameOf_self`, `Allocates.frameOf_of_not` — the call, as an update of the function
* `virt2phys_allocatePage` — what `virt2phys` makes of it
* `freePage_allocatePage` — mapping a page and freeing it again
-/

namespace PiggyOS

open Infra

/-- The physical address of `va` when its page is in the frame `f`. -/
def physical (f : BitVec 20) (va : U32) : U32 := (f.setWidth 32 <<< 12) + pageframeIndex va

theorem toNat_physical (f : BitVec 20) (va : U32) :
    (physical f va).toNat = 4096 * f.toNat + va.toNat % 4096 := by
  have hf := f.isLt
  unfold physical
  rw [BitVec.toNat_add, BitVec.toNat_shiftLeft, BitVec.toNat_setWidth, pageframeIndex_toNat,
    Nat.shiftLeft_eq]
  omega

namespace Vmm

variable {v v' : Vmm} {dir va x a b table frame : U32} {isKernel isWritable : Bool}

/-! ## Pages and frames -/

/-- The frame of the page of `va`, if the page is present. -/
def frameOf (v : Vmm) (dir va : U32) : Option (BitVec 20) :=
  if v.tableOf dir va ≠ 0 && (v.entry (v.tableOf dir va) va).present then
    some (v.entry (v.tableOf dir va) va).frame
  else none

theorem frameOf_eq_none_iff : v.frameOf dir va = none ↔ ¬ v.Mapped dir va := by
  unfold frameOf Mapped
  split <;> simp_all

theorem Mapped.frameOf_eq (h : v.Mapped dir va) :
    v.frameOf dir va = some (v.entry (v.tableOf dir va) va).frame := by
  unfold frameOf
  rw [if_pos (by rw [h.2, Bool.and_true]; exact decide_eq_true h.1)]

theorem mapped_of_frameOf {f : BitVec 20} (h : v.frameOf dir va = some f) : v.Mapped dir va := by
  by_contra hc
  rw [frameOf_eq_none_iff.mpr hc] at h
  cases h

theorem virt2phys_eq (hpaging : v.pagingEnabled = true) :
    v.virt2phys dir va = (v.frameOf dir va).elim 0 (physical · va) := by
  unfold virt2phys
  rw [if_neg (by simp [hpaging])]
  by_cases hmapped : v.Mapped dir va
  · rw [if_neg hmapped.1, if_neg (by simp [hmapped.2]), hmapped.frameOf_eq]
    rfl
  · rw [frameOf_eq_none_iff.mpr hmapped]
    by_cases ht : v.tableOf dir va = 0
    · exact if_pos ht
    · rw [if_neg ht]
      exact if_pos (by simpa using fun hp => hmapped ⟨ht, hp⟩)

theorem virt2phys_enablePaging :
    v.enablePaging.virt2phys dir va = (v.frameOf dir va).elim 0 (physical · va) :=
  virt2phys_eq rfl

theorem virt2phys_congr (hpaging : v'.pagingEnabled = v.pagingEnabled)
    (hframe : v'.frameOf dir va = v.frameOf dir va) :
    v'.virt2phys dir va = v.virt2phys dir va := by
  cases hon : v.pagingEnabled with
  | true => rw [virt2phys_eq (hpaging.trans hon), virt2phys_eq hon, hframe]
  | false =>
    unfold virt2phys
    rw [hpaging, hon]
    rfl

/-- The pages of `a` and `b` are the same page, or the same entry of the same table. -/
def SameEntry (v : Vmm) (dir a b : U32) : Prop :=
  a.toNat / 4096 = b.toNat / 4096 ∨
    v.tableOf dir a ≠ 0 ∧ v.tableOf dir a = v.tableOf dir b ∧ pagetblIndex a = pagetblIndex b

theorem SameEntry.symm (h : v.SameEntry dir a b) : v.SameEntry dir b a := by
  rcases h with hpage | ⟨ht, htable, hidx⟩
  · exact Or.inl hpage.symm
  · exact Or.inr ⟨htable ▸ ht, htable.symm, hidx.symm⟩

theorem SameEntry.table_eq (h : v.SameEntry dir a b) :
    v.tableOf dir a = v.tableOf dir b ∧ pagetblIndex a = pagetblIndex b := by
  rcases h with hpage | ⟨-, h⟩
  · obtain ⟨hdir, hidx⟩ := page_eq_iff.mpr hpage
    exact ⟨by rw [tableOf, hdir, tableOf], hidx⟩
  · exact h

theorem sameEntry_iff_of_table (ht : v.tableOf dir b ≠ 0) : v.SameEntry dir a b ↔
    v.tableOf dir a = v.tableOf dir b ∧ pagetblIndex a = pagetblIndex b := by
  refine ⟨SameEntry.table_eq, ?_⟩
  rintro ⟨htable, hidx⟩
  exact Or.inr ⟨htable ▸ ht, htable, hidx⟩

theorem SameEntry.trans {c : U32} (h : v.SameEntry dir a b) (h' : v.SameEntry dir b c) :
    v.SameEntry dir a c := by
  obtain ⟨htable, hidx⟩ := h.table_eq
  obtain ⟨htable', hidx'⟩ := h'.table_eq
  rcases h with hpage | ⟨ht, -⟩
  · rcases h' with hpage' | ⟨ht', -⟩
    · exact Or.inl (hpage.trans hpage')
    · exact Or.inr ⟨htable ▸ ht', htable.trans htable', hidx.trans hidx'⟩
  · exact Or.inr ⟨ht, htable.trans htable', hidx.trans hidx'⟩

/-- Pages of one entry are in one frame. -/
theorem SameEntry.frameOf_eq (h : v.SameEntry dir a b) : v.frameOf dir a = v.frameOf dir b := by
  obtain ⟨htable, hidx⟩ := h.table_eq
  unfold frameOf entry
  rw [htable, hidx]

theorem SameEntry.of_dirs (hdirs : v'.dirs = v.dirs) :
    v'.SameEntry dir a b ↔ v.SameEntry dir a b := by
  unfold SameEntry tableOf
  rw [hdirs]

/-! ## A call of `allocate_page` -/

/-- The frame that `allocate_page` puts into an entry. -/
def newFrame (v : Vmm) (frame : U32) : BitVec 20 :=
  (if frame ≠ 0 then frame else v.pmm.pmmAllocBlock.2 / pageSize).setWidth 20

/-- What `allocate_page` does to the page tables, when a table it takes is not in use. -/
def Allocates (v : Vmm) (dir va frame : U32) (isKernel isWritable : Bool) (v' : Vmm) : Prop :=
  (v.tableOf dir va ≠ 0 ∧
      v' = v.fillEntry (v.tableOf dir va) (pagetblIndex va) frame isKernel isWritable) ∨
    (v.tableOf dir va = 0 ∧ ∃ table tempMem, v.FreshTable table ∧
      v' = (installTable { v with tempMem := tempMem } dir (pagedirIndex va) table isKernel
        isWritable).fillEntry table (pagetblIndex va) frame isKernel isWritable)

/-- The entry is filled when it is free. -/
theorem frameOf_fillEntry_self (ht : v.tableOf dir va ≠ 0) (hnone : v.frameOf dir va = none)
    (hx : v.SameEntry dir x va) :
    (v.fillEntry (v.tableOf dir va) (pagetblIndex va) frame isKernel isWritable).frameOf dir x =
      some (v.newFrame frame) := by
  rcases v.fillEntry_cases (v.tableOf dir va) frame (pagetblIndex va) isKernel isWritable with
    ⟨hp, -⟩ | ⟨-, pmm, t, hcase, he⟩
  · exact absurd ⟨ht, hp⟩ (frameOf_eq_none_iff.mp hnone)
  · have hframe : t.setWidth 20 = v.newFrame frame := by
      unfold newFrame
      rcases hcase with ⟨hf, -, rfl⟩ | ⟨hf, -, rfl⟩
      · rw [if_pos hf]
      · rw [if_neg (not_not.mpr hf)]
    have hmapped := mapped_fillEntry frame isKernel isWritable ht
    have hsame : (v.fillEntry (v.tableOf dir va) (pagetblIndex va) frame isKernel
        isWritable).SameEntry dir x va :=
      (SameEntry.of_dirs (dirs_fillEntry _ _ _ _ _ _)).mpr hx
    rw [hsame.frameOf_eq, hmapped.frameOf_eq, tableOf_fillEntry, he]
    simp [entry, hframe]

/-- Other entries are left alone, and so is one that is in use. -/
theorem frameOf_fillEntry_of_not (ht : v.tableOf dir va ≠ 0)
    (hx : ¬ (v.frameOf dir va = none ∧ v.SameEntry dir x va)) :
    (v.fillEntry (v.tableOf dir va) (pagetblIndex va) frame isKernel isWritable).frameOf dir x =
      v.frameOf dir x := by
  rw [not_and, sameEntry_iff_of_table ht] at hx
  by_cases hnone : v.frameOf dir va = none
  · unfold frameOf
    rw [tableOf_fillEntry, entry, tabs_fillEntry_of_ne _ _ _ _ _ _ (hx hnone), entry]
  · have hmapped : v.Mapped dir va := not_not.mp (mt frameOf_eq_none_iff.mpr hnone)
    rcases v.fillEntry_cases (v.tableOf dir va) frame (pagetblIndex va) isKernel isWritable with
      ⟨-, he⟩ | ⟨habsent, -⟩
    · rw [he]
    · have hp : (v.tabs (v.tableOf dir va) (pagetblIndex va)).present = true := hmapped.2
      rw [habsent] at hp
      cases hp

theorem tableOf_installTable (x : U32) :
    (v.installTable dir (pagedirIndex va) table isKernel isWritable).tableOf dir x =
      if pagedirIndex x = pagedirIndex va then table else v.tableOf dir x := by
  rw [tableOf, refTables_installTable, Function.update_apply]
  rfl

/-- A new table has no page. -/
theorem frameOf_installTable (hnone : v.tableOf dir va = 0) (hfresh : v.FreshTable table)
    (x : U32) :
    (v.installTable dir (pagedirIndex va) table isKernel isWritable).frameOf dir x =
      v.frameOf dir x := by
  by_cases hx : pagedirIndex x = pagedirIndex va
  · have habsent : ¬ v.Mapped dir x := fun h => h.1 (by rw [tableOf, hx]; exact hnone)
    have habsent' :
        ¬ (v.installTable dir (pagedirIndex va) table isKernel isWritable).Mapped dir x := by
      rintro ⟨-, hp⟩
      rw [tableOf_installTable, if_pos hx, entry, tabs_installTable_self] at hp
      cases hp
    rw [frameOf_eq_none_iff.mpr habsent, frameOf_eq_none_iff.mpr habsent']
  · have hne : v.tableOf dir x ≠ table := hfresh.2 dir (pagedirIndex x)
    unfold frameOf
    rw [tableOf_installTable, if_neg hx, entry, tabs_installTable_of_ne _ _ _ _ _ _ hne, entry]

theorem sameEntry_installTable (hnone : v.tableOf dir va = 0) (hfresh : v.FreshTable table) :
    (v.installTable dir (pagedirIndex va) table isKernel isWritable).SameEntry dir a b ↔
      v.SameEntry dir a b := by
  have hregion : ∀ x, pagedirIndex x = pagedirIndex va → v.tableOf dir x = 0 := by
    intro x hx
    rw [tableOf, hx]
    exact hnone
  have hother : ∀ x, v.tableOf dir x ≠ table := fun x => hfresh.2 dir (pagedirIndex x)
  unfold SameEntry
  rw [tableOf_installTable, tableOf_installTable]
  refine or_congr_right' fun hpage => ?_
  by_cases ha : pagedirIndex a = pagedirIndex va
  · rw [if_pos ha, hregion a ha]
    refine iff_of_false ?_ fun h => h.1 rfl
    rintro ⟨-, htable, hidx⟩
    by_cases hb : pagedirIndex b = pagedirIndex va
    · exact hpage (page_eq_iff.mp ⟨ha.trans hb.symm, hidx⟩)
    · rw [if_neg hb] at htable
      exact hother b htable.symm
  · rw [if_neg ha]
    by_cases hb : pagedirIndex b = pagedirIndex va
    · rw [if_pos hb, hregion b hb]
      exact iff_of_false (fun h => hother a h.2.1) fun h => h.1 h.2.1
    · rw [if_neg hb]

/-- With a table that the directory has from the start or gets without a page, the entry is
filled. -/
theorem Allocates.exists_fillEntry (h : v.Allocates dir va frame isKernel isWritable v') :
    ∃ v₁ : Vmm, v₁.pmm = v.pmm ∧ v₁.pagingEnabled = v.pagingEnabled ∧ v₁.tableOf dir va ≠ 0 ∧
      (∀ x, v₁.frameOf dir x = v.frameOf dir x) ∧
      (∀ a b, v₁.SameEntry dir a b ↔ v.SameEntry dir a b) ∧
      v' = v₁.fillEntry (v₁.tableOf dir va) (pagetblIndex va) frame isKernel isWritable := by
  rcases h with ⟨ht, he⟩ | ⟨hnone, table, tempMem, hfresh, he⟩
  · exact ⟨v, rfl, rfl, ht, fun _ => rfl, fun _ _ => Iff.rfl, he⟩
  · have htable : (installTable { v with tempMem := tempMem } dir (pagedirIndex va) table isKernel
        isWritable).tableOf dir va = table := tableOf_installTable_self _ dir va table _ _
    refine ⟨installTable { v with tempMem := tempMem } dir (pagedirIndex va) table isKernel
      isWritable, rfl, rfl, htable.trans_ne hfresh.1, ?_, ?_, ?_⟩
    · exact frameOf_installTable (v := { v with tempMem := tempMem }) hnone hfresh
    · exact fun _ _ => sameEntry_installTable (v := { v with tempMem := tempMem }) hnone hfresh
    · rw [he, htable]

namespace Allocates

theorem sameEntry_iff (h : v.Allocates dir va frame isKernel isWritable v') :
    v'.SameEntry dir a b ↔ v.SameEntry dir a b := by
  obtain ⟨v₁, -, -, -, -, hsame, rfl⟩ := h.exists_fillEntry
  exact (SameEntry.of_dirs (dirs_fillEntry _ _ _ _ _ _)).trans (hsame a b)

theorem pagingEnabled_eq (h : v.Allocates dir va frame isKernel isWritable v') :
    v'.pagingEnabled = v.pagingEnabled := by
  obtain ⟨v₁, -, hpaging, -, -, -, rfl⟩ := h.exists_fillEntry
  exact (pagingEnabled_fillEntry _ _ _ _ _ _).trans hpaging

/-- **The pages of the entry are mapped, unless they have been.** -/
theorem frameOf_self (h : v.Allocates dir va frame isKernel isWritable v')
    (hnone : v.frameOf dir va = none) (hx : v.SameEntry dir x va) :
    v'.frameOf dir x = some (v.newFrame frame) := by
  obtain ⟨v₁, hpmm, -, ht, hframe, hsame, rfl⟩ := h.exists_fillEntry
  rw [frameOf_fillEntry_self ht ((hframe va).trans hnone) ((hsame x va).mpr hx)]
  unfold newFrame
  rw [hpmm]

/-- **The other pages are left alone.** -/
theorem frameOf_of_not (h : v.Allocates dir va frame isKernel isWritable v')
    (hx : ¬ (v.frameOf dir va = none ∧ v.SameEntry dir x va)) :
    v'.frameOf dir x = v.frameOf dir x := by
  obtain ⟨v₁, -, -, ht, hframe, hsame, rfl⟩ := h.exists_fillEntry
  rw [← hframe va, ← hsame x va] at hx
  exact (frameOf_fillEntry_of_not ht hx).trans (hframe x)

/-- A page that is mapped stays in its frame. -/
theorem frameOf_of_some {f : BitVec 20} (h : v.Allocates dir va frame isKernel isWritable v')
    (hx : v.frameOf dir x = some f) : v'.frameOf dir x = some f := by
  refine (h.frameOf_of_not ?_).trans hx
  rintro ⟨hnone, hsame⟩
  rw [← hsame.frameOf_eq, hx] at hnone
  cases hnone

/-- A block is taken for the frame 0 alone. -/
theorem pmm_eq (h : v.Allocates dir va frame isKernel isWritable v') :
    v'.pmm = if v.frameOf dir va = none ∧ frame = 0 then v.pmm.pmmAllocBlock.1 else v.pmm := by
  obtain ⟨v₁, hpmm, -, ht, hframe, -, rfl⟩ := h.exists_fillEntry
  rw [← hframe va, ← hpmm]
  rcases v₁.fillEntry_cases (v₁.tableOf dir va) frame (pagetblIndex va) isKernel isWritable with
    ⟨hp, he⟩ | ⟨habsent, pmm, t, hcase, he⟩
  · have hmapped : v₁.Mapped dir va := ⟨ht, hp⟩
    rw [he, if_neg fun hc => frameOf_eq_none_iff.mp hc.1 hmapped]
  · have hnone : v₁.frameOf dir va = none := by
      refine frameOf_eq_none_iff.mpr fun hmapped => ?_
      have hp : (v₁.tabs (v₁.tableOf dir va) (pagetblIndex va)).present = true := hmapped.2
      rw [habsent] at hp
      cases hp
    rw [he]
    rcases hcase with ⟨hf, rfl, -⟩ | ⟨hf, rfl, -⟩
    · exact (if_neg fun hc => hf hc.2).symm
    · exact (if_pos ⟨hnone, hf⟩).symm

end Allocates

/-! ## A call of `free_page` -/

@[simp] theorem pagingEnabled_freePage (free : Bool) :
    (v.freePage dir va free).pagingEnabled = v.pagingEnabled := by
  rcases v.freePage_cases dir va free with h | ⟨-, -, -, h⟩ <;> rw [h]

/-- The pages of the entry are unmapped. -/
theorem frameOf_freePage_self (hdir : dir ≠ bootPageDir) (free : Bool)
    (hx : v.SameEntry dir x va) : (v.freePage dir va free).frameOf dir x = none := by
  have hsame : (v.freePage dir va free).SameEntry dir x va :=
    (SameEntry.of_dirs (dirs_freePage _ _ _ _)).mpr hx
  rw [hsame.frameOf_eq]
  by_cases hmapped : v.Mapped dir va
  · rw [frameOf_eq_none_iff]
    rintro ⟨-, hp⟩
    rw [tableOf_freePage, freePage_of_mapped hdir hmapped] at hp
    simp [entry] at hp
  · rw [freePage_of_not_mapped hmapped, frameOf_eq_none_iff]
    exact hmapped

theorem frameOf_freePage_of_not (free : Bool) (hx : ¬ v.SameEntry dir x va) :
    (v.freePage dir va free).frameOf dir x = v.frameOf dir x := by
  by_cases hmapped : v.Mapped dir va
  · rw [sameEntry_iff_of_table hmapped.1] at hx
    unfold frameOf
    rw [tableOf_freePage, entry, tabs_freePage_of_ne _ _ _ _ hx, entry]
  · rw [freePage_of_not_mapped hmapped]

/-- The block of the frame goes back to the memory manager. -/
theorem pmm_freePage {f : BitVec 20} (hdir : dir ≠ bootPageDir) (h : v.frameOf dir va = some f) :
    (v.freePage dir va true).pmm = v.pmm.pmmFreeBlock (f.setWidth 32 * pageSize) := by
  have hmapped := mapped_of_frameOf h
  rw [hmapped.frameOf_eq] at h
  rw [freePage_of_mapped hdir hmapped, Option.some.inj h]
  rfl

end Vmm

/-! ## What is translated afterwards -/

theorem MapStep.allocates {dir : U32} {k k' : Kernel} {c : MapCall} (h : MapStep dir k c k')
    (hdir : dir ≠ 0) :
    k.vmm.Allocates dir c.va c.frame c.isKernel c.isWritable k'.vmm := h.cases hdir

namespace Kernel

variable {kmallocA : TableSource} {k : Kernel} {dir va : U32} {isKernel isWritable : Bool}

/-- A page that is mapped is left alone. -/
theorem allocatePage_of_mapped (h : k.vmm.Mapped dir va) (frame : U32) :
    k.allocatePage kmallocA dir va frame isKernel isWritable = some k := by
  unfold allocatePage
  rw [if_neg h.1]
  split
  · rfl
  · have hp : (k.vmm.tabs (k.vmm.tableOf dir va) (pagetblIndex va)).present = true := h.2
    unfold Vmm.fillEntry
    rw [if_pos hp]

end Kernel

/-- **`allocate_page` and `virt2phys` agree.** The page is translated to the frame and the pages
that are not the same entry are translated as before; from then on the entry stays as it is. -/
theorem virt2phys_allocatePage {dir : U32} {k k' : Kernel} {c : MapCall} (hdir : dir ≠ 0)
    (hpaging : k.vmm.pagingEnabled = true) (h : MapStep dir k c k')
    (habsent : ¬ k.vmm.Mapped dir c.va) (hpos : c.frame ≠ 0) (hlt : c.frame.toNat < 2 ^ 20) :
    (∀ va, va.toNat / 4096 = c.va.toNat / 4096 →
      (k'.vmm.virt2phys dir va).toNat = 4096 * c.frame.toNat + va.toNat % 4096) ∧
    (∀ x, ¬ k.vmm.SameEntry dir x c.va →
      k'.vmm.virt2phys dir x = k.vmm.virt2phys dir x) ∧
    ∀ kmallocA va frame isKernel isWritable, va.toNat / 4096 = c.va.toNat / 4096 →
      k'.allocatePage kmallocA dir va frame isKernel isWritable = some k' := by
  have hcall := h.allocates hdir
  have hpaging' : k'.vmm.pagingEnabled = true := hcall.pagingEnabled_eq.trans hpaging
  have hnone := Vmm.frameOf_eq_none_iff.mpr habsent
  have hframe : ∀ va, va.toNat / 4096 = c.va.toNat / 4096 →
      k'.vmm.frameOf dir va = some (c.frame.setWidth 20) := by
    intro va hva
    rw [hcall.frameOf_self hnone (Or.inl hva), Vmm.newFrame, if_pos hpos]
  refine ⟨fun va hva => ?_, fun x hx => ?_, fun kmallocA va frame isKernel isWritable hva => ?_⟩
  · rw [Vmm.virt2phys_eq hpaging', hframe va hva]
    refine (toNat_physical _ va).trans ?_
    rw [BitVec.toNat_setWidth, Nat.mod_eq_of_lt hlt]
  · exact Vmm.virt2phys_congr hcall.pagingEnabled_eq (hcall.frameOf_of_not fun hc => hx hc.2)
  · exact Kernel.allocatePage_of_mapped (Vmm.mapped_of_frameOf (hframe va hva)) frame

/-- The first two regions of the directory at `0x9000` have one table. -/
def sharedTable : Kernel where
  vmm := { Kernel.bare.vmm with
    pmm := ⟨64, 0, 0, 8, fun _ => 0⟩
    pagingEnabled := true
    dirs := fun _ => ⟨zeroDirectory.tables, fun i => if i.val < 2 then 0x5000 else 0⟩ }
  heap := Kernel.bare.heap

theorem exists_mapStep_sharedTable : ∃ k, MapStep 0x9000 sharedTable kernelPage k :=
  ⟨_, fun hnone => absurd hnone (by decide), rfl⟩

theorem virt2phys_sharedTable : ∃ k, MapStep 0x9000 sharedTable kernelPage k ∧
    (k.vmm.virt2phys 0x9000 0x1234).toNat = 0x5234 := by
  obtain ⟨k, hstep⟩ := exists_mapStep_sharedTable
  have habsent : ¬ sharedTable.vmm.Mapped 0x9000 kernelPage.va := fun h => absurd h.2 (by decide)
  have h := virt2phys_allocatePage (by simp) rfl hstep habsent (by decide) (by decide)
  exact ⟨k, hstep, h.1 0x1234 (by decide)⟩

/-- A page 4 MB above is the same entry. -/
theorem not_virt2phys_sharedTable : ∃ k, MapStep 0x9000 sharedTable kernelPage k ∧
    ¬ sharedTable.vmm.Mapped 0x9000 kernelPage.va ∧
    (0x401000 : U32).toNat / 4096 ≠ kernelPage.va.toNat / 4096 ∧
    sharedTable.vmm.virt2phys 0x9000 0x401000 = 0 ∧ k.vmm.virt2phys 0x9000 0x401000 = 0x5000 := by
  refine ⟨_, ⟨fun hnone => absurd hnone (by decide), rfl⟩, fun h => absurd h.2 (by decide), ?_⟩
  decide +kernel

/-! ## Mapping a page and freeing it -/

/-- The address that is put into an entry is the address that is read from it. -/
theorem blockAddr_newFrame {b : Nat} (hb : b < 2 ^ 20) :
    ((BitVec.ofNat 32 b * pageSize / pageSize).setWidth 20).setWidth 32 * pageSize =
      BitVec.ofNat 32 b * pageSize := by
  rw [Pmm.blockAddr_div hb]
  apply BitVec.eq_of_toNat_eq
  rw [BitVec.toNat_mul, BitVec.toNat_mul, BitVec.toNat_setWidth, BitVec.toNat_setWidth,
    BitVec.toNat_ofNat, pageSize_toNat]
  omega

/-- An allocation from a memory manager that has blocks left is undone by freeing the block. -/
theorem Pmm.pmmFreeBlock_pmmAllocBlock {p : Pmm} (hused : p.usedBlocks.toNat < p.maxBlocks.toNat)
    (hmax : p.maxBlocks.toNat ≤ 2 ^ 20) (hclear : ∃ b < p.scanned, p.used b = false) :
    p.pmmAllocBlock.1.pmmFreeBlock
      (((p.pmmAllocBlock.2 / pageSize).setWidth 20).setWidth 32 * pageSize) = p := by
  rcases p.pmmAllocBlock_cases with ⟨he, -⟩ | ⟨-, b, hb, hfree, -, -, halloc⟩ | ⟨-, hall, -⟩
  · rw [he] at hused
    exact absurd hused (Nat.lt_irrefl _)
  · have hlt : b < 2 ^ 20 := by
      have := p.scanned_le
      omega
    rw [halloc]
    dsimp only
    rw [blockAddr_newFrame hlt]
    exact pmmFreeBlock_pmmBitmapSet hlt hfree
  · obtain ⟨b, hb, hfree⟩ := hclear
    rw [hall b hb] at hfree
    cases hfree

/-- **Mapping a page and freeing it restores the memory manager**, and every translation is what
it was. -/
theorem freePage_allocatePage (kmallocA : TableSource) {k : Kernel} {dir va : U32}
    (isKernel isWritable : Bool) (hdir : dir ≠ bootPageDir) (htable : k.vmm.tableOf dir va ≠ 0)
    (habsent : ¬ k.vmm.Mapped dir va)
    (hused : k.vmm.pmm.usedBlocks.toNat < k.vmm.pmm.maxBlocks.toNat)
    (hmax : k.vmm.pmm.maxBlocks.toNat ≤ 2 ^ 20)
    (hclear : ∃ b < k.vmm.pmm.scanned, k.vmm.pmm.used b = false) :
    ∃ k', k.allocatePage kmallocA dir va 0 isKernel isWritable = some k' ∧
      (k'.vmm.freePage dir va true).pmm = k.vmm.pmm ∧
      ¬ (k'.vmm.freePage dir va true).Mapped dir va ∧
      ∀ x, (k'.vmm.freePage dir va true).frameOf dir x = k.vmm.frameOf dir x ∧
        (k'.vmm.freePage dir va true).virt2phys dir x = k.vmm.virt2phys dir x := by
  have hnone := Vmm.frameOf_eq_none_iff.mpr habsent
  by_cases hnull : dir = 0
  · -- neither call does anything
    refine ⟨k, if_pos hnull, ?_⟩
    rw [Vmm.freePage_of_not_mapped habsent]
    exact ⟨rfl, habsent, fun x => ⟨rfl, rfl⟩⟩
  · refine ⟨_, (if_neg hnull).trans (if_neg htable), ?_⟩
    have hcall : k.vmm.Allocates dir va 0 isKernel isWritable (k.vmm.fillEntry
        (k.vmm.tableOf dir va) (pagetblIndex va) 0 isKernel isWritable) := Or.inl ⟨htable, rfl⟩
    have hframe := hcall.frameOf_self hnone (Or.inl rfl)
    have hpmm := hcall.pmm_eq.trans (if_pos ⟨hnone, rfl⟩)
    have hback : ∀ x, ((k.vmm.fillEntry (k.vmm.tableOf dir va) (pagetblIndex va) 0 isKernel
        isWritable).freePage dir va true).frameOf dir x = k.vmm.frameOf dir x := by
      intro x
      by_cases hx : k.vmm.SameEntry dir x va
      · rw [Vmm.frameOf_freePage_self hdir true (hcall.sameEntry_iff.mpr hx), hx.frameOf_eq, hnone]
      · rw [Vmm.frameOf_freePage_of_not true (mt hcall.sameEntry_iff.mp hx)]
        exact hcall.frameOf_of_not fun hc => hx hc.2
    refine ⟨?_, ?_, fun x => ⟨hback x, Vmm.virt2phys_congr ?_ (hback x)⟩⟩
    · rw [Vmm.pmm_freePage hdir hframe, hpmm]
      exact Pmm.pmmFreeBlock_pmmAllocBlock hused hmax hclear
    · exact Vmm.frameOf_eq_none_iff.mp ((hback va).trans hnone)
    · exact (Vmm.pagingEnabled_freePage true).trans hcall.pagingEnabled_eq

theorem freePage_allocatePage_sharedTable :
    ∃ k, sharedTable.allocatePage (fun k _ => some (k, 0)) 0x9000 0x1000 0 true true = some k ∧
      (k.vmm.freePage 0x9000 0x1000 true).pmm = sharedTable.vmm.pmm := by
  have habsent : ¬ sharedTable.vmm.Mapped 0x9000 0x1000 := fun h => absurd h.2 (by decide)
  obtain ⟨k, hk, hpmm, -⟩ := freePage_allocatePage (fun k _ => some (k, 0)) true true (by decide)
    (by decide) habsent (by decide) (by decide) ⟨0, by decide, rfl⟩
  exact ⟨k, hk, hpmm⟩

end PiggyOS
