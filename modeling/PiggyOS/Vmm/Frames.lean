import Mathlib.Data.Set.Insert
import PiggyOS.Infra.Exclusive
import PiggyOS.Infra.Run
import PiggyOS.Kheap.Alloc
import PiggyOS.Vmm.Boot

/-!
# Frames and page-table entries

`allocate_page` with a frame of 0 fills an entry from the memory manager, `free_page` gives the
frame back. No two entries filled in this way should hold the same frame, in whatever
directories they are.

A call that needs a page table takes any fresh one; the pages that the heap may have to map for
it are calls of the run before it.

* `OwnedOk` — the invariant: the filled entries hold their frames exclusively
* `OwnedOk.fillEntry`, `OwnedOk.installTable`, `OwnedOk.freePage` — the steps
* `noSharedFrame_of_safe_run` — it holds in every run that neither uses up the memory nor frees
  the identity map, from boot on
-/

namespace PiggyOS

open Infra

/-! ## Runs of page operations -/

/-- A page-table entry: the address of the table and the index in it. -/
abbrev EntryId := U32 × Fin 1024

/-- The page at an entry. -/
def Vmm.page (v : Vmm) (e : EntryId) : Page := v.tabs e.1 e.2

/-- The entry of `va` in the directory `dir`. -/
def Vmm.entryId (v : Vmm) (dir va : U32) : EntryId := (v.tableOf dir va, pagetblIndex va)

/-- The kernel, and the entries that were filled from `pmm_alloc_block`. -/
structure Owned where
  kernel : Kernel
  filled : Set EntryId

/-- The entry is filled and holds the frame. -/
def Owned.Holds (s : Owned) (e : EntryId) (f : BitVec 20) : Prop :=
  e ∈ s.filled ∧ (s.kernel.vmm.page e).present = true ∧ (s.kernel.vmm.page e).frame = f

/-- **No shared frame**: present entries that were filled from `pmm_alloc_block` differ in their
frames. -/
def Owned.NoSharedFrame (s : Owned) : Prop :=
  ∀ e₁ ∈ s.filled, ∀ e₂ ∈ s.filled, (s.kernel.vmm.page e₁).present = true →
    (s.kernel.vmm.page e₂).present = true →
    (s.kernel.vmm.page e₁).frame = (s.kernel.vmm.page e₂).frame → e₁ = e₂

inductive PageOp
  /-- `allocate_page(dir, va, 0, …)`; `table` is the page table, should one be needed -/
  | alloc (dir va : U32) (isKernel isWritable : Bool) (table : U32)
  /-- `free_page(dir, va, 1)` -/
  | free (dir va : U32)
  deriving DecidableEq, Repr

/-- No directory has the table. -/
def Vmm.FreshTable (v : Vmm) (table : U32) : Prop :=
  table ≠ 0 ∧ ∀ d i, (v.dirs d).refTables i ≠ table

/-- The filled entries after an allocation: the entry of a page that was not mapped is new. -/
def Owned.filledAfter (s : Owned) (dir va : U32) (k' : Kernel) : Set EntryId :=
  {e | e ∈ s.filled ∨ (dir ≠ 0 ∧ ¬ s.kernel.vmm.Mapped dir va ∧ e = k'.vmm.entryId dir va)}

/-- A page operation. -/
inductive PageStep : Owned → PageOp → Owned → Prop
  | alloc {s : Owned} {k' : Kernel} {dir va table : U32} {isKernel isWritable : Bool} :
      s.kernel.vmm.FreshTable table →
      s.kernel.allocatePage (fun k _ => some (k, table)) dir va 0 isKernel isWritable = some k' →
      PageStep s (.alloc dir va isKernel isWritable table)
        ⟨k', s.filledAfter dir va k'⟩
  | free {s : Owned} {dir va : U32} :
      PageStep s (.free dir va)
        ⟨{ s.kernel with vmm := s.kernel.vmm.freePage dir va true }, s.filled⟩

/-- The memory manager has a block left, and finds it. -/
def Pmm.HasFree (p : Pmm) : Prop := p.maxBlocks ≠ p.usedBlocks ∧ ∃ b < p.scanned, p.used b = false

/-- The page of the identity map of `vmm_init` that did not come from the memory manager. -/
def Vmm.IdentityPage (v : Vmm) (dir va : U32) : Prop :=
  dir = v.kernelPageDir ∧ 1 ≤ va.toNat / 4096 ∧ va.toNat / 4096 ≤ 16

/-- The calls that go well: an allocation finds a block if it needs one, and the identity map
is not freed. -/
def SafePageOp (s : Owned) : PageOp → Prop
  | .alloc dir va _ _ _ => dir ≠ 0 → ¬ s.kernel.vmm.Mapped dir va → s.kernel.vmm.pmm.HasFree
  | .free dir va => ¬ s.kernel.vmm.IdentityPage dir va

def SafePageStep (s : Owned) (op : PageOp) (s' : Owned) : Prop := SafePageOp s op ∧ PageStep s op s'

/-! ## The invariant -/

/-- No two regions of any directories share a table. -/
def Vmm.AllDistinct (v : Vmm) : Prop :=
  ∀ d i d' i', (v.dirs d).refTables i ≠ 0 →
    (v.dirs d).refTables i = (v.dirs d').refTables i' → d = d' ∧ i = i'

/-- The invariant. -/
structure OwnedOk (s : Owned) : Prop where
  enabled : s.kernel.heap.kheapEnabled = true
  blocks : s.kernel.vmm.pmm.maxBlocks.toNat < 2 ^ 20
  distinct : s.kernel.vmm.AllDistinct
  installed : ∀ e ∈ s.filled, e.1 ≠ 0 ∧ ∃ d i, (s.kernel.vmm.dirs d).refTables i = e.1
  frames : Exclusive s.Holds (fun f => s.kernel.vmm.pmm.used f.toNat = true)
  /-- every other page is of the identity map -/
  mapped : ∀ d va, s.kernel.vmm.Mapped d va →
    s.kernel.vmm.entryId d va ∈ s.filled ∨ s.kernel.vmm.IdentityPage d va

/-- An allocation that finds a block returns one that was not in use. -/
theorem Pmm.HasFree.alloc {p : Pmm} (h : p.HasFree) (h20 : p.maxBlocks.toNat < 2 ^ 20) :
    ∃ f : BitVec 20, p.used f.toNat = false ∧
      (∀ x : BitVec 20, p.pmmAllocBlock.1.used x.toNat = true ↔ x = f ∨ p.used x.toNat = true) ∧
      (p.pmmAllocBlock.2 / pageSize).setWidth 20 = f := by
  obtain ⟨hne, b₀, hb₀, hclear₀⟩ := h
  have hle := p.scanned_le
  rcases p.pmmAllocBlock_cases with ⟨he, -⟩ | ⟨-, b, hb, hclear, -, -, he⟩ | ⟨-, hall, -⟩
  · exact absurd he hne
  · have hf : (BitVec.ofNat 20 b).toNat = b := by
      rw [BitVec.toNat_ofNat, Nat.mod_eq_of_lt (by omega)]
    refine ⟨BitVec.ofNat 20 b, by rwa [hf], fun x => ?_, ?_⟩
    · rw [he, used_pmmBitmapSet, BitVec.toNat_ofNat, Nat.mod_eq_of_lt (by omega),
        Bool.or_eq_true, decide_eq_true_iff]
      refine or_congr_left ⟨fun hx => BitVec.eq_of_toNat_eq (hx.trans hf.symm), ?_⟩
      rintro rfl
      exact hf
    · apply BitVec.eq_of_toNat_eq
      rw [he, BitVec.toNat_setWidth, toNat_block (by omega), BitVec.toNat_ofNat]
  · rw [hall b₀ hb₀] at hclear₀
    cases hclear₀

namespace Owned

variable {s : Owned} {dir va : U32} {k' : Kernel}

theorem filledAfter_of_kept (h : dir = 0 ∨ s.kernel.vmm.Mapped dir va) :
    s.filledAfter dir va k' = s.filled := by
  ext e
  refine ⟨fun he => he.resolve_right fun ⟨hd, hm, _⟩ => h.elim hd hm, Or.inl⟩

theorem filledAfter_of_new (hd : dir ≠ 0) (hm : ¬ s.kernel.vmm.Mapped dir va) :
    s.filledAfter dir va k' = insert (k'.vmm.entryId dir va) s.filled := by
  ext e
  refine ⟨fun he => he.symm.imp_left fun hc => hc.2.2, fun he => ?_⟩
  exact he.symm.imp_right fun hc => ⟨hd, hm, hc⟩

end Owned

/-- Giving back the block of a frame leaves the other frames alone. -/
theorem Pmm.used_pmmFreeBlock_of_ne {p : Pmm} {f x : BitVec 20} (hne : x ≠ f) :
    (p.pmmFreeBlock (f.setWidth 32 * pageSize)).used x.toNat = p.used x.toNat := by
  have hf := f.isLt
  have hblock : (f.setWidth 32 * pageSize / pageSize).toNat = f.toNat := by
    rw [BitVec.toNat_udiv, BitVec.toNat_mul, BitVec.toNat_setWidth, pageSize_toNat]
    omega
  have hne' : x.toNat ≠ f.toNat := fun hc => hne (BitVec.eq_of_toNat_eq hc)
  rw [pmmFreeBlock, used_pmmBitmapUnset, hblock, decide_eq_false hne', Bool.not_false,
    Bool.true_and]

/-! ## The steps -/

namespace Vmm

variable {v : Vmm} {dir va table frame : U32} {idx : Fin 1024} {e : EntryId}
  {isKernel isWritable free : Bool}

theorem page_fillEntry_of_ne (hne : e ≠ (table, idx)) :
    (v.fillEntry table idx frame isKernel isWritable).page e = v.page e :=
  v.tabs_fillEntry_of_ne _ _ _ _ _ fun ⟨ht, hi⟩ => hne (Prod.ext ht hi)

theorem page_installTable_of_ne (hne : e.1 ≠ table) :
    (v.installTable dir idx table isKernel isWritable).page e = v.page e := by
  unfold page
  rw [tabs_installTable_of_ne _ _ _ _ _ _ hne]

/-- A mapped page gives its block back. -/
theorem pmm_freePage_of_mapped (hd : dir ≠ bootPageDir) (hm : v.Mapped dir va) :
    (v.freePage dir va true).pmm =
      v.pmm.pmmFreeBlock ((v.page (v.entryId dir va)).frame.setWidth 32 * pageSize) := by
  obtain ⟨ht, hp⟩ := hm
  unfold freePage
  rw [if_neg hd, if_neg ht, if_neg (by rw [hp]; decide)]
  rfl

theorem page_freePage_of_ne (hne : e ≠ v.entryId dir va) :
    (v.freePage dir va free).page e = v.page e :=
  v.tabs_freePage_of_ne _ _ _ fun ⟨ht, hi⟩ => hne (Prod.ext ht hi)

variable (isKernel isWritable) in
/-- An absent entry is filled from the memory manager. -/
theorem fillEntry_of_absent (h : (v.page (table, idx)).present = false) :
    (v.fillEntry table idx 0 isKernel isWritable).pmm = v.pmm.pmmAllocBlock.1 ∧
      ((v.fillEntry table idx 0 isKernel isWritable).page (table, idx)).frame =
        (v.pmm.pmmAllocBlock.2 / pageSize).setWidth 20 := by
  rcases v.fillEntry_cases table 0 idx isKernel isWritable with ⟨hp, -⟩ | ⟨-, pmm, t, hcase, he⟩
  · rw [page, hp] at h
    cases h
  · rcases hcase with ⟨hf, -⟩ | ⟨-, rfl, rfl⟩
    · exact absurd rfl hf
    · rw [he]
      exact ⟨rfl, by simp [page]⟩

variable (v dir table idx isKernel isWritable) in
/-- The tables of all directories stay, except for the new one. -/
theorem refTables_installTable_cases (d : U32) (i : Fin 1024) :
    (d = dir ∧ i = idx ∧
        ((v.installTable dir idx table isKernel isWritable).dirs d).refTables i = table) ∨
      (¬ (d = dir ∧ i = idx) ∧
        ((v.installTable dir idx table isKernel isWritable).dirs d).refTables i =
          (v.dirs d).refTables i) := by
  by_cases hd : d = dir
  · subst hd
    rw [refTables_installTable]
    by_cases hi : i = idx
    · subst hi
      exact Or.inl ⟨rfl, rfl, Function.update_self ..⟩
    · exact Or.inr ⟨fun hc => hi hc.2, Function.update_of_ne hi ..⟩
  · rw [dirs_installTable_of_ne _ _ _ _ _ _ hd]
    exact Or.inr ⟨fun hc => hd hc.1, rfl⟩

theorem AllDistinct.of_dirs {v' : Vmm} (h : v.AllDistinct) (he : v'.dirs = v.dirs) :
    v'.AllDistinct := by
  unfold AllDistinct
  rw [he]
  exact h

theorem entryId_of_dirs {v' : Vmm} (he : v'.dirs = v.dirs) (d a : U32) :
    v'.entryId d a = v.entryId d a := by
  rw [entryId, tableOf, he, entryId, tableOf]

end Vmm

namespace OwnedOk

variable {k : Kernel} {filled : Set EntryId} {dir va table : U32} (isKernel isWritable : Bool)

/-- Filling an entry of a table that is there. -/
theorem fillEntry (h : OwnedOk ⟨k, filled⟩) (ht : k.vmm.tableOf dir va ≠ 0)
    (habsent : ¬ k.vmm.Mapped dir va) (hfree : k.vmm.pmm.HasFree) :
    OwnedOk ⟨{ k with
      vmm := k.vmm.fillEntry (k.vmm.tableOf dir va) (pagetblIndex va) 0 isKernel isWritable },
      insert (k.vmm.entryId dir va) filled⟩ := by
  obtain ⟨f, hclear, hused, hf⟩ := hfree.alloc h.blocks
  have habs : (k.vmm.page (k.vmm.entryId dir va)).present = false := by
    by_contra hc
    exact habsent ⟨ht, Bool.eq_true_of_not_eq_false hc⟩
  obtain ⟨hpmm, hframe⟩ := Vmm.fillEntry_of_absent isKernel isWritable habs
  have hdirs := k.vmm.dirs_fillEntry (k.vmm.tableOf dir va) 0 (pagetblIndex va) isKernel isWritable
  -- the frame that is handed out is owned by the entry from now on
  refine ⟨h.enabled, ?_, h.distinct.of_dirs hdirs, ?_, ?_, ?_⟩
  · show (Vmm.pmm _).maxBlocks.toNat < 2 ^ 20
    rw [hpmm, Pmm.maxBlocks_pmmAllocBlock]
    exact h.blocks
  · rintro e (rfl | he)
    · exact ⟨ht, dir, pagedirIndex va, by dsimp only; rw [hdirs]; rfl⟩
    · dsimp only
      rw [hdirs]
      exact h.installed e he
  · refine (h.frames.acquire (i := k.vmm.entryId dir va) (by rw [hclear]; decide)).mono ?_ ?_
    · rintro e x ⟨he, hp, rfl⟩
      by_cases hne : e = k.vmm.entryId dir va
      · subst hne
        exact Or.inl ⟨rfl, hframe.trans hf⟩
      · dsimp only at hp ⊢
        rw [Vmm.page_fillEntry_of_ne hne] at hp ⊢
        exact Or.inr ⟨Set.mem_of_mem_insert_of_ne he hne, hp, rfl⟩
    · intro x hx
      show (Vmm.pmm _).used x.toNat = true
      rw [hpmm, hused]
      rcases hx with rfl | hx
      · simp
      · exact Or.inr hx
  · rintro d a ⟨hta, hp⟩
    have hid := Vmm.entryId_of_dirs hdirs d a
    dsimp only at hta hp ⊢
    rw [hid]
    by_cases hne : k.vmm.entryId d a = k.vmm.entryId dir va
    · exact Or.inl (Or.inl hne)
    · rw [Vmm.tableOf_fillEntry] at hta hp
      have hp' := (congrArg Page.present (Vmm.page_fillEntry_of_ne hne)).symm.trans hp
      refine (h.mapped d a ⟨hta, hp'⟩).imp Or.inr fun hident => ?_
      unfold Vmm.IdentityPage at hident ⊢
      rwa [Vmm.kernelPageDir_fillEntry]

/-- Entering a fresh table for a region that has none. -/
theorem installTable (h : OwnedOk ⟨k, filled⟩) (ht : k.vmm.tableOf dir va = 0)
    (hfresh : k.vmm.FreshTable table) :
    OwnedOk ⟨{ k with
      vmm := k.vmm.installTable dir (pagedirIndex va) table isKernel isWritable }, filled⟩ := by
  obtain ⟨hne, hnew⟩ := hfresh
  have hrefs := k.vmm.refTables_installTable_cases dir table (pagedirIndex va) isKernel isWritable
  -- no filled entry is in the new table
  have hold : ∀ e ∈ filled, e.1 ≠ table := by
    rintro e he hc
    obtain ⟨-, d, i, hi⟩ := h.installed e he
    exact hnew d i (hi.trans hc)
  refine ⟨h.enabled, h.blocks, ?_, ?_, ?_, ?_⟩
  · intro d i d' i' hi heq
    dsimp only at hi heq
    rcases hrefs d i with ⟨rfl, rfl, h₁⟩ | ⟨-, h₁⟩ <;>
      rcases hrefs d' i' with ⟨rfl, rfl, h₂⟩ | ⟨-, h₂⟩
    · exact ⟨rfl, rfl⟩
    · rw [h₁, h₂] at heq
      exact absurd heq.symm (hnew d' i')
    · rw [h₁, h₂] at heq
      exact absurd heq (hnew d i)
    · rw [h₁] at hi
      rw [h₁, h₂] at heq
      exact h.distinct d i d' i' hi heq
  · intro e he
    obtain ⟨he0, d, i, hi⟩ := h.installed e he
    refine ⟨he0, d, i, ?_⟩
    rcases hrefs d i with ⟨rfl, rfl, -⟩ | ⟨-, h₁⟩
    · -- this region had no table
      exact absurd (hi.symm.trans ht) he0
    · exact h₁.trans hi
  · refine h.frames.mono ?_ fun x hx => hx
    rintro e x ⟨he, hp, rfl⟩
    dsimp only at hp ⊢
    rw [Vmm.page_installTable_of_ne (hold e he)] at hp ⊢
    exact ⟨he, hp, rfl⟩
  · rintro d a ⟨hta, hp⟩
    dsimp only at hta hp ⊢
    rcases hrefs d (pagedirIndex a) with ⟨-, -, h₁⟩ | ⟨-, h₁⟩
    · -- nothing is mapped in the new table
      rw [Vmm.tableOf, h₁, Vmm.entry, Vmm.tabs_installTable_self] at hp
      cases hp
    · have htable : (k.vmm.installTable dir (pagedirIndex va) table isKernel isWritable).tableOf d a
          = k.vmm.tableOf d a := h₁
      rw [htable] at hta hp
      rw [Vmm.entryId, htable]
      refine h.mapped d a ⟨hta, ?_⟩
      have hne' : k.vmm.tableOf d a ≠ table := hnew d _
      rwa [Vmm.entry, Vmm.tabs_installTable_of_ne _ _ _ _ _ _ hne'] at hp

/-- Giving back a page that is not of the identity map. -/
theorem freePage (h : OwnedOk ⟨k, filled⟩) (hident : ¬ k.vmm.IdentityPage dir va) :
    OwnedOk ⟨{ k with vmm := k.vmm.freePage dir va true }, filled⟩ := by
  rcases k.vmm.freePage_cases dir va true with he | ⟨-, ht, hp, he⟩
  · rw [he]
    exact h
  · have hmem : k.vmm.entryId dir va ∈ filled :=
      (h.mapped dir va ⟨ht, hp⟩).resolve_right hident
    have hholds : Owned.Holds ⟨k, filled⟩ (k.vmm.entryId dir va)
        (k.vmm.page (k.vmm.entryId dir va)).frame := ⟨hmem, hp, rfl⟩
    have hdirs := k.vmm.dirs_freePage dir va true
    have hpmm : (k.vmm.freePage dir va true).pmm = k.vmm.pmm.pmmFreeBlock
        ((k.vmm.page (k.vmm.entryId dir va)).frame.setWidth 32 * pageSize) := by
      rw [he]
      rfl
    have habs : ((k.vmm.freePage dir va true).page (k.vmm.entryId dir va)).present = false := by
      rw [he]
      simp [Vmm.page, Vmm.entryId]
    -- an entry that is still present is another one
    have hkept : ∀ e, ((k.vmm.freePage dir va true).page e).present = true →
        e ≠ k.vmm.entryId dir va := by
      rintro e hpe rfl
      rw [habs] at hpe
      cases hpe
    refine ⟨h.enabled, ?_, h.distinct.of_dirs hdirs, ?_, ?_, ?_⟩
    · show (Vmm.pmm _).maxBlocks.toNat < 2 ^ 20
      rw [hpmm]
      exact h.blocks
    · intro e hmem
      dsimp only
      rw [hdirs]
      exact h.installed e hmem
    · refine (h.frames.release hholds).mono ?_ ?_
      · rintro e x ⟨hmem, hpe, rfl⟩
        have hne := hkept e hpe
        dsimp only at hpe ⊢
        rw [Vmm.page_freePage_of_ne hne] at hpe ⊢
        exact ⟨hne, hmem, hpe, rfl⟩
      · rintro x ⟨hne, hx⟩
        show (Vmm.pmm _).used x.toNat = true
        rw [hpmm, Pmm.used_pmmFreeBlock_of_ne hne]
        exact hx
    · rintro d a ⟨hta, hpe⟩
      have hid := Vmm.entryId_of_dirs hdirs d a
      have htable := congrArg Prod.fst hid
      have hpe' : ((k.vmm.freePage dir va true).page (k.vmm.entryId d a)).present = true := by
        rw [← hid]
        exact hpe
      rw [Vmm.page_freePage_of_ne (hkept _ hpe')] at hpe'
      dsimp only at hta ⊢
      rw [hid]
      refine (h.mapped d a ⟨fun hc => hta (htable.trans hc), hpe'⟩).imp_right fun hident => ?_
      unfold Vmm.IdentityPage at hident ⊢
      rwa [Vmm.kernelPageDir_freePage]

/-- **Every safe call keeps the invariant.** -/
theorem step {s s' : Owned} {op : PageOp} (h : OwnedOk s) (hs : SafePageStep s op s') :
    OwnedOk s' := by
  obtain ⟨hsafe, hstep⟩ := hs
  obtain ⟨k, filled⟩ := s
  cases hstep with
  | free => exact h.freePage hsafe
  | alloc hfresh hk =>
    rename_i k' dir va table isKernel isWritable
    dsimp only at hfresh hk ⊢
    rcases Kernel.allocatePage_cases hk with ⟨hd, rfl⟩ | ⟨hd, ht, rfl⟩ |
      ⟨hd, ht, k₁, table', hsrc, rfl⟩
    · rw [Owned.filledAfter_of_kept (Or.inl hd)]
      exact h
    · -- a page that is mapped already keeps its frame
      by_cases hm : k.vmm.Mapped dir va
      · rw [Owned.filledAfter_of_kept (Or.inr hm), Vmm.fillEntry_of_present hm.2]
        exact h
      · rw [Owned.filledAfter_of_new hd hm]
        dsimp only
        rw [Vmm.entryId_of_dirs (Vmm.dirs_fillEntry _ _ _ _ _ _)]
        exact h.fillEntry isKernel isWritable ht hm (hsafe hd hm)
    · have hm : ¬ k.vmm.Mapped dir va := fun hc => hc.1 ht
      rw [Kernel.newTable_of_enabled h.enabled] at hsrc
      cases hsrc
      have htable := Vmm.tableOf_installTable_self k.vmm dir va table isKernel isWritable
      have hinst := h.installTable isKernel isWritable ht hfresh
      have hfill := hinst.fillEntry isKernel isWritable
        (by dsimp only; rw [htable]; exact hfresh.1) (fun hc => ?_) (hsafe hd hm)
      · rw [Owned.filledAfter_of_new hd hm]
        dsimp only at hfill ⊢
        rw [htable] at hfill
        rwa [Vmm.entryId_of_dirs (Vmm.dirs_fillEntry _ _ _ _ _ _)]
      · -- the new table is empty
        have hp := hc.2
        dsimp only at hp
        rw [htable, Vmm.entry, Vmm.tabs_installTable_self] at hp
        cases hp

end OwnedOk

/-! ## After boot -/

namespace Kernel

variable {k₀ k k' : Kernel} {kmallocA : TableSource} {D : U32}

/-- Of the directories, only `D` has changed since `k₀`. -/
structure OnlyDir (k₀ : Kernel) (D : U32) (k : Kernel) : Prop where
  heap : k.heap = k₀.heap
  dir : k.vmm.kernelPageDir = D
  dirs : ∀ d, d ≠ D → k.vmm.dirs d = k₀.vmm.dirs d

theorem OnlyDir.allocatePage (hheap : k₀.heap.kheapEnabled = false) (h : OnlyDir k₀ D k)
    {va frame : U32} {isKernel isWritable : Bool}
    (hk : k.allocatePage kmallocA D va frame isKernel isWritable = some k') : OnlyDir k₀ D k' := by
  rcases allocatePage_cases hk with ⟨-, rfl⟩ | ⟨-, -, rfl⟩ | ⟨-, -, k₁, table, hnew, rfl⟩
  · exact h
  · refine ⟨h.heap, ?_, fun d hd => ?_⟩
    · exact (Vmm.kernelPageDir_fillEntry _ _ _ _ _ _).trans h.dir
    · exact (congrFun (Vmm.dirs_fillEntry _ _ _ _ _ _) d).trans (h.dirs d hd)
  · rw [newTable_of_disabled (by rw [h.heap, hheap])] at hnew
    cases hnew
    refine ⟨h.heap, ?_, fun d hd => ?_⟩
    · dsimp only
      rw [Vmm.kernelPageDir_fillEntry, Vmm.kernelPageDir_installTable]
      exact h.dir
    · dsimp only
      rw [Vmm.dirs_fillEntry, Vmm.dirs_installTable_of_ne _ _ _ _ _ _ hd]
      exact h.dirs d hd

theorem OnlyDir.allocatePages (hheap : k₀.heap.kheapEnabled = false) (h : OnlyDir k₀ D k)
    {bound start runner : U32} {isWritable : Bool}
    (hk : k.allocatePages kmallocA isWritable bound start = some (k', runner)) :
    OnlyDir k₀ D k' := by
  refine (loop_invariant (fun s : Kernel × U32 => OnlyDir k₀ D s.1) ?_ _ (k, start) (k', runner) h
    hk).1
  rintro ⟨k₁, i⟩ s' h₁ - hb
  obtain ⟨k₂, hk₂, rfl⟩ := Option.map_eq_some_iff.mp hb
  dsimp only at h₁ hk₂
  rw [h₁.dir] at hk₂
  exact h₁.allocatePage hheap hk₂

theorem OnlyDir.allocateRegion (hheap : k₀.heap.kheapEnabled = false) (h : OnlyDir k₀ D k)
    {startVa endVa : U32} {idenMap isKernel isWritable : Bool}
    (hk : k.allocateRegion kmallocA D startVa endVa idenMap isKernel isWritable = some k') :
    OnlyDir k₀ D k' := by
  obtain ⟨t, ht, rfl⟩ := Option.map_eq_some_iff.mp hk
  refine (loop_invariant (fun s : Kernel × U32 => OnlyDir k₀ D s.1) ?_ _ _ t h ht).1
  rintro ⟨k₁, i⟩ s' h₁ - hb
  obtain ⟨k₂, hk₂, rfl⟩ := Option.map_eq_some_iff.mp hb
  exact h₁.allocatePage hheap hk₂

/-- `vmm_init` works on one directory. -/
theorem onlyDir_vmmInit (hheap : k₀.heap.kheapEnabled = false) (h : k₀.vmmInit kmallocA = some k) :
    OnlyDir k₀ k.vmm.kernelPageDir k := by
  unfold vmmInit at h
  obtain ⟨⟨k₁, r₁⟩, hk₁, h⟩ := Option.bind_eq_some_iff.mp h
  obtain ⟨⟨k₂, r₂⟩, hk₂, h⟩ := Option.bind_eq_some_iff.mp h
  obtain ⟨k₃, hk₃, h⟩ := Option.bind_eq_some_iff.mp h
  have h₀ : OnlyDir k₀ k₀.newKernelPageDir.vmm.kernelPageDir k₀.newKernelPageDir := by
    refine ⟨?_, rfl, fun d hd => ?_⟩
    · dsimp only [newKernelPageDir]
    · dsimp only [newKernelPageDir] at hd ⊢
      rw [Function.update_of_ne hd]
      rfl
  have h₁ := h₀.allocatePages hheap hk₁
  have h₂ := h₁.allocatePages hheap hk₂
  have h₃ := h₂.allocateRegion hheap (by rwa [h₂.dir] at hk₃)
  cases h
  exact ⟨h₃.heap, rfl, fun d hd => h₃.dirs d fun hc => hd (hc.trans h₃.dir.symm)⟩

end Kernel

/-- The entry that `vmm_init` fills as number `s`. -/
def bootId (e s : Nat) : EntryId :=
  (bootTable e (s / 1024), ⟨s % 1024, Nat.mod_lt s (by decide)⟩)

theorem bootId_inj {e s s' : Nat} (hroom : BootRoom e) (hs : s < 4096) (hs' : s' < 4096)
    (h : bootId e s = bootId e s') : s = s' := by
  have ht := bootTable_inj hroom (by omega) (by omega) (congrArg Prod.fst h)
  have hi := congrArg Fin.val (congrArg Prod.snd h)
  simp only [bootId] at hi
  omega

/-- The entries that `vmm_init` fills from the memory manager: the kernel, the initial heap, and
page 0, for which the identity map asks for frame 0. -/
def bootFilled (e : Nat) : Set EntryId :=
  {x | ∃ s < 3073, x = bootId e s}

/-- The state after `vmm_init` and `kheap_init`. -/
def Owned.boot (e : Nat) (k : Kernel) : Owned := ⟨k.kheapInit, bootFilled e⟩

namespace Kernel.Booted

variable {k₀ k : Kernel}

/-- Boot takes frame `s` for entry `s`. -/
theorem frame_bootEntry (h : Booted k₀ k) (hfresh : k₀.vmm.pmm.PrefixUsed 0)
    (hscan : 3072 < k₀.vmm.pmm.scanned) {s : Nat} (hs : s < 3073) :
    (k.vmm.bootEntry k₀.vmm.pmm.bitmapEnd s).frame = BitVec.ofNat 20 s := by
  obtain ⟨p, hmax, -, hzero, hframes⟩ := h.pmm
  obtain ⟨hused, hframe⟩ := hframes hfresh (Nat.le_of_lt hscan)
  rcases Nat.lt_succ_iff_lt_or_eq.mp hs with hlt | rfl
  · exact hframe s hlt
  · obtain ⟨he, -⟩ := hused.alloc (by rwa [Pmm.scanned_congr hmax])
    rw [hzero, he]
    apply BitVec.eq_of_toNat_eq
    rw [BitVec.toNat_setWidth, Pmm.toNat_block (by decide), BitVec.toNat_ofNat]

theorem entryId_eq (h : Booted k₀ k) {s : Nat} (hs : s < 4096) {va : U32}
    (hva : va.toNat / 4096 = bootPage s / 4096) :
    k.vmm.entryId k.vmm.kernelPageDir va = bootId k₀.vmm.pmm.bitmapEnd s :=
  Prod.ext (h.tableOf_eq hs hva) (pagetblIndex_bootPage hva)

/-- Every page of the directory is one of the 3089. -/
theorem exists_bootEntry (h : Booted k₀ k) {va : U32} (hm : k.vmm.Mapped k.vmm.kernelPageDir va) :
    ∃ s < 3089, va.toNat / 4096 = bootPage s / 4096 ∧
      k.vmm.entryId k.vmm.kernelPageDir va = bootId k₀.vmm.pmm.bitmapEnd s := by
  obtain ⟨ht, hp⟩ := hm
  obtain ⟨t, ht4, hidx⟩ := h.exists_table ht
  have hdir := congrArg Fin.val hidx
  rw [pagedirIndex_val, bootRegion_val] at hdir
  have hva : va.toNat / 4096 = bootPage (1024 * t + va.toNat / 4096 % 1024) / 4096 := by
    unfold bootPage
    split at hdir <;> split <;> omega
  have hentry := h.entryId_eq (by omega) hva
  refine ⟨_, Nat.lt_of_not_le fun hc => ?_, hva, hentry⟩
  have habsent := h.empty _ hc (by omega)
  have hpage : k.vmm.page (k.vmm.entryId k.vmm.kernelPageDir va) = _ := congrArg k.vmm.page hentry
  have hp : (k.vmm.page (k.vmm.entryId k.vmm.kernelPageDir va)).present = true := hp
  rw [hpage] at hp
  exact absurd (hp.symm.trans habsent) (by decide)

/-- The invariant holds after boot, if there was a block for every page. -/
theorem ownedOk (h : Booted k₀ k) (hroom : BootRoom k₀.vmm.pmm.bitmapEnd)
    (hfresh : k₀.vmm.pmm.PrefixUsed 0) (h20 : k₀.vmm.pmm.maxBlocks.toNat < 2 ^ 20)
    (hscan : 3072 < k₀.vmm.pmm.scanned) (hnone : ∀ d i, (k₀.vmm.dirs d).refTables i = 0)
    (honly : OnlyDir k₀ k.vmm.kernelPageDir k) :
    OwnedOk (Owned.boot k₀.vmm.pmm.bitmapEnd k) := by
  -- only the kernel's directory has tables
  have hdir : ∀ d i, (k.vmm.dirs d).refTables i ≠ 0 → d = k.vmm.kernelPageDir := by
    intro d i hi
    by_contra hc
    rw [honly.dirs d hc] at hi
    exact hi (hnone d i)
  refine ⟨rfl, ?_, ?_, ?_, ⟨?_, ?_⟩, ?_⟩
  · show k.vmm.pmm.maxBlocks.toNat < 2 ^ 20
    rw [h.maxBlocks]
    exact h20
  · intro d i d' i' hi heq
    change (k.vmm.dirs d).refTables i ≠ 0 at hi
    change (k.vmm.dirs d).refTables i = (k.vmm.dirs d').refTables i' at heq
    obtain rfl := hdir d i hi
    obtain rfl := hdir d' i' (heq ▸ hi)
    exact ⟨rfl, h.tablesDistinct hroom i i' hi heq⟩
  · rintro e ⟨s, hs, rfl⟩
    exact ⟨bootTable_ne_zero hroom (by omega), k.vmm.kernelPageDir, bootRegion (s / 1024),
      h.refs _ (by omega)⟩
  · rintro e f ⟨⟨s, hs, rfl⟩, -, rfl⟩
    show k.vmm.pmm.used (k.vmm.bootEntry k₀.vmm.pmm.bitmapEnd s).frame.toNat = true
    rw [h.frame_bootEntry hfresh hscan hs, BitVec.toNat_ofNat, Nat.mod_eq_of_lt (by omega)]
    exact (h.prefixUsed hfresh hscan).below s hs
  · rintro e e' f ⟨⟨s, hs, rfl⟩, -, hf⟩ ⟨⟨s', hs', rfl⟩, -, hf'⟩
    have hf := (h.frame_bootEntry hfresh hscan hs).symm.trans hf
    have hf' := (h.frame_bootEntry hfresh hscan hs').symm.trans hf'
    have heq := congrArg BitVec.toNat (hf.trans hf'.symm)
    rw [BitVec.toNat_ofNat, BitVec.toNat_ofNat, Nat.mod_eq_of_lt (by omega),
      Nat.mod_eq_of_lt (by omega)] at heq
    rw [heq]
  · intro d va hm
    obtain rfl := hdir d _ hm.1
    obtain ⟨s, hs, hva, hentry⟩ := h.exists_bootEntry hm
    by_cases hlow : s < 3073
    · exact Or.inl ⟨s, hlow, hentry⟩
    · refine Or.inr ⟨rfl, ?_⟩
      rw [bootPage, if_neg (by omega)] at hva
      omega

end Kernel.Booted

/-! ## Every run -/

section

variable {raw : Nat → U32} {kernelEndPhys kernelEndVirt : U32} {tags : List Mboot2Tag} {p : Pmm}
  {mem : Mem} {kmallocA : TableSource} {k : Kernel}

/-- The invariant after `pmm_init`, `vmm_init` and `kheap_init`. -/
theorem ownedOk_boot (hp : pmmInit raw kernelEndPhys tags = some p)
    (hmax : 3104 ≤ p.maxBlocks.toNat) (hroom : BootRoom p.bitmapEnd)
    (hboot : (Kernel.loaded p mem kernelEndVirt).vmmInit kmallocA = some k) :
    OwnedOk (Owned.boot p.bitmapEnd k) := by
  have hheap : (Kernel.loaded p mem kernelEndVirt).heap.kheapEnabled = false := rfl
  obtain ⟨k', hk', hbooted⟩ := Kernel.vmmInit_spec hheap rfl hroom kmallocA
  rw [hboot] at hk'
  cases hk'
  have hscan : 3072 < p.scanned := by
    unfold Pmm.scanned
    omega
  exact hbooted.ownedOk hroom (Pmm.prefixUsed_pmmInit hp) (Pmm.pmmInit_eq_some hp).1 hscan
    (fun _ _ => rfl) (Kernel.onlyDir_vmmInit hheap hboot)

/--
**No shared frame.** On a machine with at least 3104 blocks, in every run of `allocate_page` and
`free_page` from boot on in which every allocation that needs a block finds one and the identity
map of the pages 1 to 16 is left alone, no two entries filled from the memory manager hold
the same frame.
-/
theorem noSharedFrame_of_safe_run (hp : pmmInit raw kernelEndPhys tags = some p)
    (hmax : 3104 ≤ p.maxBlocks.toNat) (hroom : BootRoom p.bitmapEnd)
    (hboot : (Kernel.loaded p mem kernelEndVirt).vmmInit kmallocA = some k) {ops : List PageOp}
    {s : Owned} (hrun : Run SafePageStep (Owned.boot p.bitmapEnd k) ops s) : s.NoSharedFrame := by
  have hok : OwnedOk s := hrun.invariant OwnedOk (fun _ _ _ h hs => h.step hs)
    (ownedOk_boot hp hmax hroom hboot)
  intro e₁ h₁ e₂ h₂ hp₁ hp₂ heq
  exact hok.frames.owner e₁ e₂ _ ⟨h₁, hp₁, rfl⟩ ⟨h₂, hp₂, heq.symm⟩

theorem noSharedFrame_of_safe_run_machine16 : ∃ k s,
    Kernel.machine16.vmmInit (fun _ _ => none) = some k ∧
      Run SafePageStep (Owned.boot Kernel.pmm16.bitmapEnd k)
        ([] ++ [.free k.vmm.kernelPageDir 0xC0400000]) s ∧ s.NoSharedFrame := by
  obtain ⟨k, hk, -⟩ := Kernel.vmmInit_spec Kernel.heap_machine16 Kernel.paging_machine16
    Kernel.bootRoom_machine16 (fun _ _ => none)
  have hrun : Run SafePageStep (Owned.boot Kernel.pmm16.bitmapEnd k)
      ([] ++ [.free k.vmm.kernelPageDir 0xC0400000]) _ :=
    .snoc (.nil _) ⟨fun hc => absurd hc.2.2 (by decide), .free⟩
  exact ⟨k, _, hk, hrun, noSharedFrame_of_safe_run Kernel.pmmInit_eq_pmm16 (by decide)
    Kernel.bootRoom_machine16 hk hrun⟩

end

namespace Kernel.Booted

variable {k₀ k : Kernel}

/-- With no block left for it, page 0 shares block 0 with the kernel. -/
theorem shared_of_full (h : Booted k₀ k) (hroom : BootRoom k₀.vmm.pmm.bitmapEnd)
    (hfresh : k₀.vmm.pmm.PrefixUsed 0) (hscan : k₀.vmm.pmm.scanned = 3072) :
    ¬ (Owned.boot k₀.vmm.pmm.bitmapEnd k).NoSharedFrame := by
  obtain ⟨p, hmax, -, hzero, hframes⟩ := h.pmm
  obtain ⟨hused, hframe⟩ := hframes hfresh hscan.ge
  have hnext : p.pmmAllocBlock.2 = 0 := by
    rcases p.pmmAllocBlock_cases with ⟨-, he⟩ | ⟨-, b, hb, hclear, -⟩ | ⟨-, -, -, he⟩
    · rw [he]
    · rw [Pmm.scanned_congr hmax, hscan] at hb
      rw [hused.below b hb] at hclear
      cases hclear
    · rw [he]
  intro hc
  have heq := hc _ ⟨0, by omega, rfl⟩ _ ⟨3072, by omega, rfl⟩ (h.filled 0 (by omega))
    (h.filled 3072 (by omega)) ?_
  · exact absurd (bootId_inj hroom (by omega) (by omega) heq) (by decide)
  · show (k.vmm.bootEntry _ 0).frame = (k.vmm.bootEntry _ 3072).frame
    rw [hframe 0 (by omega), hzero, hnext]
    decide

/-- Giving back page 1 of the identity map makes block 1 the next one to be handed out. -/
theorem pmmAllocBlock_freePage_identity (h : Booted k₀ k) (hroom : BootRoom k₀.vmm.pmm.bitmapEnd)
    (hfresh : k₀.vmm.pmm.PrefixUsed 0) (hscan : 3072 < k₀.vmm.pmm.scanned) :
    (k.vmm.freePage k.vmm.kernelPageDir 0x1000 true).pmm.pmmAllocBlock.2 =
      BitVec.ofNat 32 1 * pageSize := by
  have hpage1 : (0x1000 : U32).toNat / 4096 = bootPage 3073 / 4096 := by decide
  have hdir : k.vmm.kernelPageDir ≠ bootPageDir := fun hc => by
    have := (h.tablesApart hroom).dir_aligned
    rw [hc] at this
    exact absurd this (by decide)
  have hpmm := Vmm.pmm_freePage_of_mapped hdir (h.mapped hroom (by omega) hpage1)
  rw [h.entryId_eq (by omega) hpage1, show (k.vmm.page (bootId k₀.vmm.pmm.bitmapEnd 3073)).frame =
    BitVec.ofNat 20 1 from h.low 1 (by omega) (by omega)] at hpmm
  have hscan' : 3073 ≤ k.vmm.pmm.scanned := by
    rw [Pmm.scanned_congr h.maxBlocks]
    exact hscan
  rw [hpmm]
  exact congrArg Prod.snd ((h.prefixUsed hfresh hscan).realloc (b := 1) (by omega) hscan'
    (show (BitVec.setWidth 32 (BitVec.ofNat 20 1) * pageSize / pageSize).toNat = 1 by decide))

/-- It leaves the other entries alone. -/
theorem page_freePage_identity (h : Booted k₀ k) (hroom : BootRoom k₀.vmm.pmm.bitmapEnd) {s : Nat}
    (hs : s < 4096) (hne : s ≠ 3073) :
    (k.vmm.freePage k.vmm.kernelPageDir 0x1000 true).page (bootId k₀.vmm.pmm.bitmapEnd s) =
      k.vmm.bootEntry k₀.vmm.pmm.bitmapEnd s := by
  have hid1 := h.entryId_eq (by omega)
    (show (0x1000 : U32).toNat / 4096 = bootPage 3073 / 4096 by decide)
  refine Vmm.page_freePage_of_ne fun hc => hne ?_
  exact bootId_inj hroom hs (by omega) (hc.trans hid1)

/-- After page 1 of the identity map is given back, the next page gets block 1, which the kernel
has. -/
theorem shared_of_free_identity (h : Booted k₀ k) (hroom : BootRoom k₀.vmm.pmm.bitmapEnd)
    (hfresh : k₀.vmm.pmm.PrefixUsed 0) (hscan : 3072 < k₀.vmm.pmm.scanned) {table : U32}
    (hnew : k.vmm.FreshTable table) :
    ∃ s, Run PageStep (Owned.boot k₀.vmm.pmm.bitmapEnd k) ([] ++ [.free k.vmm.kernelPageDir 0x1000]
      ++ [.alloc k.vmm.kernelPageDir 0x11000 true true table]) s ∧ ¬ s.NoSharedFrame := by
  have halloc := h.pmmAllocBlock_freePage_identity hroom hfresh hscan
  have hkept := fun s (hs : s < 4096) (hne : s ≠ 3073) => h.page_freePage_identity hroom hs hne
  have hdirs := k.vmm.dirs_freePage k.vmm.kernelPageDir 0x1000 true
  have hid17 := (Vmm.entryId_of_dirs hdirs k.vmm.kernelPageDir 0x11000).trans (h.entryId_eq
    (by omega) (show (0x11000 : U32).toNat / 4096 = bootPage 3089 / 4096 by decide))
  have hfirst : PageStep (Owned.boot k₀.vmm.pmm.bitmapEnd k) (.free k.vmm.kernelPageDir 0x1000)
      ⟨{ k.kheapInit with vmm := k.vmm.freePage k.vmm.kernelPageDir 0x1000 true },
        bootFilled k₀.vmm.pmm.bitmapEnd⟩ := .free
  generalize k.vmm.freePage k.vmm.kernelPageDir 0x1000 true = v₁ at *
  -- the page at `0x11000` is not mapped yet, but it has a table
  have ht : v₁.tableOf k.vmm.kernelPageDir 0x11000 ≠ 0 := by
    rw [show v₁.tableOf k.vmm.kernelPageDir 0x11000 = _ from congrArg Prod.fst hid17]
    exact bootTable_ne_zero hroom (by omega)
  have habsent : (v₁.page (v₁.entryId k.vmm.kernelPageDir 0x11000)).present = false := by
    rw [hid17, hkept 3089 (by omega) (by omega)]
    exact h.empty 3089 (by omega) (by omega)
  have hsecond : Kernel.allocatePage (fun k _ => some (k, table)) { k.kheapInit with vmm := v₁ }
      k.vmm.kernelPageDir 0x11000 0 true true = some { k.kheapInit with
        vmm := v₁.fillEntry (v₁.tableOf k.vmm.kernelPageDir 0x11000) (pagetblIndex 0x11000) 0 true
          true } := by
    unfold Kernel.allocatePage
    rw [if_neg (h.dir_ne_zero hroom), if_neg ht]
  have hnew' : v₁.FreshTable table := by
    unfold Vmm.FreshTable
    rw [hdirs]
    exact hnew
  refine ⟨_, .snoc (.snoc (.nil _) hfirst) (.alloc hnew' hsecond), fun hc => ?_⟩
  -- it shares block 1 with the kernel
  have hne : bootId k₀.vmm.pmm.bitmapEnd 1 ≠ v₁.entryId k.vmm.kernelPageDir 0x11000 := by
    rw [hid17]
    exact fun hc => absurd (bootId_inj hroom (by omega) (by omega) hc) (by decide)
  obtain ⟨-, hframe⟩ := Vmm.fillEntry_of_absent true true habsent
  have hkernel : (v₁.fillEntry (v₁.tableOf k.vmm.kernelPageDir 0x11000) (pagetblIndex 0x11000) 0
      true true).page (bootId k₀.vmm.pmm.bitmapEnd 1) = k.vmm.bootEntry k₀.vmm.pmm.bitmapEnd 1 :=
    (Vmm.page_fillEntry_of_ne hne).trans (hkept 1 (by omega) (by omega))
  refine hne (hc _ (Or.inl ⟨1, by omega, rfl⟩) _ (Or.inr ⟨h.dir_ne_zero hroom, fun hm => ?_,
    (Vmm.entryId_of_dirs (Vmm.dirs_fillEntry _ _ _ _ _ _) _ _).symm⟩) ?_
    (Vmm.present_fillEntry _ _ _ _ _ _) ?_)
  · exact absurd (hm.2.symm.trans habsent) (by decide)
  · exact (congrArg Page.present hkernel).trans (h.filled 1 (by omega))
  · refine (congrArg Page.frame hkernel).trans (Eq.trans ?_ hframe.symm)
    rw [h.frame_bootEntry hfresh hscan (by omega), halloc]
    decide

/-- An address that is none of the boot tables' is fresh. -/
theorem freshTable (h : Booted k₀ k) (hroom : BootRoom k₀.vmm.pmm.bitmapEnd)
    (hnone : ∀ d i, (k₀.vmm.dirs d).refTables i = 0) (honly : OnlyDir k₀ k.vmm.kernelPageDir k)
    (table : U32) (hlt : bootDir k₀.vmm.pmm.bitmapEnd + 0x6000 ≤ table.toNat) :
    k.vmm.FreshTable table := by
  have hpos : table ≠ 0 := fun hc => by
    rw [hc, show (0 : U32).toNat = 0 from rfl] at hlt
    omega
  refine ⟨hpos, fun d i hi => ?_⟩
  by_cases hd : d = k.vmm.kernelPageDir
  · subst hd
    obtain ⟨t, ht, rfl⟩ := h.exists_table (i := i) (by rw [hi]; exact hpos)
    rw [h.refs t ht] at hi
    have := bootTable_toNat hroom ht
    rw [hi] at this
    omega
  · rw [honly.dirs d hd] at hi
    exact hpos (hi.symm.trans (hnone d i))

end Kernel.Booted

/-- With 12400 KiB of memory two pages share a frame right after boot. With 16 MiB they do after
page 1 of the identity map is given back and another page is allocated. -/
theorem not_noSharedFrame :
    (∃ p k, pmmInit (fun _ => 0) 0x180000 [.basicMeminfo 640 11760] = some p ∧
      (Kernel.loaded p (fun _ => 0) 0xC0180000).vmmInit (fun _ _ => none) = some k ∧
      ¬ (Owned.boot p.bitmapEnd k).NoSharedFrame) ∧
    ∃ k s, Kernel.machine16.vmmInit (fun _ _ => none) = some k ∧
      Run PageStep (Owned.boot Kernel.pmm16.bitmapEnd k) ([] ++ [.free k.vmm.kernelPageDir 0x1000]
        ++ [.alloc k.vmm.kernelPageDir 0x11000 true true 0xE0000000]) s ∧ ¬ s.NoSharedFrame := by
  constructor
  · have hp : pmmInit (fun _ => 0) 0x180000 [.basicMeminfo 640 11760] =
        some ⟨3100, 0, 0xC0180000, 387, Bitmap.zeroBytes (fun _ => 0) 387⟩ := rfl
    have hroom : BootRoom (Pmm.bitmapEnd
        ⟨3100, 0, 0xC0180000, 387, Bitmap.zeroBytes (fun _ => 0) 387⟩) := by
      unfold BootRoom bootDir
      decide
    obtain ⟨k, hk, hbooted⟩ := Kernel.vmmInit_spec (show (Kernel.loaded _ (fun _ => 0)
      0xC0180000).heap.kheapEnabled = false from rfl) rfl hroom (fun _ _ => none)
    exact ⟨_, k, hp, hk, hbooted.shared_of_full hroom (Pmm.prefixUsed_pmmInit hp) (by decide)⟩
  · obtain ⟨k, hk, hbooted⟩ := Kernel.vmmInit_spec Kernel.heap_machine16 Kernel.paging_machine16
      Kernel.bootRoom_machine16 (fun _ _ => none)
    have honly := Kernel.onlyDir_vmmInit Kernel.heap_machine16 hk
    have hnew := hbooted.freshTable Kernel.bootRoom_machine16 (fun _ _ => rfl) honly
      0xE0000000 (by decide)
    obtain ⟨s, hrun, hs⟩ := hbooted.shared_of_free_identity Kernel.bootRoom_machine16
      Kernel.fresh_machine16 (by decide) hnew
    exact ⟨k, s, hk, hrun, hs⟩

end PiggyOS
