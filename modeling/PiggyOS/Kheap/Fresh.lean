import PiggyOS.Kheap.Tables

/-!
# Page tables from the break

While there is nothing on the free list a page table comes from the break, which does not move
down: each table lies above all those made before.

* `GrowthOk.ksbrk_table_cases` — what a call for a page table does: it makes no further table
* `Stacked` — the tables of the kernel's directory lie below the place of the next one
* `TablesAdded` — what growth does to the directories
-/

namespace PiggyOS

open Infra

theorem toNat_tableIn {ret : U32} (h : ret.toNat ≤ 0xD0000000) :
    (tableIn ret).toNat = (ret.toNat + 48) / 4096 * 4096 + 4096 := by
  have h48 : (ret + 48).toNat = ret.toNat + 48 :=
    BitVec.toNat_add_of_lt (by simp; omega)
  rw [tableIn, toNat_align (by omega), h48]

theorem tableIn_le {a b : U32} (hab : a.toNat ≤ b.toNat) (hb : b.toNat ≤ 0xD0000000) :
    (tableIn a).toNat ≤ (tableIn b).toNat := by
  rw [toNat_tableIn (by omega), toNat_tableIn hb]
  omega

namespace Kernel

variable {k k' : Kernel}

/-! ## A call for a page table -/

/-- The call for a page table: it returns the break, and moves it. -/
structure ServedTable (k k₁ : Kernel) (ret : U32) : Prop where
  ret_eq : ret = k.heap.heapCurr
  curr : k₁.heap.heapCurr.toNat = k.heap.heapCurr.toNat + 8208
  filled : k.vmm.Filled k₁.vmm k.heap.heapEnd.toNat (k.heap.heapCurr.toNat + 8208)
  room : k.heap.heapCurr.toNat + 8208 ≤ k.heap.heapEnd.toNat ∨
    k.heap.heapCurr.toNat + 8208 ≤ k.heap.heapMax.toNat
  end_le : ∀ i, i % 4096 = 0 → k.heap.heapEnd.toNat ≤ i → k.heap.heapCurr.toNat + 8208 ≤ i →
    k₁.heap.heapEnd.toNat ≤ i

/-- The heap is too full for a page table. -/
def TableRefused (k : Kernel) : Prop :=
  k.heap.heapEnd.toNat < k.heap.heapCurr.toNat + 8208 ∧
    k.heap.heapMax.toNat < k.heap.heapCurr.toNat + 8208

/-- A call for a page table that comes back has made no table of its own: it would have needed
that table to come back. -/
theorem GrowthOk.ksbrk_table_cases (h : GrowthOk k) (hcurr : k.heap.heapCurr.toNat ≤ 0xD0000000)
    {n : Nat} {k₁ : Kernel} {ret : U32} (hs : Kernel.ksbrk n k 8208 = some (k₁, ret)) :
    k.ServedTable k₁ ret ∨ k.TableRefused ∧ k₁ = k ∧ ret = 0 := by
  have hnb : (k.heap.heapCurr + 8208).toNat = k.heap.heapCurr.toNat + 8208 :=
    BitVec.toNat_add_of_lt (by simp; omega)
  rcases ksbrk_cases_of_pos (by decide) hs with ⟨hle, rfl, rfl⟩ | ⟨hlt, hmax, rfl, rfl⟩ |
    ⟨hlt, hle, m, -, -, rfl, -⟩
  · have hle := BitVec.le_def.mp hle
    rw [hnb] at hle
    exact Or.inl ⟨rfl, hnb, .of_le _ hle, Or.inl hle, fun _ _ hend _ => hend⟩
  · have hlt := BitVec.lt_def.mp hlt
    have hmax := BitVec.lt_def.mp hmax
    rw [hnb] at hlt hmax
    exact Or.inr ⟨⟨hlt, hmax⟩, rfl, rfl⟩
  · have hroom := BitVec.le_def.mp hle
    rw [hnb] at hroom
    -- a page without a table would starve the call
    have htables : ∀ a : U32, k.heap.heapEnd.toNat ≤ a.toNat →
        a.toNat < (k.heap.heapCurr + 8208).toNat → k.vmm.tableOf k.vmm.kernelPageDir a ≠ 0 := by
      intro a hlo hhi hnone
      rw [hnb] at hhi
      have hstarved : Starved k 8208 := ⟨hroom, a, hlo, hhi, hhi, hnone⟩
      have hnever : Kernel.ksbrk (m + 1) k 8208 = none :=
        ksbrk_eq_none_of_starved _ h (by decide) hroom hstarved
      rw [hnever] at hs
      cases hs
    obtain ⟨v, runner, hk, hfilled, hral, hrange⟩ :=
      h.toHeapOk.exists_ksbrk_of_tables m (by decide) hlt hle htables
    rw [hs] at hk
    cases hk
    rw [hnb] at hfilled hrange
    refine Or.inl ⟨rfl, hnb, hfilled, Or.inr hroom, fun i hal hend hi => ?_⟩
    rcases hrange with rfl | hrlt
    · exact hend
    · dsimp only
      omega

/-! ## Growth -/

/-- The tables of the kernel's directory are different ones, and they lie below the place of the
next one. -/
structure Stacked (k : Kernel) : Prop where
  distinct : k.vmm.TablesDistinct k.vmm.kernelPageDir
  below : ∀ i, (k.vmm.dirs k.vmm.kernelPageDir).refTables i ≠ 0 →
    ((k.vmm.dirs k.vmm.kernelPageDir).refTables i).toNat < (tableIn k.heap.heapCurr).toNat

/-- What growth has done to the directories: regions of the kernel's directory without a table
may have one, which lies above all tables made before. -/
structure TablesAdded (k k' : Kernel) : Prop extends OthersKept k.vmm k'.vmm where
  kept : ∀ i, (k.vmm.dirs k.vmm.kernelPageDir).refTables i ≠ 0 →
    (k'.vmm.dirs k'.vmm.kernelPageDir).refTables i =
      (k.vmm.dirs k.vmm.kernelPageDir).refTables i
  added : ∀ i, (k.vmm.dirs k.vmm.kernelPageDir).refTables i = 0 →
    (k'.vmm.dirs k'.vmm.kernelPageDir).refTables i = 0 ∨ 768 ≤ i.val ∧
      (tableIn k.heap.heapCurr).toNat ≤
        ((k'.vmm.dirs k'.vmm.kernelPageDir).refTables i).toNat
  curr_ge : k.heap.heapCurr.toNat ≤ k'.heap.heapCurr.toNat

namespace TablesAdded

variable {k'' : Kernel}

/-- The directories are as they were. -/
theorem of_dirs (hdirs : k'.vmm.dirs = k.vmm.dirs)
    (hkernel : k'.vmm.kernelPageDir = k.vmm.kernelPageDir)
    (hcurrent : k'.vmm.currentPageDir = k.vmm.currentPageDir)
    (hcurr : k.heap.heapCurr.toNat ≤ k'.heap.heapCurr.toNat) : TablesAdded k k' := by
  refine ⟨⟨hkernel, hcurrent, fun d _ => by rw [hdirs]⟩, ?_, ?_, hcurr⟩
  · intro i _
    rw [hdirs, hkernel]
  · intro i hi
    rw [hdirs, hkernel]
    exact Or.inl hi

theorem refl (k : Kernel) : TablesAdded k k := of_dirs rfl rfl rfl (Nat.le_refl _)

theorem trans (h : TablesAdded k k') (h' : TablesAdded k' k'')
    (hcurr : k'.heap.heapCurr.toNat ≤ 0xD0000000) : TablesAdded k k'' := by
  refine ⟨h.toOthersKept.trans h'.toOthersKept, ?_, ?_, h.curr_ge.trans h'.curr_ge⟩
  · intro i hi
    have hfirst := h.kept i hi
    rw [h'.kept i (by rwa [hfirst]), hfirst]
  · intro i hi
    rcases h.added i hi with hnone | ⟨hregion, hge⟩
    · refine (h'.added i hnone).imp_right fun ⟨hregion, hge⟩ => ⟨hregion, ?_⟩
      exact (tableIn_le h.curr_ge hcurr).trans hge
    · have hne : (k'.vmm.dirs k'.vmm.kernelPageDir).refTables i ≠ 0 := by
        intro hc
        have hcurr₀ : k.heap.heapCurr.toNat ≤ 0xD0000000 := h.curr_ge.trans hcurr
        rw [hc, toNat_tableIn hcurr₀, show (0 : U32).toNat = 0 from rfl] at hge
        omega
      rw [h'.kept i hne]
      exact Or.inr ⟨hregion, hge⟩

end TablesAdded

/-- With the same directory for the kernel and the break at or above where it was. -/
theorem Stacked.of_dir (h : Stacked k)
    (hdir : k'.vmm.dirs k'.vmm.kernelPageDir = k.vmm.dirs k.vmm.kernelPageDir)
    (hcurr : k.heap.heapCurr.toNat ≤ k'.heap.heapCurr.toNat)
    (hle : k'.heap.heapCurr.toNat ≤ 0xD0000000) : Stacked k' := by
  refine ⟨?_, ?_⟩
  · unfold Vmm.TablesDistinct
    rw [hdir]
    exact h.distinct
  · rw [hdir]
    intro i hi
    exact (h.below i hi).trans_le (tableIn_le hcurr hle)

theorem Stacked.of_dirs (h : Stacked k) (hdirs : k'.vmm.dirs = k.vmm.dirs)
    (hkernel : k'.vmm.kernelPageDir = k.vmm.kernelPageDir)
    (hcurr : k.heap.heapCurr.toNat ≤ k'.heap.heapCurr.toNat)
    (hle : k'.heap.heapCurr.toNat ≤ 0xD0000000) : Stacked k' :=
  h.of_dir (by rw [hdirs, hkernel]) hcurr hle

/-- A table at the place of the next one. -/
theorem Stacked.installTable (h : Stacked k) {idx : Fin 1024} {table : U32}
    (htable : table.toNat = (tableIn k.heap.heapCurr).toNat)
    (hrefs : (k'.vmm.dirs k'.vmm.kernelPageDir).refTables =
      Function.update (k.vmm.dirs k.vmm.kernelPageDir).refTables idx table)
    (hcurr : k'.heap.heapCurr.toNat = k.heap.heapCurr.toNat + 8208)
    (hle : k'.heap.heapCurr.toNat ≤ 0xD0000000) : Stacked k' := by
  have hplace := toNat_tableIn (show k.heap.heapCurr.toNat ≤ 0xD0000000 by omega)
  have hnext := toNat_tableIn hle
  have hother : ∀ i, (k.vmm.dirs k.vmm.kernelPageDir).refTables i ≠ table := by
    intro i hc
    have hne : table ≠ 0 := fun h0 => by
      rw [h0, show (0 : U32).toNat = 0 from rfl] at htable
      omega
    have := h.below i (hc.trans_ne hne)
    rw [hc] at this
    omega
  refine ⟨?_, ?_⟩
  · intro i j hi hij
    rw [hrefs] at hi hij
    by_cases hidx : i = idx
    · by_cases hjdx : j = idx
      · rw [hidx, hjdx]
      · rw [hidx, Function.update_self, Function.update_of_ne hjdx] at hij
        exact absurd hij.symm (hother j)
    · rw [Function.update_of_ne hidx] at hi hij
      by_cases hjdx : j = idx
      · rw [hjdx, Function.update_self] at hij
        exact absurd hij (hother i)
      · rw [Function.update_of_ne hjdx] at hij
        exact h.distinct i j hi hij
  · intro i hi
    rw [hrefs] at hi ⊢
    by_cases hidx : i = idx
    · rw [hidx, Function.update_self]
      omega
    · rw [Function.update_of_ne hidx] at hi ⊢
      have := h.below i hi
      omega

/-- A page loop of `ksbrk` that has come to `i`, and the tables it has made. -/
structure Adding (k₀ k : Kernel) (i : U32) : Prop extends InOrder k₀ k i where
  break_ok : k.heap.BreakOk
  stacked : Stacked k
  tablesAdded : TablesAdded k₀ k

/-- Where a page has no table, the heap is not too full for one: the last region of the heap has
its table before the heap is full. -/
theorem Adding.not_refused {k₀ : Kernel} {i : U32} (h : Adding k₀ k i)
    (hlo : 0xC0800000 ≤ i.toNat) (hhi : i.toNat < 0xCFFFFFFF)
    (ht : k.vmm.tableOf k.vmm.kernelPageDir i = 0) : ¬ k.TableRefused := by
  rintro ⟨-, hfull⟩
  have hmax := h.ok.limits.heapMax_toNat
  have hcurr := h.break_ok.curr_le
  have hregion := region_of_missing h.tables hlo ht
  have hend : k.heap.heapEnd.toNat ≤ i.toNat := Nat.le_of_not_lt fun hc =>
    h.ok.tables i (by omega) hc ht
  omega

/-- The next page. -/
theorem Adding.step {k₀ : Kernel} {i : U32} {n : Nat} (h : Adding k₀ k i)
    (hal : i.toNat % 4096 = 0) (hlo : 0xC0800000 ≤ i.toNat) (hhi : i.toNat < 0xCFFFFFFF)
    (hk : k.allocatePage (fun k sz => k.kmallocAWith (Kernel.ksbrk n) sz) k.vmm.kernelPageDir i 0
      true true = some k') : Adding k₀ k' (i + pageSize) := by
  have hcurr := h.curr_le
  have hmax := h.ok.limits.heapMax_toNat
  have hcall : ∀ k₁ r, Kernel.ksbrk n k 8208 = some (k₁, r) → TableCall k k₁ r := by
    intro k₁ r hs
    obtain ⟨-, hkept, hrest⟩ := GrowthOk.ksbrk n h.ok hs
    have hcall := TableOrder.ksbrk n ⟨h.ok, h.tablesOk, hcurr⟩ (by decide) hs
    exact ⟨hcall.toTableOrder, hkept, hcall.others, hcall.curr_ge rfl, (hrest rfl hcurr).2⟩
  have hin := h.toInOrder.step hal (by omega) hcall hk
  by_cases ht : k.vmm.tableOf k.vmm.kernelPageDir i = 0
  · rw [h.ok.allocatePage_of_missing ht] at hk
    obtain ⟨⟨k₁, ret⟩, hs, rfl⟩ := Option.map_eq_some_iff.mp hk
    have hgrown := (ksbrk_grown n h.break_ok (by decide) (by simp; omega) hs).1
    obtain ⟨rfl, hcurr₁, hfilled, -, -⟩ := (h.ok.ksbrk_table_cases hcurr hs).resolve_right
      fun hc => h.not_refused hlo hhi ht hc.1
    dsimp only at hin ⊢
    rw [← hfilled.kernelPageDir] at hin ⊢
    have hbounds := bounds_withTable k₁ k₁.vmm.kernelPageDir i k.heap.heapCurr true
    have hrefs := refTables_withTable (i := i) k₁ true k.heap.heapCurr
    have hothers := othersKept_withTable k₁ i k.heap.heapCurr true
    have hcurr₂ := congrArg BitVec.toNat (Heap.bounds_eq_iff.mp hbounds).2.2.1
    rw [hcurr₁] at hcurr₂
    have hle := hin.curr_le
    generalize k₁.withTable k₁.vmm.kernelPageDir i k.heap.heapCurr true = k₂ at *
    rw [hfilled.dirs, hfilled.kernelPageDir] at hrefs
    refine ⟨hin, hgrown.ok.of_bounds hbounds, h.stacked.installTable rfl hrefs hcurr₂ hle, ?_⟩
    have hthis : OthersKept k.vmm k₂.vmm := by
      have hfirst : OthersKept k.vmm k₁.vmm :=
        ⟨hfilled.kernelPageDir, hfilled.currentPageDir, fun d _ => by rw [hfilled.dirs]⟩
      exact hfirst.trans hothers
    have hnew : TablesAdded k k₂ := by
      refine ⟨hthis, ?_, ?_, by omega⟩
      all_goals
        intro j hj
        rw [hrefs]
        by_cases hidx : j = pagedirIndex i
      · rw [hidx] at hj
        exact absurd ht hj
      · rw [Function.update_of_ne hidx]
      · rw [hidx, Function.update_self, pagedirIndex_val]
        exact Or.inr ⟨by omega, Nat.le_refl _⟩
      · rw [Function.update_of_ne hidx]
        exact Or.inl hj
    exact h.tablesAdded.trans hnew hcurr
  · rw [h.ok.toHeapOk.allocatePage_of_table ht] at hk
    cases hk
    refine ⟨hin, h.break_ok, h.stacked.of_dirs (Vmm.dirs_fillEntry ..)
      (Vmm.kernelPageDir_fillEntry ..) (Nat.le_refl _) hcurr, h.tablesAdded.trans ?_ hcurr⟩
    exact .of_dirs (Vmm.dirs_fillEntry ..) (Vmm.kernelPageDir_fillEntry ..)
      (Vmm.currentPageDir_fillEntry ..) (Nat.le_refl _)

/-- **Growth stacks the tables.** The induction is on the bound, for the restarts; a table itself
comes from a call that makes no other. -/
theorem TableOrder.tablesAdded (n : Nat) {k k' : Kernel} {size r : U32} (h : TableOrder k)
    (hbreak : k.heap.BreakOk) (hstacked : Stacked k) (hpos : 0 < size.toInt)
    (hwrap : k.heap.heapCurr.toNat + size.toNat < 2 ^ 32)
    (hk : Kernel.ksbrk n k size = some (k', r)) : TablesAdded k k' ∧ Stacked k' := by
  induction n generalizing k k' size r with
  | zero => simp [Kernel.ksbrk] at hk
  | succ n ih =>
    have hend := hbreak.curr_le
    have hendmax := hbreak.end_le
    have hgrown := (ksbrk_grown (n + 1) hbreak hpos hwrap hk).1
    rcases ksbrk_cases_of_pos hpos hk with ⟨-, -, rfl⟩ | ⟨-, -, rfl, -⟩ |
      ⟨hlt, hle, m, k₁, runner, hm, hpages, hcase⟩
    · have hle := hgrown.ok.curr_le.trans hgrown.ok.end_le
      exact ⟨.of_dirs rfl rfl rfl hgrown.curr, hstacked.of_dirs rfl rfl hgrown.curr hle⟩
    · exact ⟨.refl _, hstacked⟩
    · cases hm
      obtain ⟨hnb, hnbmax⟩ := hbreak.toNat_newBoundary hpos hlt hle
      have hmin := hbreak.min_le
      have hstart : Adding k k k.heap.heapEnd :=
        ⟨⟨⟨h.toGrowthOk, .refl _, h.curr_le, h.tables⟩, h.tablesOk, .refl _, Nat.le_refl _,
          Or.inl rfl⟩, hbreak, hstacked, .refl _⟩
      obtain ⟨hadding, -, hrge, -, hrange⟩ := allocatePages_invariant (Adding k) hstart
        hbreak.aligned (by omega)
        (fun k₂ k₃ i hal hge hlt hadd hk₂ => hadd.step hal (by omega) (by omega) hk₂) hpages
      have hcurr₁ := hadding.curr_le
      rcases hcase with ⟨-, hrestart⟩ | ⟨hsame, -, rfl⟩
      · have hlow : 0xC0400000 ≤ k.heap.heapCurr.toNat := hbreak.start_le
        obtain ⟨hadded, hstacked'⟩ := ih ⟨hadding.ok, hadding.tablesOk, hcurr₁⟩
          hadding.break_ok hadding.stacked hpos (by omega) hrestart
        exact ⟨hadding.tablesAdded.trans hadded hcurr₁, hstacked'⟩
      · have hle' : (k.heap.heapCurr + size).toNat ≤ 0xD0000000 := by omega
        have hcurr : k₁.heap.heapCurr.toNat ≤ (k.heap.heapCurr + size).toNat := by
          rw [← hsame]
          omega
        refine ⟨hadding.tablesAdded.trans (.of_dirs rfl rfl rfl hcurr) hcurr₁, ?_⟩
        exact hadding.stacked.of_dirs rfl rfl hcurr hle'

/-! ## Growing calls -/

/-- A call that makes the heap grow, without passing the top of the address space. -/
def Grows (k : Kernel) : HeapCall → Prop
  | .malloc size => 0 < (blockSize size).toInt ∧
      k.heap.heapCurr.toNat + (blockSize size).toNat < 2 ^ 32
  | .sbrk size => 0 < size.toInt ∧ k.heap.heapCurr.toNat + size.toNat < 2 ^ 32
  | .free _ => False
  | .realloc _ _ => False

theorem TableOrder.withTail (h : TableOrder k) (ret size : U32) :
    TableOrder (k.withTail ret size) := by
  have hcurr := (Heap.bounds_eq_iff.mp (bounds_withTail k ret size)).2.2.1
  exact ⟨h.toGrowthOk.withTail ret size, h.tablesOk,
    (congrArg BitVec.toNat hcurr).trans_le h.curr_le⟩

/-- What a growing call does: it moves the break, and makes a block of the new memory. -/
theorem GrowthOk.grow_cases (h : GrowthOk k) {c : HeapCall} (hgrows : k.Grows c)
    (hstep : HeapStep k c k') : k' = k ∨ ∃ n size k₁ r, 0 < size.toInt ∧
      k.heap.heapCurr.toNat + size.toNat < 2 ^ 32 ∧ Kernel.ksbrk n k size = some (k₁, r) ∧
      (k' = k₁ ∨ k' = k₁.withTail r size) := by
  cases hstep with
  | @malloc _ n size _ hk =>
    rcases mallocWith_cases hk with ⟨-, rfl, -⟩ | ⟨-, best, hbest, hne, -⟩ |
      ⟨-, -, k₁, ret, hs, rfl, -⟩
    · exact Or.inl rfl
    · rw [Heap.bestfit_of_empty h.empty] at hbest
      exact absurd (Option.some.inj hbest).symm hne
    · exact Or.inr ⟨n, _, k₁, ret, hgrows.1, hgrows.2, hs, Or.inr rfl⟩
  | free => exact hgrows.elim
  | realloc => exact hgrows.elim
  | @sbrk _ n size r hs => exact Or.inr ⟨n, size, k', r, hgrows.1, hgrows.2, hs, Or.inl rfl⟩

theorem TableOrder.grows (h : TableOrder k) (hbreak : k.heap.BreakOk) (hstacked : k.Stacked)
    {c : HeapCall} (hgrows : k.Grows c) (hstep : HeapStep k c k') :
    TableOrder k' ∧ k'.heap.BreakOk ∧ Stacked k' ∧ TablesAdded k k' := by
  rcases h.toGrowthOk.grow_cases hgrows hstep with rfl | ⟨n, size, k₁, r, hpos, hwrap, hs, hcase⟩
  · exact ⟨h, hbreak, hstacked, .refl _⟩
  · have horder := (h.ksbrk n hpos hs).toTableOrder
    have hok := (ksbrk_grown n hbreak hpos hwrap hs).1.ok
    obtain ⟨hadded, hstacked₁⟩ := h.tablesAdded n hbreak hstacked hpos hwrap hs
    rcases hcase with rfl | rfl
    · exact ⟨horder, hok, hstacked₁, hadded⟩
    · have hbounds := bounds_withTail k₁ r size
      have hcurr := congrArg BitVec.toNat (Heap.bounds_eq_iff.mp hbounds).2.2.1
      have htail : TablesAdded k₁ (k₁.withTail r size) := .of_dirs rfl rfl rfl hcurr.symm.le
      exact ⟨horder.withTail r _, hok.of_bounds hbounds,
        hstacked₁.of_dirs rfl rfl hcurr.symm.le (horder.withTail r _).curr_le,
        hadded.trans htail horder.curr_le⟩

/-- After boot the tables are in the kernel's 4 MB. -/
theorem stacked_kheapInit {k₀ : Kernel} (hbooted : Booted k₀ k)
    (hfits : BootFits k₀.vmm.pmm.bitmapEnd) : Stacked k.kheapInit := by
  refine ⟨hbooted.tablesDistinct hfits.room, fun i hi => ?_⟩
  obtain ⟨t, ht, -, htable⟩ := hbooted.exists_bootTable hi
  have hval := bootTable_toNat hfits.room ht
  show ((k.vmm.dirs k.vmm.kernelPageDir).refTables i).toNat < (tableIn kheapStart).toNat
  have hplace : (tableIn kheapStart).toNat = 0xC0401000 := by decide
  have hbound : bootDir k₀.vmm.pmm.bitmapEnd + 0x6000 ≤ 0xC0400000 := hfits
  rw [htable, hval, hplace]
  omega

end Kernel

end PiggyOS
