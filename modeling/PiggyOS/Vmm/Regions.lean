import PiggyOS.Vmm.Pages

/-!
# The pages of a region (`allocate_region`, `free_region`)

The loops of `allocate_region` and `free_region` make a call for the page of the first address, the
page of the last one and all pages between, in this order. They do not come back when the last page
of the address space is the last one, since the address after it is 0 again.

* `regionLoop_eq_foldlM` — the loop is the calls for the pages of the region
* `regionLoop_eq_none` — or it goes on for ever
* `regions_end_iff` — for the two functions
* `Vmm.freesPages_iff` — the last argument of `free_region`
-/

namespace PiggyOS

open Infra

/-- The first `n` pages from `va` on. -/
def pagesFrom : Nat → U32 → List U32
  | 0, _ => []
  | n + 1, va => va :: pagesFrom n (va + pageSize)

/-- The pages that `allocate_region` goes through, before it starts again from 0 if it does. -/
def regionPages (startVa endVa : U32) : List U32 :=
  pagesFrom (((endVa &&& 0xfffff000).toNat + 4096 - (startVa &&& 0xfffff000).toNat) / 4096)
    (startVa &&& 0xfffff000)

/-- The last page is not the last one of the address space. -/
def regionEnds (endVa : U32) : Bool := endVa &&& 0xfffff000 ≠ 0xfffff000

/-- `start = start_va & 0xfffff000; end = end_va & 0xfffff000;
while (start <= end) { f(start); start = start + PAGE_SIZE; }`, for `n` tests at most. -/
def regionLoop {σ : Type} (f : σ → U32 → Option σ) (startVa endVa : U32) (n : Nat) (s : σ) :
    Option σ :=
  (loop (fun s : σ × U32 => s.2 ≤ endVa &&& 0xfffff000)
    (fun s => (f s.1 s.2).map (·, s.2 + pageSize)) n (s, startVa &&& 0xfffff000)).map (·.1)

/-- `free_region`; the blocks are freed whatever the last argument says. -/
def Vmm.freeRegion (v : Vmm) (dir startVa endVa : U32) (_free : Bool) : Option Vmm :=
  (loop (fun s : Vmm × U32 => s.2 ≤ endVa &&& 0xfffff000)
    (fun s => some (s.1.freePage dir s.2 true, s.2 + pageSize))
    (Kernel.pageCount + 1) (v, startVa &&& 0xfffff000)).map (·.1)

section

variable {n : Nat} {va start startVa endVa : U32}

theorem mem_pagesFrom (hstart : start.toNat % 4096 = 0) (hfits : start.toNat + 4096 * n ≤ 2 ^ 32) :
    va ∈ pagesFrom n start ↔
      va.toNat % 4096 = 0 ∧ start.toNat ≤ va.toNat ∧ va.toNat < start.toNat + 4096 * n := by
  induction n generalizing start with
  | zero =>
    rw [pagesFrom]
    refine iff_of_false List.not_mem_nil ?_
    omega
  | succ n ih =>
    rw [pagesFrom, List.mem_cons]
    by_cases hva : va = start
    · subst hva
      refine iff_of_true (Or.inl rfl) ?_
      omega
    · have hne : va.toNat ≠ start.toNat := fun h => hva (BitVec.eq_of_toNat_eq h)
      rw [or_iff_right hva]
      by_cases hn : n = 0
      · subst hn
        refine iff_of_false List.not_mem_nil ?_
        omega
      · have hlt : start.toNat + 4096 < 2 ^ 32 := by omega
        have hnext := toNat_add_pageSize hlt
        rw [ih (by rw [hnext]; omega) (by rw [hnext]; omega), hnext]
        omega

theorem mem_regionPages : va ∈ regionPages startVa endVa ↔
    va.toNat % 4096 = 0 ∧ (startVa &&& 0xfffff000).toNat ≤ va.toNat ∧
      va.toNat ≤ (endVa &&& 0xfffff000).toNat := by
  have hs := toNat_and_pageMask_mod startVa
  have he := toNat_and_pageMask_mod endVa
  have hlt := (endVa &&& 0xfffff000).isLt
  unfold regionPages
  by_cases hle : (startVa &&& 0xfffff000).toNat ≤ (endVa &&& 0xfffff000).toNat
  · rw [mem_pagesFrom hs (by omega)]
    omega
  · have hcount :
        ((endVa &&& 0xfffff000).toNat + 4096 - (startVa &&& 0xfffff000).toNat) / 4096 = 0 := by
      omega
    rw [hcount]
    refine iff_of_false List.not_mem_nil ?_
    omega

theorem nodup_pagesFrom (hstart : start.toNat % 4096 = 0)
    (hfits : start.toNat + 4096 * n ≤ 2 ^ 32) : (pagesFrom n start).Nodup := by
  induction n generalizing start with
  | zero => exact List.nodup_nil
  | succ n ih =>
    rw [pagesFrom, List.nodup_cons]
    by_cases hn : n = 0
    · subst hn
      exact ⟨List.not_mem_nil, List.nodup_nil⟩
    · have hnext := toNat_add_pageSize (show start.toNat + 4096 < 2 ^ 32 by omega)
      have hfits' : (start + pageSize).toNat + 4096 * n ≤ 2 ^ 32 := by omega
      have hstart' : (start + pageSize).toNat % 4096 = 0 := by omega
      refine ⟨fun hmem => ?_, ih hstart' hfits'⟩
      have hle := ((mem_pagesFrom hstart' hfits').mp hmem).2.1
      omega

theorem length_pagesFrom : (pagesFrom n va).length = n := by
  induction n generalizing va with
  | zero => rfl
  | succ n ih => exact congrArg (· + 1) ih

theorem length_regionPages_le (startVa endVa : U32) :
    (regionPages startVa endVa).length ≤ 2 ^ 20 := by
  have he := toNat_and_pageMask_mod endVa
  have hlt := (endVa &&& 0xfffff000).isLt
  rw [regionPages, length_pagesFrom]
  omega

theorem nodup_regionPages (startVa endVa : U32) : (regionPages startVa endVa).Nodup := by
  have hs := toNat_and_pageMask_mod startVa
  have hlt := (endVa &&& 0xfffff000).isLt
  have he := toNat_and_pageMask_mod endVa
  exact nodup_pagesFrom hs (by omega)

/-! ## The loop -/

variable {σ : Type} {f : σ → U32 → Option σ} {s : σ}

/-- A loop over the pages up to `last` makes the call for each of them. -/
theorem loop_eq_foldlM {last : U32} {fuel : Nat} (hlast : last.toNat % 4096 = 0)
    (hbound : last.toNat < 0xfffff000) (hva : va.toNat % 4096 = 0)
    (hn : (last.toNat + 4096 - va.toNat) / 4096 = n) (hfuel : n < fuel) :
    (loop (fun s : σ × U32 => s.2 ≤ last)
      (fun s => (f s.1 s.2).map (·, s.2 + pageSize)) fuel (s, va)).map (·.1) =
      (pagesFrom n va).foldlM f s := by
  induction n generalizing s va fuel with
  | zero =>
    obtain ⟨fuel, rfl⟩ := Nat.exists_eq_add_of_le' hfuel
    have hout : ¬ va ≤ last := by
      rw [BitVec.le_def]
      omega
    rw [loop, if_neg (by simpa using hout)]
    rfl
  | succ n ih =>
    obtain ⟨fuel, rfl⟩ := Nat.exists_eq_add_of_le' (Nat.zero_lt_of_lt hfuel)
    have hin : va ≤ last := by
      rw [BitVec.le_def]
      omega
    have hnext : (va + pageSize).toNat = va.toNat + 4096 :=
      toNat_add_pageSize (by rw [BitVec.le_def] at hin; omega)
    rw [loop, if_pos (by simpa using hin), pagesFrom, List.foldlM_cons]
    cases hf : f s va with
    | none => rfl
    | some s' =>
      have hva' : (va + pageSize).toNat % 4096 = 0 := by omega
      have hn' : (last.toNat + 4096 - (va + pageSize).toNat) / 4096 = n := by omega
      exact ih hva' hn' (Nat.lt_of_succ_lt_succ hfuel)

/-- **The loop over a region that ends is the calls for its pages.** -/
theorem regionLoop_eq_foldlM (hend : regionEnds endVa = true) (hn : Kernel.pageCount < n) :
    regionLoop f startVa endVa n s = (regionPages startVa endVa).foldlM f s := by
  have hs := toNat_and_pageMask_mod startVa
  have he := toNat_and_pageMask_mod endVa
  have hne : (endVa &&& 0xfffff000).toNat ≠ 0xfffff000 := by
    intro h
    exact of_decide_eq_true hend (BitVec.eq_of_toNat_eq h)
  have hlt := (endVa &&& 0xfffff000).isLt
  have hcount : Kernel.pageCount = 1048576 := rfl
  exact loop_eq_foldlM he (by omega) hs rfl (by omega)

/-- **The loop over a region with the last page is not over after any number of steps.** -/
theorem regionLoop_eq_none (hend : regionEnds endVa = false) (n : Nat) :
    regionLoop f startVa endVa n s = none := by
  have hlast : endVa &&& 0xfffff000 = 0xfffff000 := not_not.mp (of_decide_eq_false hend)
  unfold regionLoop
  rw [hlast, loop_eq_none (fun s => s.2.toNat % 4096 = 0)]
  · rfl
  · rintro ⟨s₁, va⟩ hva
    dsimp only at hva
    have hlt := va.isLt
    constructor
    · rw [decide_eq_true_iff, BitVec.le_def]
      show va.toNat ≤ 0xfffff000
      omega
    · rintro s' hs'
      obtain ⟨s₂, -, rfl⟩ := Option.map_eq_some_iff.mp hs'
      show (va + pageSize).toNat % 4096 = 0
      rw [BitVec.toNat_add, pageSize_toNat]
      omega
  · exact toNat_and_pageMask_mod startVa

end

namespace Kernel

variable {kmallocA : TableSource} {k : Kernel} {dir startVa endVa : U32}
  {idenMap isKernel isWritable : Bool}

theorem allocateRegion_eq_regionLoop :
    k.allocateRegion kmallocA dir startVa endVa idenMap isKernel isWritable =
      regionLoop (fun (k : Kernel) va => k.allocatePage kmallocA dir va
        (if idenMap then va / pageSize else 0) isKernel isWritable) startVa endVa
        (pageCount + 1) k := rfl

theorem allocateRegion_eq_foldlM (hend : regionEnds endVa = true) :
    k.allocateRegion kmallocA dir startVa endVa idenMap isKernel isWritable =
      (regionPages startVa endVa).foldlM (fun k va => k.allocatePage kmallocA dir va
        (if idenMap then va / pageSize else 0) isKernel isWritable) k :=
  allocateRegion_eq_regionLoop.trans (regionLoop_eq_foldlM hend (Nat.lt_succ_self _))

theorem allocateRegion_eq_none (hend : regionEnds endVa = false) :
    k.allocateRegion kmallocA dir startVa endVa idenMap isKernel isWritable = none :=
  allocateRegion_eq_regionLoop.trans (regionLoop_eq_none hend _)

end Kernel

namespace Vmm

variable {v : Vmm} {dir startVa endVa : U32}

theorem freeRegion_eq_regionLoop (free : Bool) : v.freeRegion dir startVa endVa free =
    regionLoop (fun (v : Vmm) va => some (v.freePage dir va true)) startVa endVa
      (Kernel.pageCount + 1) v := rfl

theorem freeRegion_eq_foldl (hend : regionEnds endVa = true) (free : Bool) :
    v.freeRegion dir startVa endVa free =
      some ((regionPages startVa endVa).foldl (fun v va => v.freePage dir va true) v) := by
  rw [freeRegion_eq_regionLoop, regionLoop_eq_foldlM hend (Nat.lt_succ_self _)]
  exact List.foldlM_pure

theorem freeRegion_eq_none (hend : regionEnds endVa = false) (free : Bool) :
    v.freeRegion dir startVa endVa free = none :=
  (freeRegion_eq_regionLoop free).trans (regionLoop_eq_none hend _)

end Vmm

/-- **The region loops make the call for each page of the region once, unless the last page of the
region is the last one of the address space.** -/
theorem regions_end_iff (startVa endVa : U32) :
    (regionPages startVa endVa).Nodup ∧
    (∀ va, va ∈ regionPages startVa endVa ↔ va.toNat % 4096 = 0 ∧
      startVa.toNat / 4096 ≤ va.toNat / 4096 ∧ va.toNat / 4096 ≤ endVa.toNat / 4096) ∧
    (∀ (kmallocA : TableSource) (k k' : Kernel) (dir : U32) (idenMap isKernel isWritable : Bool),
      (regionPages startVa endVa).foldlM (fun k va => k.allocatePage kmallocA dir va
        (if idenMap then va / pageSize else 0) isKernel isWritable) k = some k' →
      (k.allocateRegion kmallocA dir startVa endVa idenMap isKernel isWritable = some k' ↔
        regionEnds endVa = true)) ∧
    ∀ (v : Vmm) (dir : U32) (free : Bool), v.freeRegion dir startVa endVa free =
      some ((regionPages startVa endVa).foldl (fun v va => v.freePage dir va true) v) ↔
        regionEnds endVa = true := by
  refine ⟨nodup_regionPages startVa endVa, fun va => ?_,
    fun kmallocA k k' dir idenMap isKernel isWritable hpages => ?_, fun v dir free => ?_⟩
  · rw [mem_regionPages, toNat_and_pageMask, toNat_and_pageMask]
    omega
  · cases hend : regionEnds endVa with
    | true => exact iff_of_true ((Kernel.allocateRegion_eq_foldlM hend).trans hpages) rfl
    | false =>
      rw [Kernel.allocateRegion_eq_none hend]
      simp
  · cases hend : regionEnds endVa with
    | true => exact iff_of_true (Vmm.freeRegion_eq_foldl hend free) rfl
    | false =>
      rw [Vmm.freeRegion_eq_none hend]
      simp

/-- Two pages, to begin with. -/
theorem regions_end_two :
    (∃ k', Kernel.bare.allocateRegion (fun k _ => some (k, 0)) 0x9000 0x1234 0x2fff true true true
      = some k') ∧
    Kernel.bare.vmm.freeRegion 0x9000 0x1234 0x2fff true =
      some ((regionPages 0x1234 0x2fff).foldl (fun v va => v.freePage 0x9000 va true)
        Kernel.bare.vmm) := by
  obtain ⟨-, -, hallocate, hfree⟩ := regions_end_iff 0x1234 0x2fff
  exact ⟨⟨_, (hallocate (fun k _ => some (k, 0)) Kernel.bare _ 0x9000 true true true rfl).mpr
    (by decide)⟩, (hfree Kernel.bare.vmm 0x9000 true).mpr (by decide)⟩

/-- The last two pages of the address space, for any number of steps. -/
theorem not_regions_end :
    (¬ ∃ n k', regionLoop (fun (k : Kernel) va => k.allocatePage (fun k _ => some (k, 0)) 0x9000 va
      0 true true) 0xffffe000 0xffffffff n Kernel.bare = some k') ∧
    ¬ ∃ n v', regionLoop (fun (v : Vmm) va => some (v.freePage 0x9000 va true)) 0xffffe000
      0xffffffff n Kernel.bare.vmm = some v' := by
  have hend : regionEnds 0xffffffff = false := by decide
  constructor
  · rintro ⟨n, k', h⟩
    rw [regionLoop_eq_none hend n] at h
    cases h
  · rintro ⟨n, v', h⟩
    rw [regionLoop_eq_none hend n] at h
    cases h

/-! ## The last argument of `free_region` -/

/-- `free_region` is `free_page` for the pages of the region, one after the other, with the same
last argument; with 0 the memory manager stays as it is. -/
def Vmm.FreesPages (v : Vmm) (dir startVa endVa : U32) (free : Bool) : Prop :=
  ∃ v', v.freeRegion dir startVa endVa free = some v' ∧
    v' = (regionPages startVa endVa).foldl (fun v va => v.freePage dir va free) v ∧
    (free = false → v'.pmm = v.pmm)

namespace Vmm

variable {v : Vmm} {dir startVa endVa : U32} {pages : List U32}

theorem foldl_freePage_of_not_mapped (h : ∀ va ∈ pages, ¬ v.Mapped dir va) (free : Bool) :
    pages.foldl (fun v va => v.freePage dir va free) v = v := by
  induction pages with
  | nil => rfl
  | cons va pages ih =>
    obtain ⟨hva, hpages⟩ := List.forall_mem_cons.mp h
    rw [List.foldl_cons, freePage_of_not_mapped hva]
    exact ih hpages

/-- Each page that is mapped when its turn comes takes one off the counter. -/
theorem usedBlocks_foldl_freePage (hdir : dir ≠ bootPageDir) : ∃ n ≤ pages.length,
    (pages.foldl (fun v va => v.freePage dir va true) v).pmm.usedBlocks =
      v.pmm.usedBlocks - BitVec.ofNat 32 n ∧
    (n = 0 → ∀ va ∈ pages, ¬ v.Mapped dir va) := by
  induction pages generalizing v with
  | nil => exact ⟨0, Nat.le_refl 0, by simp, fun _ _ h => absurd h List.not_mem_nil⟩
  | cons va pages ih =>
    rw [List.foldl_cons]
    obtain ⟨n, hle, hused, hzero⟩ := ih (v := v.freePage dir va true)
    by_cases hva : v.Mapped dir va
    · refine ⟨n + 1, Nat.succ_le_succ hle, ?_, fun h => absurd h (Nat.succ_ne_zero n)⟩
      have hstep : (v.freePage dir va true).pmm.usedBlocks = v.pmm.usedBlocks - 1 := by
        rw [freePage_of_mapped hdir hva]
        rfl
      rw [hused, hstep, Nat.add_comm, BitVec.ofNat_add, BitVec.sub_sub]
      rfl
    · rw [freePage_of_not_mapped hva] at hused hzero ⊢
      refine ⟨n, Nat.le_succ_of_le hle, hused, fun h => ?_⟩
      exact List.forall_mem_cons.mpr ⟨hva, hzero h⟩

/-- **`free_region` agrees with `free_page` exactly if the blocks are to be freed or none of the
pages is mapped.** -/
theorem freesPages_iff (hdir : dir ≠ bootPageDir) (hend : endVa.toNat < 0xfffff000) (free : Bool) :
    v.FreesPages dir startVa endVa free ↔
      free = true ∨ ∀ va ∈ regionPages startVa endVa, ¬ v.Mapped dir va := by
  have hends : regionEnds endVa = true := by
    refine decide_eq_true fun hlast => ?_
    have hmask := toNat_and_pageMask endVa
    rw [hlast] at hmask
    have hmask : 0xfffff000 = endVa.toNat / 4096 * 4096 := hmask
    omega
  have hregion : v.freeRegion dir startVa endVa free =
      some ((regionPages startVa endVa).foldl (fun v va => v.freePage dir va true) v) :=
    freeRegion_eq_foldl hends free
  cases free with
  | true => exact iff_of_true ⟨_, hregion, rfl, fun h => nomatch h⟩ (Or.inl rfl)
  | false =>
    rw [or_iff_right Bool.false_ne_true]
    constructor
    · rintro ⟨v', hv', -, hpmm⟩
      obtain ⟨n, hle, hused, hzero⟩ :=
        @usedBlocks_foldl_freePage v dir (regionPages startVa endVa) hdir
      have hlen := length_regionPages_le startVa endVa
      rw [hregion] at hv'
      have hsame := hpmm rfl
      rw [← Option.some.inj hv'] at hsame
      rw [hsame] at hused
      -- a counter that is back where it was has not been changed
      refine hzero ?_
      have hn : (BitVec.ofNat 32 n).toNat = n := by
        rw [BitVec.toNat_ofNat, Nat.mod_eq_of_lt (by omega)]
      bv_omega
    · intro hpages
      refine ⟨v, ?_, (foldl_freePage_of_not_mapped hpages false).symm, fun _ => rfl⟩
      rw [hregion, foldl_freePage_of_not_mapped hpages true]

/-- The page at `0x1000` is mapped to the block 1, which is the only one in use. -/
def onePage : Vmm :=
  { Kernel.bare.vmm with
    pmm := ⟨64, 1, 0, 8, fun i => if i = 0 then 2 else 0⟩
    dirs := fun _ => ⟨zeroDirectory.tables, fun i => if i.val = 0 then 0x5000 else 0⟩
    tabs := fun _ i => ⟨i.val = 1, true, false, false, false, if i.val = 1 then 1 else 0⟩ }

theorem freesPages_onePage : onePage.FreesPages 0x9000 0x1000 0x2fff true :=
  (freesPages_iff (by decide) (by simp) true).mpr (Or.inl rfl)

/-- The block is freed although it was to be kept. -/
theorem not_freesPages_onePage : (0x9000 : U32) ≠ bootPageDir ∧ ¬ onePage.FreesPages 0x9000 0x1000
    0x2fff false := by
  refine ⟨by decide, ?_⟩
  rintro ⟨v', hv', -, hpmm⟩
  rw [freeRegion_eq_foldl (by decide)] at hv'
  have hused := congrArg Pmm.usedBlocks (hpmm rfl)
  rw [← Option.some.inj hv'] at hused
  exact absurd hused (by decide)

end Vmm

end PiggyOS
