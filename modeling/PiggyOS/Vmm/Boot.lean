import PiggyOS.Pmm.Alloc
import PiggyOS.Vmm.Pages

/-!
# The kernel's address space at boot (`vmm_init`)

`vmm_init` fills 3089 page-table entries one after the other: 3072 for the kernel and the
initial heap from `KERN_BASE` on, then 17 for the identity map of low memory. Counted in that
order, entry `s` is entry `s % 1024` of table `s / 1024`: each of the four tables is taken from
`dumb_kmalloc` when its first entry is filled, and 3072 is a whole number of tables.

* `BootTables` — the state in the middle of it, with `m` tables made and `n` entries filled
* `BootTables.install`, `BootTables.fill` — the two steps
* `vmmInit_spec` — what `vmm_init` leaves behind
* `linear_kernel_map` — with a fresh memory manager the kernel's addresses are mapped linearly
-/

namespace PiggyOS

open Infra

/-! ## The layout -/

/-- The end of the bitmap, from which `dumb_kmalloc` hands out memory. -/
def Pmm.bitmapEnd (p : Pmm) : Nat := p.pmmBitmap.toNat + p.pmmBitmapSize.toNat

/-- The address of the kernel's page directory, when the bitmap ends at `e`. -/
def bootDir (e : Nat) : Nat := (e / 4096 + 1) * 4096

/-- The directory and four tables fit above a bitmap that ends at `e`. -/
def BootRoom (e : Nat) : Prop := bootDir e + 0x6000 ≤ 2 ^ 32

/-- They fit in the first 4 MB, which is all that the boot code has mapped. -/
def BootFits (e : Nat) : Prop := bootDir e + 0x6000 ≤ 0xC0400000

theorem BootFits.room {e : Nat} (h : BootFits e) : BootRoom e :=
  Nat.le_trans h (by decide)

/-- The address of table `t`. -/
def bootTable (e t : Nat) : U32 := BitVec.ofNat 32 (bootDir e + 8192 + 4096 * t)

/-- The region of table `t` in the directory: three for the kernel, then the first one. -/
def bootRegion (t : Nat) : Fin 1024 := Fin.ofNat 1024 (if t < 3 then 768 + t else 0)

/-- The page that entry `s` maps. -/
def bootPage (s : Nat) : Nat := if s < 3072 then 0xC0000000 + 4096 * s else 4096 * (s - 3072)

/-- Entry `s`. -/
def Vmm.bootEntry (v : Vmm) (e s : Nat) : Page := v.tabs (bootTable e (s / 1024)) (Fin.ofNat 1024 s)

section Layout

variable {e s t t' : Nat}

theorem bootDir_toNat (hroom : BootRoom e) :
    (BitVec.ofNat 32 (bootDir e)).toNat = bootDir e := by
  unfold BootRoom at hroom
  rw [BitVec.toNat_ofNat, Nat.mod_eq_of_lt (by omega)]

theorem bootDir_ne_zero (hroom : BootRoom e) : BitVec.ofNat 32 (bootDir e) ≠ 0 := by
  intro hc
  have hd : bootDir e = (e / 4096 + 1) * 4096 := rfl
  have := bootDir_toNat hroom
  rw [hc, show (0 : U32).toNat = 0 from rfl] at this
  omega

theorem bootTable_toNat (hroom : BootRoom e) (ht : t < 4) :
    (bootTable e t).toNat = bootDir e + 8192 + 4096 * t := by
  unfold BootRoom at hroom
  rw [bootTable, BitVec.toNat_ofNat, Nat.mod_eq_of_lt (by omega)]

theorem bootTable_ne_zero (hroom : BootRoom e) (ht : t < 4) : bootTable e t ≠ 0 := by
  intro hc
  have := bootTable_toNat hroom ht
  rw [hc, show (0 : U32).toNat = 0 from rfl] at this
  omega

theorem bootTable_inj (hroom : BootRoom e) (ht : t < 4) (ht' : t' < 4)
    (h : bootTable e t = bootTable e t') : t = t' := by
  have := congrArg BitVec.toNat h
  rw [bootTable_toNat hroom ht, bootTable_toNat hroom ht'] at this
  omega

theorem bootRegion_val : (bootRegion t).val = if t < 3 then 768 + t else 0 := by
  unfold bootRegion
  rw [Fin.val_ofNat]
  split <;> omega

theorem bootRegion_inj (ht : t < 4) (ht' : t' < 4) (h : bootRegion t = bootRegion t') : t = t' := by
  have := congrArg Fin.val h
  rw [bootRegion_val, bootRegion_val] at this
  split at this <;> split at this <;> omega

/-- The kernel and the initial heap are the first 3072 pages. -/
theorem bootPage_of_kernel {va : U32} (hlo : 0xC0000000 ≤ va.toNat) (hhi : va.toNat < 0xC0C00000) :
    (va.toNat - 0xC0000000) / 4096 < 3072 ∧
      va.toNat / 4096 = bootPage ((va.toNat - 0xC0000000) / 4096) / 4096 := by
  have hs : (va.toNat - 0xC0000000) / 4096 < 3072 := by omega
  refine ⟨hs, ?_⟩
  rw [bootPage, if_pos hs]
  omega

theorem pagedirIndex_bootPage {va : U32} (hs : s < 4096)
    (hva : va.toNat / 4096 = bootPage s / 4096) :
    pagedirIndex va = bootRegion (s / 1024) := by
  apply Fin.ext
  rw [bootPage] at hva
  rw [pagedirIndex_val, bootRegion_val]
  split at hva <;> split <;> omega

theorem pagetblIndex_bootPage {va : U32} (hva : va.toNat / 4096 = bootPage s / 4096) :
    pagetblIndex va = Fin.ofNat 1024 s := by
  apply Fin.ext
  rw [bootPage] at hva
  rw [pagetblIndex_val, Fin.val_ofNat]
  split at hva <;> omega

end Layout

/-! ## The state in the middle of `vmm_init` -/

/-- `m` tables made and `n` entries filled, above a bitmap that ends at `e`. -/
structure BootTables (e : Nat) (v : Vmm) (m n : Nat) : Prop where
  paging : v.pagingEnabled = false
  dir : v.kernelPageDir = BitVec.ofNat 32 (bootDir e)
  temp : v.tempMem.toNat = e + 8192 + 4096 * m
  refs : ∀ t < m, (v.dirs v.kernelPageDir).refTables (bootRegion t) = bootTable e t
  rest : ∀ i, (∀ t < m, i ≠ bootRegion t) → (v.dirs v.kernelPageDir).refTables i = 0
  frames : ∀ t < m, ((v.dirs v.kernelPageDir).tables (bootRegion t)).present = true ∧
    ((v.dirs v.kernelPageDir).tables (bootRegion t)).frame =
      ((bootTable e t - kernBase) >>> 12).setWidth 20
  filled : ∀ s < n, (v.bootEntry e s).present = true
  empty : ∀ s, n ≤ s → s < 1024 * m → (v.bootEntry e s).present = false

/-- What filling entry `n` does besides: the other entries stay, and the frame is the one asked
for, or the next one of the memory manager. -/
structure BootFill (e n : Nat) (frame : U32) (v v' : Vmm) : Prop where
  old : ∀ s < n, v'.bootEntry e s = v.bootEntry e s
  given : frame ≠ 0 → v'.pmm = v.pmm ∧ (v'.bootEntry e n).frame = frame.setWidth 20
  taken : frame = 0 → v'.pmm = v.pmm.pmmAllocBlock.1 ∧
    (v'.bootEntry e n).frame = (v.pmm.pmmAllocBlock.2 / pageSize).setWidth 20

theorem BootFill.of_eq {e n : Nat} {frame : U32} {v v₁ v' : Vmm} (h : BootFill e n frame v₁ v')
    (hpmm : v₁.pmm = v.pmm) (hold : ∀ s < n, v₁.bootEntry e s = v.bootEntry e s) :
    BootFill e n frame v v' := by
  refine ⟨fun s hs => (h.old s hs).trans (hold s hs), ?_, ?_⟩
  · rw [← hpmm]
    exact h.given
  · rw [← hpmm]
    exact h.taken

namespace BootTables

variable {e m n : Nat} {v : Vmm}

/-- The next table comes from `dumb_kmalloc`, right behind the last one. -/
theorem dumbKmalloc_eq (hroom : BootRoom e) (h : BootTables e v m n) (hm : m < 4) :
    v.dumbKmalloc sizeofPageTable true =
      ({ v with tempMem := v.tempMem + sizeofPageTable }, bootTable e m) := by
  have hd : bootDir e = (e / 4096 + 1) * 4096 := rfl
  have hroom' : bootDir e + 0x6000 ≤ 2 ^ 32 := hroom
  have halign : align v.tempMem = bootTable e m := by
    apply BitVec.eq_of_toNat_eq
    rw [toNat_align (by rw [h.temp]; omega), h.temp, bootTable_toNat hroom hm]
    omega
  unfold Vmm.dumbKmalloc
  rw [isAlign_eq_false, ← halign]
  rfl

/-- Making the next table leaves the entries of the others alone. -/
theorem bootEntry_installTable (hroom : BootRoom e) (hm : m < 4) {s : Nat} (hs : s < 1024 * m)
    (v : Vmm) (isKernel isWritable : Bool) :
    (v.installTable v.kernelPageDir (bootRegion m) (bootTable e m) isKernel isWritable).bootEntry
      e s = v.bootEntry e s := by
  have hne : bootTable e (s / 1024) ≠ bootTable e m := fun hc => by
    have := bootTable_inj hroom (by omega) hm hc
    omega
  unfold Vmm.bootEntry
  rw [Vmm.tabs_installTable_of_ne _ _ _ _ _ _ hne]

/-- Making the next table. -/
theorem install (hroom : BootRoom e) (h : BootTables e v m n) (hm : m < 4) (hn : n ≤ 1024 * m)
    {v₁ : Vmm} (hpaging : v₁.pagingEnabled = v.pagingEnabled)
    (hdir : v₁.kernelPageDir = v.kernelPageDir) (hdirs : v₁.dirs = v.dirs)
    (htabs : v₁.tabs = v.tabs) (htemp : v₁.tempMem = v.tempMem + sizeofPageTable)
    (isKernel isWritable : Bool) :
    BootTables e (v₁.installTable v₁.kernelPageDir (bootRegion m) (bootTable e m) isKernel
      isWritable) (m + 1) n := by
  have hne : ∀ t < m, bootRegion t ≠ bootRegion m := fun t ht hc => by
    have := bootRegion_inj (by omega) hm hc
    omega
  -- the entries of the other tables are not touched
  have hold : ∀ s < 1024 * m, (v₁.installTable v₁.kernelPageDir (bootRegion m) (bootTable e m)
      isKernel isWritable).bootEntry e s = v.bootEntry e s := fun s hs =>
    (bootEntry_installTable hroom hm hs ..).trans (by rw [Vmm.bootEntry, htabs, Vmm.bootEntry])
  refine ⟨by simpa [hpaging] using h.paging, by simpa [hdir] using h.dir, ?_, ?_, ?_, ?_, ?_, ?_⟩
  · have hd : bootDir e = (e / 4096 + 1) * 4096 := rfl
    unfold BootRoom at hroom
    rw [Vmm.tempMem_installTable, htemp, BitVec.toNat_add, h.temp,
      show sizeofPageTable.toNat = 4096 from rfl, Nat.mod_eq_of_lt (by omega)]
    omega
  · intro t ht
    rw [Vmm.kernelPageDir_installTable, Vmm.refTables_installTable]
    rcases Nat.lt_succ_iff_lt_or_eq.mp ht with ht | rfl
    · rw [Function.update_of_ne (hne t ht), hdirs, hdir]
      exact h.refs t ht
    · exact Function.update_self ..
  · intro i hi
    rw [Vmm.kernelPageDir_installTable, Vmm.refTables_installTable,
      Function.update_of_ne (hi m (by omega)), hdirs, hdir]
    exact h.rest i fun t ht => hi t (by omega)
  · intro t ht
    rw [Vmm.kernelPageDir_installTable]
    rcases Nat.lt_succ_iff_lt_or_eq.mp ht with ht | rfl
    · rw [Vmm.tables_installTable_of_ne _ _ _ _ _ _ (hne t ht), hdirs, hdir]
      exact h.frames t ht
    · exact Vmm.tables_installTable_self _ _ _ _ _ _ (hpaging.trans h.paging)
  · intro s hs
    rw [hold s (by omega)]
    exact h.filled s hs
  · intro s hns hsm
    by_cases hs : s < 1024 * m
    · rw [hold s hs]
      exact h.empty s hns hs
    · -- the new table
      unfold Vmm.bootEntry
      rw [show s / 1024 = m by omega, Vmm.tabs_installTable_self]
      rfl

/-- Entries other than `n` are not touched when `n` is filled. -/
theorem bootEntry_fillEntry_of_ne (hroom : BootRoom e) {v : Vmm} {s n : Nat} (hs : s < 4096)
    (hn : n < 4096) (hne : s ≠ n) (frame : U32) (isKernel isWritable : Bool) :
    (v.fillEntry (bootTable e (n / 1024)) (Fin.ofNat 1024 n) frame isKernel isWritable).bootEntry
      e s = v.bootEntry e s := by
  refine Vmm.tabs_fillEntry_of_ne _ _ _ _ _ _ ?_
  rintro ⟨ht, hi⟩
  have ht := bootTable_inj hroom (by omega) (by omega) ht
  have hi := congrArg Fin.val hi
  rw [Fin.val_ofNat, Fin.val_ofNat] at hi
  omega

/-- Filling the next entry. -/
theorem fill (hroom : BootRoom e) (h : BootTables e v m n) (hm : m ≤ 4) (hn : n < 1024 * m)
    (frame : U32) (isKernel isWritable : Bool) :
    BootTables e (v.fillEntry (bootTable e (n / 1024)) (Fin.ofNat 1024 n) frame isKernel
      isWritable) m (n + 1) := by
  refine ⟨by simpa using h.paging, by simpa using h.dir, by simpa using h.temp,
    by simpa using h.refs, by simpa using h.rest, by simpa using h.frames, ?_, ?_⟩
  · intro s hs
    by_cases hsn : s = n
    · rw [hsn]
      exact Vmm.present_fillEntry _ _ _ _ _ _
    · rw [bootEntry_fillEntry_of_ne hroom (by omega) (by omega) hsn]
      exact h.filled s (by omega)
  · intro s hns hsm
    rw [bootEntry_fillEntry_of_ne hroom (by omega) (by omega) (by omega)]
    exact h.empty s (by omega) hsm

/-- The frame of the entry that is filled, and the memory manager afterwards. -/
theorem bootFill_fill (hroom : BootRoom e) (h : BootTables e v m n) (hm : m ≤ 4)
    (hn : n < 1024 * m) (frame : U32) (isKernel isWritable : Bool) :
    BootFill e n frame v (v.fillEntry (bootTable e (n / 1024)) (Fin.ofNat 1024 n) frame isKernel
      isWritable) := by
  have hold : ∀ s < n, (v.fillEntry (bootTable e (n / 1024)) (Fin.ofNat 1024 n) frame isKernel
      isWritable).bootEntry e s = v.bootEntry e s := fun s hs =>
    bootEntry_fillEntry_of_ne hroom (by omega) (by omega) (by omega) _ _ _
  have habsent : (v.tabs (bootTable e (n / 1024)) (Fin.ofNat 1024 n)).present = false :=
    h.empty n (Nat.le_refl _) hn
  rcases v.fillEntry_cases (bootTable e (n / 1024)) frame (Fin.ofNat 1024 n) isKernel isWritable
    with ⟨hp, -⟩ | ⟨-, pmm, t, hcase, he⟩
  · rw [habsent] at hp
    exact absurd hp (by decide)
  · rcases hcase with ⟨hf, rfl, rfl⟩ | ⟨rfl, rfl, rfl⟩
    · refine ⟨hold, fun _ => ?_, fun hc => absurd hc hf⟩
      rw [he]
      exact ⟨rfl, by simp [Vmm.bootEntry]⟩
    · refine ⟨hold, fun hc => absurd rfl hc, fun _ => ?_⟩
      rw [he]
      exact ⟨rfl, by simp [Vmm.bootEntry]⟩

/-- **One page of `vmm_init`.** -/
theorem allocatePage {k : Kernel} (hroom : BootRoom e)
    (h : BootTables e k.vmm ((n + 1023) / 1024) n) (hheap : k.heap.kheapEnabled = false)
    (hn : n < 4096) {va : U32} (hva : va.toNat = bootPage n) (kmallocA : TableSource) (frame : U32)
    (isKernel isWritable : Bool) :
    ∃ k', k.allocatePage kmallocA k.vmm.kernelPageDir va frame isKernel isWritable = some k' ∧
      k'.heap = k.heap ∧ BootTables e k'.vmm ((n + 1 + 1023) / 1024) (n + 1) ∧
      BootFill e n frame k.vmm k'.vmm := by
  have hdir : k.vmm.kernelPageDir ≠ 0 := by
    rw [h.dir]
    exact bootDir_ne_zero hroom
  have htable : k.vmm.tableOf k.vmm.kernelPageDir va =
      (k.vmm.dirs k.vmm.kernelPageDir).refTables (bootRegion (n / 1024)) := by
    rw [Vmm.tableOf, pagedirIndex_bootPage hn (by rw [hva])]
  replace hva : va.toNat / 4096 = bootPage n / 4096 := by rw [hva]
  unfold Kernel.allocatePage
  rw [if_neg hdir, htable, pagedirIndex_bootPage hn hva, pagetblIndex_bootPage hva]
  by_cases hfirst : n % 1024 = 0
  · -- the first entry of a table, which has to be made
    have hm : (n + 1023) / 1024 = n / 1024 := by omega
    rw [hm] at h
    have hnone : (k.vmm.dirs k.vmm.kernelPageDir).refTables (bootRegion (n / 1024)) = 0 :=
      h.rest _ fun t ht hc => by
        have := bootRegion_inj (by omega) (by omega) hc
        omega
    have hnew : k.newTable kmallocA =
        some ({ k with vmm := { k.vmm with tempMem := k.vmm.tempMem + sizeofPageTable } },
          bootTable e (n / 1024)) := by
      rw [Kernel.newTable_of_disabled hheap, h.dumbKmalloc_eq hroom (by omega)]
    rw [if_pos hnone, hnew, Option.map_some]
    generalize hv₁ : ({ k.vmm with tempMem := k.vmm.tempMem + sizeofPageTable } : Vmm) = v₁
    have hdir₁ : v₁.kernelPageDir = k.vmm.kernelPageDir := by rw [← hv₁]
    have htabs₁ : v₁.tabs = k.vmm.tabs := by rw [← hv₁]
    have hinst := h.install hroom (by omega) (by omega) (by rw [← hv₁]) hdir₁ (by rw [← hv₁])
      htabs₁ (by rw [← hv₁]) isKernel isWritable
    rw [hdir₁] at hinst
    refine ⟨_, rfl, rfl, ?_, ?_⟩
    · rw [show (n + 1 + 1023) / 1024 = n / 1024 + 1 by omega]
      exact hinst.fill hroom (by omega) (by omega) frame isKernel isWritable
    · refine (hinst.bootFill_fill hroom (by omega) (by omega) frame isKernel isWritable).of_eq
        (by rw [Vmm.pmm_installTable, ← hv₁]) fun s hs => ?_
      rw [← hdir₁, bootEntry_installTable hroom (by omega) (by omega), Vmm.bootEntry, htabs₁,
        Vmm.bootEntry]
  · -- the table is there since its first entry
    have hm : (n + 1023) / 1024 = n / 1024 + 1 := by omega
    rw [hm] at h
    have hsome := h.refs (n / 1024) (by omega)
    rw [hsome, if_neg (bootTable_ne_zero hroom (by omega))]
    refine ⟨_, rfl, rfl, ?_, ?_⟩
    · rw [show (n + 1 + 1023) / 1024 = n / 1024 + 1 by omega]
      exact h.fill hroom (by omega) (by omega) frame isKernel isWritable
    · exact h.bootFill_fill hroom (by omega) (by omega) frame isKernel isWritable

end BootTables

/-! ## Frames in order -/

/-- The `n` entries filled so far have the frames `0, 1, …`, and these are the blocks handed
out. -/
structure BootFrames (e : Nat) (v : Vmm) (n : Nat) : Prop where
  used : v.pmm.PrefixUsed n
  frame : ∀ s < n, (v.bootEntry e s).frame = BitVec.ofNat 20 s

theorem frame_of_block (n : Nat) :
    (BitVec.ofNat 32 n * pageSize / pageSize).setWidth 20 = BitVec.ofNat 20 n := by
  apply BitVec.eq_of_toNat_eq
  rw [BitVec.toNat_setWidth, BitVec.toNat_udiv, BitVec.toNat_mul, BitVec.toNat_ofNat,
    BitVec.toNat_ofNat, pageSize_toNat]
  omega

theorem BootFrames.step {e n : Nat} {v v' : Vmm} (h : BootFrames e v n) (hn : n < v.pmm.scanned)
    (hfill : BootFill e n 0 v v') : BootFrames e v' (n + 1) := by
  obtain ⟨hpmm, hframe⟩ := hfill.taken rfl
  obtain ⟨halloc, hused⟩ := h.used.alloc hn
  rw [halloc] at hpmm hframe
  refine ⟨by rw [hpmm]; exact hused, fun s hs => ?_⟩
  rcases Nat.lt_succ_iff_lt_or_eq.mp hs with hs | rfl
  · rw [hfill.old s hs]
    exact h.frame s hs
  · rw [hframe]
    exact frame_of_block _

/-! ## `vmm_init` -/

namespace Kernel

/-- `vmm_init`, called in `k₀`, has filled the first `n` entries. -/
structure Booting (k₀ k : Kernel) (n : Nat) : Prop where
  heap : k.heap = k₀.heap
  maxBlocks : k.vmm.pmm.maxBlocks = k₀.vmm.pmm.maxBlocks
  tables : BootTables k₀.vmm.pmm.bitmapEnd k.vmm ((n + 1023) / 1024) n
  frames : k₀.vmm.pmm.PrefixUsed 0 → n ≤ k₀.vmm.pmm.scanned →
    BootFrames k₀.vmm.pmm.bitmapEnd k.vmm n

variable {kmallocA : TableSource} {k₀ k k' : Kernel} {n : Nat}

/-- The directory is placed at the first page boundary behind the bitmap. -/
theorem booting_newKernelPageDir (hpaging : k₀.vmm.pagingEnabled = false)
    (hroom : BootRoom k₀.vmm.pmm.bitmapEnd) : Booting k₀ k₀.newKernelPageDir 0 := by
  have hd : bootDir k₀.vmm.pmm.bitmapEnd = (k₀.vmm.pmm.bitmapEnd / 4096 + 1) * 4096 := rfl
  have hroom' : bootDir k₀.vmm.pmm.bitmapEnd + 0x6000 ≤ 2 ^ 32 := hroom
  have hend : (k₀.vmm.pmm.pmmBitmap + k₀.vmm.pmm.pmmBitmapSize).toNat = k₀.vmm.pmm.bitmapEnd := by
    rw [BitVec.toNat_add]
    exact Nat.mod_eq_of_lt (by unfold Pmm.bitmapEnd at hd hroom'; omega)
  have hnew : k₀.newKernelPageDir = { k₀ with
      vmm := { k₀.vmm with
        tempMem := k₀.vmm.pmm.pmmBitmap + k₀.vmm.pmm.pmmBitmapSize + sizeofPageDirectory
        kernelPageDir := BitVec.ofNat 32 (bootDir k₀.vmm.pmm.bitmapEnd)
        dirs := Function.update k₀.vmm.dirs (BitVec.ofNat 32 (bootDir k₀.vmm.pmm.bitmapEnd))
          zeroDirectory } } := by
    have halign : align (k₀.vmm.pmm.pmmBitmap + k₀.vmm.pmm.pmmBitmapSize) =
        BitVec.ofNat 32 (bootDir k₀.vmm.pmm.bitmapEnd) := by
      apply BitVec.eq_of_toNat_eq
      rw [toNat_align (by omega), hend, bootDir_toNat hroom]
      omega
    unfold newKernelPageDir Vmm.dumbKmalloc
    simp only [isAlign_eq_false, Bool.not_false, Bool.and_self, if_true, halign]
  rw [hnew]
  refine ⟨rfl, rfl, ⟨hpaging, rfl, ?_, ?_, ?_, ?_, ?_, ?_⟩, fun hfresh _ => ⟨hfresh, ?_⟩⟩
  · show (k₀.vmm.pmm.pmmBitmap + k₀.vmm.pmm.pmmBitmapSize + sizeofPageDirectory).toNat = _
    rw [BitVec.toNat_add, hend, show sizeofPageDirectory.toNat = 8192 from rfl,
      Nat.mod_eq_of_lt (by omega)]
  · exact fun t ht => absurd ht (Nat.not_lt_zero _)
  · intro i _
    dsimp only
    rw [Function.update_self]
    rfl
  · exact fun t ht => absurd ht (Nat.not_lt_zero _)
  · exact fun t ht => absurd ht (Nat.not_lt_zero _)
  · exact fun t _ ht => absurd ht (Nat.not_lt_zero _)
  · exact fun t ht => absurd ht (Nat.not_lt_zero _)

/-- One page of the first two loops. -/
theorem Booting.step (hheap : k₀.heap.kheapEnabled = false)
    (hroom : BootRoom k₀.vmm.pmm.bitmapEnd) (h : Booting k₀ k n) (hn : n < 3072) {va : U32}
    (hva : va.toNat = 0xC0000000 + 4096 * n) (isWritable : Bool) :
    ∃ k', k.allocatePage kmallocA k.vmm.kernelPageDir va 0 true isWritable = some k' ∧
      Booting k₀ k' (n + 1) := by
  obtain ⟨k', hk, hk'heap, htables, hfill⟩ := h.tables.allocatePage hroom
    (by rw [h.heap]; exact hheap) (by omega) (by rw [hva, bootPage, if_pos hn]) kmallocA 0 true
    isWritable
  have hmax : k'.vmm.pmm.maxBlocks = k₀.vmm.pmm.maxBlocks := by
    rw [(hfill.taken rfl).1, Pmm.maxBlocks_pmmAllocBlock, h.maxBlocks]
  refine ⟨k', hk, hk'heap.trans h.heap, hmax, htables, fun hfresh hle => ?_⟩
  refine (h.frames hfresh (by omega)).step ?_ hfill
  rw [Pmm.scanned_congr h.maxBlocks]
  exact hle

/-- A loop of `vmm_init` over the kernel pages from `a` to `b`. -/
theorem Booting.allocatePages (hheap : k₀.heap.kheapEnabled = false)
    (hroom : BootRoom k₀.vmm.pmm.bitmapEnd) {a b : Nat} {start bound : U32}
    (h : Booting k₀ k a) (hstart : start.toNat = 0xC0000000 + 4096 * a)
    (hbound : bound.toNat = 0xC0000000 + 4096 * b) (hab : a ≤ b) (hb : b ≤ 3072)
    (kmallocA : TableSource) (isWritable : Bool) :
    ∃ k' runner, k.allocatePages kmallocA isWritable bound start = some (k', runner) ∧
      Booting k₀ k' b := by
  have hpage : ∀ (k₁ : Kernel) (i : U32), i.toNat % 4096 = 0 → start.toNat ≤ i.toNat →
      i.toNat < bound.toNat → Booting k₀ k₁ ((i.toNat - 0xC0000000) / 4096) → ∃ k₂,
      k₁.allocatePage kmallocA k₁.vmm.kernelPageDir i 0 true isWritable = some k₂ ∧
        Booting k₀ k₂ (((i + pageSize).toNat - 0xC0000000) / 4096) := by
    intro k₁ i hal hle hlt h₁
    have hva : i.toNat = 0xC0000000 + 4096 * ((i.toNat - 0xC0000000) / 4096) := by omega
    obtain ⟨k₂, hk, h₂⟩ := h₁.step hheap hroom (by omega) hva isWritable
    refine ⟨k₂, hk, ?_⟩
    rwa [toNat_add_pageSize (by omega),
      show (i.toNat + 4096 - 0xC0000000) / 4096 = (i.toNat - 0xC0000000) / 4096 + 1 by omega]
  have h0 : Booting k₀ k ((start.toNat - 0xC0000000) / 4096) := by
    rwa [hstart, show (0xC0000000 + 4096 * a - 0xC0000000) / 4096 = a by omega]
  obtain ⟨k', runner, hk, hboot, hal, hge, hle, hrange⟩ :=
    allocatePages_total _ h0 (by omega) (by omega) hpage
  refine ⟨k', runner, hk, ?_⟩
  have hend : runner.toNat = bound.toNat := by
    rcases hrange with rfl | hlt
    · omega
    · omega
  rwa [hend, hbound, show (0xC0000000 + 4096 * b - 0xC0000000) / 4096 = b by omega] at hboot

/-- The identity map, made from `k₁` on, has `j` pages. Page 0 asks for frame 0, which means
any frame. -/
structure LowMapped (e : Nat) (k₁ k : Kernel) (j : Nat) : Prop where
  heap : k.heap = k₁.heap
  tables : BootTables e k.vmm ((3072 + j + 1023) / 1024) (3072 + j)
  kept : ∀ s < 3072, k.vmm.bootEntry e s = k₁.vmm.bootEntry e s
  first : j = 0 → k.vmm.pmm = k₁.vmm.pmm
  taken : 0 < j → k.vmm.pmm = k₁.vmm.pmm.pmmAllocBlock.1 ∧ (k.vmm.bootEntry e 3072).frame =
    (k₁.vmm.pmm.pmmAllocBlock.2 / pageSize).setWidth 20
  low : ∀ i, 1 ≤ i → i < j → (k.vmm.bootEntry e (3072 + i)).frame = BitVec.ofNat 20 i

theorem LowMapped.step {e j : Nat} {k₁ : Kernel} (hheap : k₁.heap.kheapEnabled = false)
    (hroom : BootRoom e) (h : LowMapped e k₁ k j) (hj : j < 1024) {va : U32}
    (hva : va.toNat = 4096 * j) (isWritable : Bool) :
    ∃ k', k.allocatePage kmallocA k.vmm.kernelPageDir va (va / pageSize) true isWritable
        = some k' ∧ LowMapped e k₁ k' (j + 1) := by
  have hpage : (va / pageSize).toNat = j := by
    rw [BitVec.toNat_udiv, pageSize_toNat, hva]
    omega
  obtain ⟨k', hk, hheap', htables, hfill⟩ := h.tables.allocatePage hroom
    (by rw [h.heap]; exact hheap) (by omega)
    (by rw [hva, bootPage, if_neg (by omega)]; omega) kmallocA (va / pageSize) true isWritable
  have hlow : 0 < j → k'.vmm.pmm = k.vmm.pmm ∧
      (k'.vmm.bootEntry e (3072 + j)).frame = BitVec.ofNat 20 j := by
    intro hpos
    obtain ⟨hpmm, hframe⟩ := hfill.given fun hc => by
      rw [hc, show (0 : U32).toNat = 0 from rfl] at hpage
      omega
    refine ⟨hpmm, hframe.trans ?_⟩
    apply BitVec.eq_of_toNat_eq
    rw [BitVec.toNat_setWidth, hpage, BitVec.toNat_ofNat]
  refine ⟨k', hk, hheap'.trans h.heap, htables, ?_, fun hc => by omega, fun _ => ?_, ?_⟩
  · exact fun s hs => (hfill.old s (by omega)).trans (h.kept s hs)
  · rcases Nat.eq_zero_or_pos j with rfl | hpos
    · -- page 0 has frame number 0, the value that asks for any frame
      have hzero : va / pageSize = 0 := BitVec.eq_of_toNat_eq hpage
      rw [← h.first rfl]
      exact hfill.taken hzero
    · obtain ⟨hpmm, hframe⟩ := h.taken hpos
      rw [(hlow hpos).1, hfill.old 3072 (by omega)]
      exact ⟨hpmm, hframe⟩
  · intro i hi hij
    rcases Nat.lt_succ_iff_lt_or_eq.mp hij with hij | rfl
    · rw [hfill.old (3072 + i) (by omega)]
      exact h.low i hi hij
    · exact (hlow hi).2

/-- The identity map of `vmm_init`: the 17 pages from 0 to `0x10000`. -/
theorem lowMapped_allocateRegion {e : Nat} {k₁ : Kernel} (hheap : k₁.heap.kheapEnabled = false)
    (hroom : BootRoom e) (h : BootTables e k₁.vmm 3 3072) (kmallocA : TableSource) :
    ∃ k, k₁.allocateRegion kmallocA k₁.vmm.kernelPageDir 0 0x10000 true true false = some k ∧
      LowMapped e k₁ k 17 := by
  have hend : (0x10000 &&& 0xfffff000 : U32).toNat = 0x10000 := rfl
  have h0 : LowMapped e k₁ k₁ ((0 &&& 0xfffff000 : U32).toNat / 4096) :=
    ⟨rfl, h, fun _ _ => rfl, fun _ => rfl, fun hc => absurd hc (by decide),
      fun i hi hlt => absurd (Nat.lt_of_le_of_lt hi hlt) (by decide)⟩
  have hpage : ∀ (k₂ : Kernel) (i : U32), i.toNat % 4096 = 0 →
      (0 &&& 0xfffff000 : U32).toNat ≤ i.toNat → i.toNat ≤ (0x10000 &&& 0xfffff000 : U32).toNat →
      LowMapped e k₁ k₂ (i.toNat / 4096) → ∃ k₃,
      k₂.allocatePage kmallocA k₁.vmm.kernelPageDir i (if true then i / pageSize else 0) true
        false = some k₃ ∧ LowMapped e k₁ k₃ ((i + pageSize).toNat / 4096) := by
    intro k₂ i hal _ hle h₂
    rw [hend] at hle
    obtain ⟨k₃, hk, h₃⟩ := h₂.step hheap hroom (by omega)
      (show i.toNat = 4096 * (i.toNat / 4096) by omega) false
    rw [h₂.tables.dir, ← h.dir] at hk
    refine ⟨k₃, hk, ?_⟩
    rwa [toNat_add_pageSize (by omega), show (i.toNat + 4096) / 4096 = i.toNat / 4096 + 1 by omega]
  obtain ⟨k, runner, hk, hmapped, hal, hlt, hrange⟩ :=
    allocateRegion_total _ h0 (by decide) hpage
  refine ⟨k, hk, ?_⟩
  rw [hend] at hlt hrange
  have hrunner : runner.toNat / 4096 = 17 := by
    rcases hrange with rfl | hle
    · exact absurd hlt (by decide)
    · omega
  rwa [hrunner] at hmapped

/-- What `vmm_init`, called in `k₀`, leaves behind. -/
structure Booted (k₀ k : Kernel) : Prop where
  heap : k.heap = k₀.heap
  paging : k.vmm.pagingEnabled = true
  dir : k.vmm.kernelPageDir = BitVec.ofNat 32 (bootDir k₀.vmm.pmm.bitmapEnd)
  cr3 : k.vmm.cr3 = k.vmm.kernelPageDir - kernBase
  refs : ∀ t < 4, (k.vmm.dirs k.vmm.kernelPageDir).refTables (bootRegion t) =
    bootTable k₀.vmm.pmm.bitmapEnd t
  rest : ∀ i, (∀ t < 4, i ≠ bootRegion t) → (k.vmm.dirs k.vmm.kernelPageDir).refTables i = 0
  tables : ∀ t < 4, ((k.vmm.dirs k.vmm.kernelPageDir).tables (bootRegion t)).present = true ∧
    ((k.vmm.dirs k.vmm.kernelPageDir).tables (bootRegion t)).frame =
      ((bootTable k₀.vmm.pmm.bitmapEnd t - kernBase) >>> 12).setWidth 20
  filled : ∀ s < 3089, (k.vmm.bootEntry k₀.vmm.pmm.bitmapEnd s).present = true
  empty : ∀ s, 3089 ≤ s → s < 4096 → (k.vmm.bootEntry k₀.vmm.pmm.bitmapEnd s).present = false
  low : ∀ i, 1 ≤ i → i ≤ 16 →
    (k.vmm.bootEntry k₀.vmm.pmm.bitmapEnd (3072 + i)).frame = BitVec.ofNat 20 i
  pmm : ∃ p : Pmm, p.maxBlocks = k₀.vmm.pmm.maxBlocks ∧ k.vmm.pmm = p.pmmAllocBlock.1 ∧
    (k.vmm.bootEntry k₀.vmm.pmm.bitmapEnd 3072).frame =
      (p.pmmAllocBlock.2 / pageSize).setWidth 20 ∧
    (k₀.vmm.pmm.PrefixUsed 0 → 3072 ≤ k₀.vmm.pmm.scanned → p.PrefixUsed 3072 ∧
      ∀ s < 3072, (k.vmm.bootEntry k₀.vmm.pmm.bitmapEnd s).frame = BitVec.ofNat 20 s)

/-- `vmm_init` ends with a switch to the kernel's directory. -/
theorem currentPageDir_vmmInit {kmallocA : TableSource} {k : Kernel}
    (h : k₀.vmmInit kmallocA = some k) : k.vmm.currentPageDir = k.vmm.kernelPageDir := by
  unfold vmmInit at h
  obtain ⟨⟨k₁, _⟩, -, h⟩ := Option.bind_eq_some_iff.mp h
  obtain ⟨⟨k₂, _⟩, -, h⟩ := Option.bind_eq_some_iff.mp h
  obtain ⟨k₃, -, h⟩ := Option.bind_eq_some_iff.mp h
  cases h
  rfl

/-- **`vmm_init` comes back**, and this is what it leaves behind. -/
theorem vmmInit_spec (hheap : k₀.heap.kheapEnabled = false)
    (hpaging : k₀.vmm.pagingEnabled = false) (hroom : BootRoom k₀.vmm.pmm.bitmapEnd)
    (kmallocA : TableSource) : ∃ k, k₀.vmmInit kmallocA = some k ∧ Booted k₀ k := by
  have h₀ := booting_newKernelPageDir hpaging hroom
  have hbase : kernBase.toNat = 0xC0000000 + 4096 * 0 := rfl
  have hheapStart : (kernBase + 4 * mib).toNat = 0xC0000000 + 4096 * 1024 := by decide
  have hheapEnd : (kernBase + 4 * mib + kheapInitialSize).toNat = 0xC0000000 + 4096 * 3072 := by
    decide
  obtain ⟨k₁, r₁, hk₁, h₁⟩ := h₀.allocatePages hheap hroom hbase hheapStart (by omega) (by omega)
    kmallocA false
  obtain ⟨k₂, r₂, hk₂, h₂⟩ := h₁.allocatePages hheap hroom hheapStart hheapEnd (by omega)
    (by omega) kmallocA true
  obtain ⟨k₃, hk₃, h₃⟩ := lowMapped_allocateRegion (by rw [h₂.heap]; exact hheap) hroom h₂.tables
    kmallocA
  refine ⟨{ k₃ with vmm := (k₃.vmm.switchPageDirectory k₃.vmm.kernelPageDir).enablePaging }, ?_, ?_⟩
  · unfold vmmInit
    dsimp only
    rw [hk₁, Option.bind_eq_bind, Option.bind_some]
    dsimp only
    rw [hk₂, Option.bind_eq_bind, Option.bind_some]
    dsimp only
    rw [hk₃, Option.bind_some, Option.pure_def]
  · have ht := h₃.tables
    refine ⟨h₃.heap.trans h₂.heap, rfl, ht.dir, ?_, ht.refs, ht.rest, ht.frames, ht.filled,
      ht.empty, fun i h1 h16 => h₃.low i h1 (by omega), ?_⟩
    · show Vmm.virt2phys _ _ _ = _
      rw [Vmm.virt2phys, if_pos (by rw [ht.paging]; rfl)]
      rfl
    · refine ⟨k₂.vmm.pmm, h₂.maxBlocks, (h₃.taken (by omega)).1, (h₃.taken (by omega)).2,
        fun hfresh hle => ?_⟩
      have hframes := h₂.frames hfresh hle
      refine ⟨hframes.used, fun s hs => ?_⟩
      exact (congrArg Page.frame (h₃.kept s hs)).trans (hframes.frame s hs)

/-! ## The kernel's addresses -/

/-- The page directory and the page tables in it are page aligned and do not meet, and they lie
above a bitmap that ends at `e`. -/
structure TablesApart (e : Nat) (v : Vmm) : Prop where
  dir_aligned : v.kernelPageDir.toNat % 4096 = 0
  dir_above : e ≤ v.kernelPageDir.toNat
  aligned : ∀ i, (v.dirs v.kernelPageDir).refTables i ≠ 0 →
    ((v.dirs v.kernelPageDir).refTables i).toNat % 4096 = 0
  above : ∀ i, (v.dirs v.kernelPageDir).refTables i ≠ 0 →
    v.kernelPageDir.toNat + 8192 ≤ ((v.dirs v.kernelPageDir).refTables i).toNat
  apart : ∀ i j, i ≠ j → (v.dirs v.kernelPageDir).refTables i ≠ 0 →
    (v.dirs v.kernelPageDir).refTables j ≠ 0 →
    ((v.dirs v.kernelPageDir).refTables i).toNat + 4096
        ≤ ((v.dirs v.kernelPageDir).refTables j).toNat ∨
      ((v.dirs v.kernelPageDir).refTables j).toNat + 4096
        ≤ ((v.dirs v.kernelPageDir).refTables i).toNat

namespace Booted

theorem dir_toNat (h : Booted k₀ k) (hroom : BootRoom k₀.vmm.pmm.bitmapEnd) :
    k.vmm.kernelPageDir.toNat = bootDir k₀.vmm.pmm.bitmapEnd := by
  rw [h.dir, bootDir_toNat hroom]

theorem dir_ne_zero (h : Booted k₀ k) (hroom : BootRoom k₀.vmm.pmm.bitmapEnd) :
    k.vmm.kernelPageDir ≠ 0 := by
  rw [h.dir]
  exact bootDir_ne_zero hroom

/-- Every table of the directory is one of the four. -/
theorem exists_table (h : Booted k₀ k) {i : Fin 1024}
    (hi : (k.vmm.dirs k.vmm.kernelPageDir).refTables i ≠ 0) : ∃ t < 4, i = bootRegion t := by
  by_contra hc
  push Not at hc
  exact hi (h.rest i hc)

/-- What table it is. -/
theorem exists_bootTable (h : Booted k₀ k) {i : Fin 1024}
    (hi : (k.vmm.dirs k.vmm.kernelPageDir).refTables i ≠ 0) : ∃ t < 4, i = bootRegion t ∧
      (k.vmm.dirs k.vmm.kernelPageDir).refTables i = bootTable k₀.vmm.pmm.bitmapEnd t := by
  obtain ⟨t, ht, rfl⟩ := h.exists_table hi
  exact ⟨t, ht, rfl, h.refs t ht⟩

theorem tablesDistinct (h : Booted k₀ k) (hroom : BootRoom k₀.vmm.pmm.bitmapEnd) :
    k.vmm.TablesDistinct k.vmm.kernelPageDir := by
  intro i j hi hij
  obtain ⟨t, ht, rfl⟩ := h.exists_table hi
  obtain ⟨t', ht', rfl⟩ := h.exists_table (hij ▸ hi)
  rw [h.refs t ht, h.refs t' ht'] at hij
  rw [bootTable_inj hroom ht ht' hij]

theorem tablesApart (h : Booted k₀ k) (hroom : BootRoom k₀.vmm.pmm.bitmapEnd) :
    TablesApart k₀.vmm.pmm.bitmapEnd k.vmm := by
  have hd : bootDir k₀.vmm.pmm.bitmapEnd = (k₀.vmm.pmm.bitmapEnd / 4096 + 1) * 4096 := rfl
  have htable : ∀ {i}, (k.vmm.dirs k.vmm.kernelPageDir).refTables i ≠ 0 → ∃ t < 4,
      i = bootRegion t ∧ ((k.vmm.dirs k.vmm.kernelPageDir).refTables i).toNat =
        bootDir k₀.vmm.pmm.bitmapEnd + 8192 + 4096 * t := by
    intro i hi
    obtain ⟨t, ht, rfl⟩ := h.exists_table hi
    exact ⟨t, ht, rfl, by rw [h.refs t ht, bootTable_toNat hroom ht]⟩
  refine ⟨?_, ?_, ?_, ?_, ?_⟩
  · rw [h.dir_toNat hroom]
    omega
  · rw [h.dir_toNat hroom]
    omega
  · intro i hi
    obtain ⟨t, -, -, he⟩ := htable hi
    omega
  · intro i hi
    obtain ⟨t, -, -, he⟩ := htable hi
    rw [h.dir_toNat hroom]
    omega
  · intro i j hij hi hj
    obtain ⟨t, -, rfl, he⟩ := htable hi
    obtain ⟨t', -, rfl, he'⟩ := htable hj
    have : t ≠ t' := fun hc => hij (by rw [hc])
    omega

/-- A present page of frame `s` translates to the byte `va % 4096` of block `s`. -/
theorem toNat_frame_add {s : Nat} (hs : s < 2 ^ 20) (va : U32) :
    (((BitVec.ofNat 20 s).setWidth 32 <<< 12) + pageframeIndex va).toNat =
      4096 * s + va.toNat % 4096 := by
  rw [BitVec.toNat_add, BitVec.toNat_shiftLeft, BitVec.toNat_setWidth, BitVec.toNat_ofNat,
    pageframeIndex_toNat, Nat.shiftLeft_eq]
  omega

/-- The processor finds table `t` where the kernel has put it. -/
theorem frame_bootTable {e t : Nat} (hroom : BootRoom e) (ht : t < 4) :
    ((((bootTable e t - kernBase) >>> 12).setWidth 20).setWidth 32 <<< 12) + kernBase =
      bootTable e t := by
  have hd : bootDir e = (e / 4096 + 1) * 4096 := rfl
  have htable := bootTable_toNat hroom ht
  have hlt := (bootTable e t).isLt
  apply BitVec.eq_of_toNat_eq
  rw [BitVec.toNat_add, BitVec.toNat_shiftLeft, BitVec.toNat_setWidth, BitVec.toNat_setWidth,
    BitVec.toNat_ushiftRight, BitVec.toNat_sub, kernBase_toNat, Nat.shiftLeft_eq,
    Nat.shiftRight_eq_div_pow]
  omega

theorem tableOf_eq (h : Booted k₀ k) {s : Nat} (hs : s < 4096) {va : U32}
    (hva : va.toNat / 4096 = bootPage s / 4096) :
    k.vmm.tableOf k.vmm.kernelPageDir va = bootTable k₀.vmm.pmm.bitmapEnd (s / 1024) := by
  rw [Vmm.tableOf, pagedirIndex_bootPage hs hva, h.refs _ (by omega)]

theorem entry_eq {v : Vmm} {e s : Nat} {va : U32} (hva : va.toNat / 4096 = bootPage s / 4096) :
    v.entry (bootTable e (s / 1024)) va = v.bootEntry e s := by
  rw [Vmm.entry, Vmm.bootEntry, pagetblIndex_bootPage hva]

/-- The 3089 pages are mapped. -/
theorem mapped (h : Booted k₀ k) (hroom : BootRoom k₀.vmm.pmm.bitmapEnd) {s : Nat} (hs : s < 3089)
    {va : U32} (hva : va.toNat / 4096 = bootPage s / 4096) :
    k.vmm.Mapped k.vmm.kernelPageDir va := by
  have htable := h.tableOf_eq (by omega) hva
  refine ⟨by rw [htable]; exact bootTable_ne_zero hroom (by omega), ?_⟩
  rw [htable, entry_eq hva]
  exact h.filled s hs

/-- Both ways of translating an address lead to entry `s`. -/
theorem translate_eq (h : Booted k₀ k) (hroom : BootRoom k₀.vmm.pmm.bitmapEnd) {s : Nat}
    (hs : s < 3089) {va : U32} (hva : va.toNat / 4096 = bootPage s / 4096) :
    k.vmm.virt2phys k.vmm.kernelPageDir va =
        ((k.vmm.bootEntry k₀.vmm.pmm.bitmapEnd s).frame.setWidth 32 <<< 12) + pageframeIndex va ∧
      k.vmm.mmuTranslate va =
        some (((k.vmm.bootEntry k₀.vmm.pmm.bitmapEnd s).frame.setWidth 32 <<< 12)
          + pageframeIndex va) := by
  have htable := h.tableOf_eq (by omega) hva
  have hpresent := h.filled s hs
  obtain ⟨hpde, hframe⟩ := h.tables (s / 1024) (by omega)
  constructor
  · unfold Vmm.virt2phys
    rw [htable, entry_eq hva, h.paging, hpresent, if_neg (by decide),
      if_neg (bootTable_ne_zero hroom (by omega)), if_neg (by decide)]
  · unfold Vmm.mmuTranslate
    rw [h.cr3, BitVec.sub_add_cancel, pagedirIndex_bootPage (by omega) hva]
    dsimp only
    rw [hframe, frame_bootTable hroom (by omega), entry_eq hva, hpde, hpresent, Bool.and_self,
      if_pos rfl]

theorem maxBlocks (h : Booted k₀ k) : k.vmm.pmm.maxBlocks = k₀.vmm.pmm.maxBlocks := by
  obtain ⟨p, hmax, he, -⟩ := h.pmm
  rw [he, Pmm.maxBlocks_pmmAllocBlock, hmax]

/-- `vmm_init` takes one block after the other, 3073 of them if there are that many. -/
theorem prefixUsed (h : Booted k₀ k) (hfresh : k₀.vmm.pmm.PrefixUsed 0)
    (hscan : 3072 < k₀.vmm.pmm.scanned) : k.vmm.pmm.PrefixUsed 3073 := by
  obtain ⟨p, hmax, he, -, hframes⟩ := h.pmm
  obtain ⟨hused, -⟩ := hframes hfresh (Nat.le_of_lt hscan)
  obtain ⟨halloc, hnext⟩ := hused.alloc (by rwa [Pmm.scanned_congr hmax])
  rw [he, halloc]
  exact hnext

/-- The addresses of the kernel and the initial heap are mapped linearly. -/
theorem translate_linear (h : Booted k₀ k) (hroom : BootRoom k₀.vmm.pmm.bitmapEnd)
    (hfresh : k₀.vmm.pmm.PrefixUsed 0) (hscan : 3072 ≤ k₀.vmm.pmm.scanned) {va : U32}
    (hlo : kernBase.toNat ≤ va.toNat) (hhi : va.toNat < kernBase.toNat + 12 * mib.toNat) :
    k.vmm.virt2phys k.vmm.kernelPageDir va = va - kernBase ∧
      k.vmm.mmuTranslate va = some (va - kernBase) := by
  rw [kernBase_toNat] at hlo hhi
  rw [mib_toNat] at hhi
  obtain ⟨hs, hva⟩ := bootPage_of_kernel hlo (by omega)
  obtain ⟨hvirt, hmmu⟩ := h.translate_eq hroom (by omega) hva
  obtain ⟨p, -, -, -, hframes⟩ := h.pmm
  have hframe := (hframes hfresh hscan).2 _ hs
  have hresult : ((BitVec.ofNat 20 ((va.toNat - 0xC0000000) / 4096)).setWidth 32 <<< 12)
      + pageframeIndex va = va - kernBase := by
    apply BitVec.eq_of_toNat_eq
    rw [toNat_frame_add (by omega), BitVec.toNat_sub, kernBase_toNat]
    omega
  rw [hvirt, hmmu, hframe, hresult]
  exact ⟨rfl, rfl⟩

end Booted

/--
**The linear kernel map.** After `vmm_init` on a fresh memory manager with at least 3072 blocks,
paging is on and every address of the first 12 MB above `KERN_BASE` translates to itself minus
`KERN_BASE`, for `virt2phys` and for the processor; the directory and the tables are aligned, do
not meet, and lie above the bitmap.
-/
theorem linear_kernel_map (hheap : k₀.heap.kheapEnabled = false)
    (hpaging : k₀.vmm.pagingEnabled = false) (hfresh : k₀.vmm.pmm.PrefixUsed 0)
    (hmax : 3072 ≤ k₀.vmm.pmm.maxBlocks.toNat) (hroom : BootRoom k₀.vmm.pmm.bitmapEnd) :
    ∃ k, k₀.vmmInit kmallocA = some k ∧ k.vmm.pagingEnabled = true ∧
      (∀ va : U32, kernBase.toNat ≤ va.toNat → va.toNat < kernBase.toNat + 12 * mib.toNat →
        k.vmm.virt2phys k.vmm.kernelPageDir va = va - kernBase ∧
          k.vmm.mmuTranslate va = some (va - kernBase)) ∧
      TablesApart k₀.vmm.pmm.bitmapEnd k.vmm := by
  obtain ⟨k, hk, hbooted⟩ := vmmInit_spec hheap hpaging hroom kmallocA
  have hscan : 3072 ≤ k₀.vmm.pmm.scanned := by
    unfold Pmm.scanned
    omega
  exact ⟨k, hk, hbooted.paging, fun va hlo hhi =>
    hbooted.translate_linear hroom hfresh hscan hlo hhi, hbooted.tablesApart hroom⟩

/-- The memory manager of a machine with 16 MiB and a kernel that ends 1.5 MiB up. -/
def pmm16 : Pmm := ⟨4096, 0, 0xC0180000, 512, Bitmap.zeroBytes (fun _ => 0) 512⟩

theorem pmmInit_eq_pmm16 :
    pmmInit (fun _ => 0) 0x180000 [.basicMeminfo 640 15744] = some pmm16 := rfl

/-- That machine before `vmm_init`. -/
def machine16 : Kernel := loaded pmm16 (fun _ => 0) 0xC0180000

theorem heap_machine16 : machine16.heap.kheapEnabled = false := rfl

theorem paging_machine16 : machine16.vmm.pagingEnabled = false := rfl

theorem fresh_machine16 : machine16.vmm.pmm.PrefixUsed 0 := Pmm.prefixUsed_pmmInit pmmInit_eq_pmm16

theorem bootRoom_machine16 : BootRoom machine16.vmm.pmm.bitmapEnd := by
  unfold BootRoom bootDir
  decide

theorem bootFits_machine16 : BootFits machine16.vmm.pmm.bitmapEnd := by
  unfold BootFits bootDir
  decide

theorem linear_kernel_map_machine16 : ∃ k, machine16.vmmInit (fun _ _ => none) = some k ∧
    k.vmm.virt2phys k.vmm.kernelPageDir 0xC0500123 = 0x500123 := by
  obtain ⟨k, hk, -, hmap, -⟩ := linear_kernel_map heap_machine16 paging_machine16 fresh_machine16
    (by decide) bootRoom_machine16
  exact ⟨k, hk, (hmap 0xC0500123 (by decide) (by decide)).1⟩

end Kernel

end PiggyOS
