import PiggyOS.Infra.Run
import PiggyOS.Vmm.Boot

/-!
# Boot memory and the frames handed out

The memory manager does not mark the kernel image, the boot modules and its own bitmap as used.
They are safe only as far as they lie where no frame is handed out again: `vmm_init` takes the
lowest 12 MB in order, maps the first 4 MB of it over the kernel and gives the rest to the heap.

* `later_frame` — what an allocation after boot can return: a block above the boot blocks, or
  block 0
* `exists_later_frame` — it does return each of them at some time
* `bootMemorySafe_iff` — so boot memory is safe exactly when it avoids the heap's 8 MB, what lies
  above, and block 0
-/

namespace PiggyOS

open Infra

/-! ## Reserved ranges -/

/-- The physical addresses of a bitmap of `size` bytes at the address `bitmap`. -/
def bitmapRange (bitmap size : U32) : Nat × Nat :=
  ((bitmap - kernBase).toNat, (bitmap - kernBase).toNat + size.toNat)

/-- `kernel_start_phys` -/
def kernelStartPhys : Nat := 0x100000

/-- The range of a module tag. -/
def Mboot2Tag.range : Mboot2Tag → Option (Nat × Nat)
  | .module modStart modEnd => some (modStart.toNat, modEnd.toNat)
  | _ => none

/-- The physical ranges of the kernel image, the bitmap and the boot modules. -/
def reserved (kernelEndPhys : U32) (tags : List Mboot2Tag) (bitmap size : U32) :
    List (Nat × Nat) :=
  (kernelStartPhys, kernelEndPhys.toNat) :: bitmapRange bitmap size ::
    tags.filterMap Mboot2Tag.range

/-- The number of blocks of the memory that the tags report. -/
def memBlocks (tags : List Mboot2Tag) : U32 :=
  match findMeminfo tags with
  | none => 0
  | some (memLower, memUpper) => (memLower + memUpper) * kib / pageSize

/-- The address of the bitmap above the kernel and its modules. -/
def bitmapAt (kernelEndPhys : U32) (tags : List Mboot2Tag) : U32 :=
  alignTo (bootEnd kernelEndPhys tags + kernBase) 4

/-- Where `pmm_init` puts the bitmap, and how large it is. -/
theorem bitmap_of_pmmInit {raw : Nat → U32} {kernelEndPhys : U32} {tags : List Mboot2Tag} {p : Pmm}
    (h : pmmInit raw kernelEndPhys tags = some p) :
    p.pmmBitmap = bitmapAt kernelEndPhys tags ∧ p.pmmBitmapSize = memBlocks tags / 8 ∧
      p.maxBlocks = memBlocks tags := by
  obtain ⟨-, -, hsize, hbitmap, -⟩ := Pmm.pmmInit_eq_some h
  have hblocks : p.maxBlocks = memBlocks tags := by
    unfold pmmInit at h
    split at h
    · cases h
    · split at h
      · cases h
      · next memLower memUpper hmem =>
        simp only [Option.some.injEq] at h
        simp only [← h, memBlocks, hmem]
  exact ⟨hbitmap, by rw [hsize, hblocks], hblocks⟩

/-- Block `f` has a byte in the range. -/
def Overlaps (f : Nat) (r : Nat × Nat) : Prop :=
  ∃ x, r.1 ≤ x ∧ x < r.2 ∧ 4096 * f ≤ x ∧ x < 4096 * f + 4096

namespace Pmm

/-! ## Allocations after boot -/

inductive LaterOp
  | alloc
  | free (addr : U32)
  deriving DecidableEq, Repr

/-- Allocations, and frees of blocks that were not in use in `boot`. -/
inductive Later (boot : Pmm) : Pmm → LaterOp → Pmm → Prop
  | alloc (p : Pmm) : Later boot p .alloc p.pmmAllocBlock.1
  | free (p : Pmm) (addr : U32) : boot.used (addr / pageSize).toNat = false →
      Later boot p (.free addr) (p.pmmFreeBlock addr)

/-- The block an allocation in `p` returns. -/
def nextBlock (p : Pmm) : Nat := (p.pmmAllocBlock.2 / pageSize).toNat

variable {boot p q : Pmm}

/-- An allocation returns a clear block, or block 0. -/
theorem nextBlock_cases (h20 : p.maxBlocks.toNat < 2 ^ 20) :
    p.nextBlock = 0 ∨ (p.nextBlock < p.scanned ∧ p.used p.nextBlock = false) := by
  unfold nextBlock
  rcases p.pmmAllocBlock_cases with ⟨-, he⟩ | ⟨-, b, hb, hclear, -, -, he⟩ | ⟨-, -, -, he⟩
  · rw [he]
    exact Or.inl toNat_zero_block
  · have hscan := p.scanned_le
    rw [he]
    dsimp only
    rw [toNat_block (by omega)]
    exact Or.inr ⟨hb, hclear⟩
  · rw [he]
    exact Or.inl toNat_zero_block

theorem used_pmmAllocBlock {b : Nat} (h : p.used b = true) : p.pmmAllocBlock.1.used b = true := by
  rcases p.pmmAllocBlock_cases with ⟨-, he⟩ | ⟨-, _, -, -, -, -, he⟩ | ⟨-, -, -, he⟩
  · rw [he]
    exact h
  · rw [he, used_pmmBitmapSet, h, Bool.or_true]
  · rw [he, used_pmmBitmapSet, h, Bool.or_true]

/-- The blocks in use at boot stay in use. -/
theorem used_of_later {ops : List LaterOp} (h : Run (Later boot) boot ops q) :
    q.maxBlocks = boot.maxBlocks ∧ ∀ b, boot.used b = true → q.used b = true := by
  refine h.invariant (fun q => q.maxBlocks = boot.maxBlocks ∧
    ∀ b, boot.used b = true → q.used b = true) ?_ ⟨rfl, fun _ hb => hb⟩
  rintro s op t ⟨hmax, hused⟩ hstep
  cases hstep with
  | alloc =>
    exact ⟨(maxBlocks_pmmAllocBlock s).trans hmax, fun b hb => used_pmmAllocBlock (hused b hb)⟩
  | free addr hfree =>
    refine ⟨hmax, fun b hb => ?_⟩
    have hne : b ≠ (addr / pageSize).toNat := fun hc => by
      rw [hc, hfree] at hb
      cases hb
    rw [pmmFreeBlock, used_pmmBitmapUnset, decide_eq_false hne, hused b hb]
    rfl

/-- What an allocation after boot can return. -/
theorem later_frame (h20 : boot.maxBlocks.toNat < 2 ^ 20) {ops : List LaterOp}
    (h : Run (Later boot) boot ops q) :
    q.nextBlock = 0 ∨ (q.nextBlock < boot.scanned ∧ boot.used q.nextBlock = false) := by
  obtain ⟨hmax, hused⟩ := used_of_later h
  refine (nextBlock_cases (by rw [hmax]; exact h20)).imp_right fun ⟨hlt, hclear⟩ => ⟨?_, ?_⟩
  · rwa [scanned_congr hmax] at hlt
  · by_contra hc
    rw [hused _ (by simpa using hc)] at hclear
    cases hclear

/-- Allocating takes the blocks in order, up to the last whole word. -/
theorem exists_run_prefixUsed {m n : Nat} (h : PrefixUsed p m) (hmn : m ≤ n)
    (hn : n ≤ p.scanned) :
    ∃ ops q, Run (Later boot) p ops q ∧ PrefixUsed q n ∧ q.maxBlocks = p.maxBlocks := by
  obtain ⟨hpre, hmax⟩ := h.allocs (n := n - m) (by omega)
  rw [Nat.add_sub_cancel' hmn] at hpre
  exact ⟨_, _, Run.exists_of_chain p.allocs (fun _ => .alloc) fun i _ => .alloc (p.allocs i), hpre,
    hmax⟩

theorem nextBlock_of_full (hall : ∀ b < p.scanned, p.used b = true) : p.nextBlock = 0 := by
  unfold nextBlock
  rcases p.pmmAllocBlock_cases with ⟨-, he⟩ | ⟨-, b, hb, hclear, -⟩ | ⟨-, -, -, he⟩
  · rw [he]
    exact toNat_zero_block
  · rw [hall b hb] at hclear
    cases hclear
  · rw [he]
    exact toNat_zero_block

end Pmm

/-! ## After `vmm_init` -/

namespace Kernel

variable {k₀ k : Kernel} {ranges : List (Nat × Nat)}

namespace Booted

theorem used (h : Booted k₀ k) (hfresh : k₀.vmm.pmm.PrefixUsed 0)
    (hscan : 3072 ≤ k₀.vmm.pmm.scanned) {b : Nat} (hb : b < 3073)
    (hbs : b < k₀.vmm.pmm.scanned) : k.vmm.pmm.used b = true := by
  rcases Nat.lt_or_eq_of_le hscan with hlt | heq
  · exact (h.prefixUsed hfresh hlt).below b hb
  · obtain ⟨p, -, he, -, hframes⟩ := h.pmm
    obtain ⟨hused, -⟩ := hframes hfresh hscan
    rw [he]
    exact Pmm.used_pmmAllocBlock (hused.below b (by omega))

/-- After boot an allocation returns block 0 or a block above the boot blocks. -/
theorem frame_of_later (h : Booted k₀ k) (hfresh : k₀.vmm.pmm.PrefixUsed 0)
    (h20 : k₀.vmm.pmm.maxBlocks.toNat < 2 ^ 20) (hscan : 3072 ≤ k₀.vmm.pmm.scanned)
    {ops : List Pmm.LaterOp} {q : Pmm} (hrun : Run (Pmm.Later k.vmm.pmm) k.vmm.pmm ops q) :
    q.nextBlock = 0 ∨ (3073 ≤ q.nextBlock ∧ q.nextBlock < k₀.vmm.pmm.scanned) := by
  rcases Pmm.later_frame (by rw [h.maxBlocks]; exact h20) hrun with hzero | ⟨hlt, hclear⟩
  · exact Or.inl hzero
  · rw [Pmm.scanned_congr h.maxBlocks] at hlt
    refine Or.inr ⟨Nat.le_of_not_lt fun hc => ?_, hlt⟩
    rw [h.used hfresh hscan hc hlt] at hclear
    cases hclear

/-- Each of these blocks is returned at some time. -/
theorem exists_later_frame (h : Booted k₀ k) (hfresh : k₀.vmm.pmm.PrefixUsed 0)
    (h20 : k₀.vmm.pmm.maxBlocks.toNat < 2 ^ 20) (hscan : 3072 ≤ k₀.vmm.pmm.scanned) {f : Nat}
    (hf : f = 0 ∨ (3073 ≤ f ∧ f < k₀.vmm.pmm.scanned)) :
    ∃ ops q, Run (Pmm.Later k.vmm.pmm) k.vmm.pmm ops q ∧ q.nextBlock = f := by
  have hsc : k.vmm.pmm.scanned = k₀.vmm.pmm.scanned := Pmm.scanned_congr h.maxBlocks
  rcases hf with rfl | ⟨hge, hlt⟩
  · rcases Nat.lt_or_eq_of_le hscan with hlt | heq
    · -- use up all blocks
      obtain ⟨ops, q, hrun, hq, hmax⟩ := Pmm.exists_run_prefixUsed (h.prefixUsed hfresh hlt)
        (show 3073 ≤ k.vmm.pmm.scanned by omega) (Nat.le_refl _)
      refine ⟨ops, q, hrun, Pmm.nextBlock_of_full fun b hb => hq.below b ?_⟩
      rwa [Pmm.scanned_congr hmax] at hb
    · -- boot has used them up already
      refine ⟨[], _, .nil _, Pmm.nextBlock_of_full fun b hb => ?_⟩
      exact h.used hfresh hscan (by omega) (by omega)
  · obtain ⟨ops, q, hrun, hq, hmax⟩ := Pmm.exists_run_prefixUsed
      (h.prefixUsed hfresh (by omega)) hge (by omega)
    have hle := k₀.vmm.pmm.scanned_le
    obtain ⟨he, -⟩ := hq.alloc (by rw [Pmm.scanned_congr hmax]; omega)
    refine ⟨ops, q, hrun, ?_⟩
    unfold Pmm.nextBlock
    rw [he]
    exact Pmm.toNat_block (by omega)

end Booted

/-- No block under the initial heap, and none that is allocated later, has a byte in the
ranges. -/
structure BootMemorySafe (k : Kernel) (ranges : List (Nat × Nat)) : Prop where
  heap : ∀ va pa : U32, (kernBase + 4 * mib).toNat ≤ va.toNat →
    va.toNat < (kernBase + 12 * mib).toNat → k.vmm.mmuTranslate va = some pa →
    ∀ r ∈ ranges, ¬ Overlaps (pa.toNat / 4096) r
  later : ∀ ops q, Run (Pmm.Later k.vmm.pmm) k.vmm.pmm ops q →
    ∀ r ∈ ranges, ¬ Overlaps q.nextBlock r

end Kernel

/-- The physical addresses that are handed out during and after boot: block 0, which stands for
no block as well, the 8 MB of the initial heap, and what is left above the one block that the
identity map takes. -/
def HandedOut (maxBlocks x : Nat) : Prop :=
  x < 4096 ∨ (0x400000 ≤ x ∧ x < 0xC00000) ∨ (0xC01000 ≤ x ∧ x < 4096 * (32 * (maxBlocks / 32)))

/-- The ranges avoid these addresses. -/
def Avoids (maxBlocks : Nat) (ranges : List (Nat × Nat)) : Prop :=
  ∀ r ∈ ranges, ∀ x, r.1 ≤ x → x < r.2 → ¬ HandedOut maxBlocks x

namespace Kernel

namespace Booted

variable {k₀ k : Kernel} {ranges : List (Nat × Nat)}

theorem heapBounds : (kernBase + 4 * mib).toNat = 0xC0400000 ∧
    (kernBase + 12 * mib).toNat = 0xC0C00000 := by decide

theorem safe_of_avoids (h : Booted k₀ k) (hroom : BootRoom k₀.vmm.pmm.bitmapEnd)
    (hfresh : k₀.vmm.pmm.PrefixUsed 0) (h20 : k₀.vmm.pmm.maxBlocks.toNat < 2 ^ 20)
    (hscan : 3072 ≤ k₀.vmm.pmm.scanned) (havoids : Avoids k₀.vmm.pmm.maxBlocks.toNat ranges) :
    BootMemorySafe k ranges := by
  obtain ⟨hbot, htop⟩ := heapBounds
  refine ⟨fun va pa hlo hhi hpa r hr => ?_, fun ops q hrun r hr => ?_⟩
  · rw [hbot] at hlo
    rw [htop] at hhi
    rw [(h.translate_linear hroom hfresh hscan (by rw [kernBase_toNat]; omega)
      (by rw [kernBase_toNat, mib_toNat]; omega)).2, Option.some.injEq] at hpa
    have hval : pa.toNat = va.toNat - 0xC0000000 := by
      rw [← hpa, BitVec.toNat_sub_of_le (BitVec.le_def.mpr (by rw [kernBase_toNat]; omega)),
        kernBase_toNat]
    rintro ⟨x, hx1, hx2, hx3, hx4⟩
    exact havoids r hr x hx1 hx2 (Or.inr (Or.inl (by omega)))
  · have hsc : k₀.vmm.pmm.scanned = 32 * (k₀.vmm.pmm.maxBlocks.toNat / 32) := rfl
    rintro ⟨x, hx1, hx2, hx3, hx4⟩
    rcases h.frame_of_later hfresh h20 hscan hrun with hzero | ⟨hge, hlt⟩
    · exact havoids r hr x hx1 hx2 (Or.inl (by omega))
    · exact havoids r hr x hx1 hx2 (Or.inr (Or.inr (by omega)))

theorem avoids_of_safe (h : Booted k₀ k) (hroom : BootRoom k₀.vmm.pmm.bitmapEnd)
    (hfresh : k₀.vmm.pmm.PrefixUsed 0) (h20 : k₀.vmm.pmm.maxBlocks.toNat < 2 ^ 20)
    (hscan : 3072 ≤ k₀.vmm.pmm.scanned) (hsafe : BootMemorySafe k ranges) :
    Avoids k₀.vmm.pmm.maxBlocks.toNat ranges := by
  have hsc : k₀.vmm.pmm.scanned = 32 * (k₀.vmm.pmm.maxBlocks.toNat / 32) := rfl
  intro r hr x hx1 hx2 hx
  have hoverlaps : Overlaps (x / 4096) r := ⟨x, hx1, hx2, by omega, by omega⟩
  have hlater : x / 4096 = 0 ∨ (3073 ≤ x / 4096 ∧ x / 4096 < k₀.vmm.pmm.scanned) → False := by
    intro hf
    obtain ⟨ops, q, hrun, hq⟩ := h.exists_later_frame hfresh h20 hscan hf
    exact hsafe.later ops q hrun r hr (by rwa [hq])
  rcases hx with hzero | ⟨hlo, hhi⟩ | ⟨hlo, hhi⟩
  · exact hlater (Or.inl (by omega))
  · -- the byte is under the heap page at `KERN_BASE + x`
    have hva : (BitVec.ofNat 32 (0xC0000000 + x)).toNat = 0xC0000000 + x := by
      rw [BitVec.toNat_ofNat, Nat.mod_eq_of_lt (by omega)]
    have hpa : (BitVec.ofNat 32 (0xC0000000 + x) - kernBase).toNat = x := by
      rw [BitVec.toNat_sub_of_le (BitVec.le_def.mpr (by rw [hva, kernBase_toNat]; omega)), hva,
        kernBase_toNat]
      omega
    obtain ⟨hbot, htop⟩ := heapBounds
    have hlinear := h.translate_linear hroom hfresh hscan
      (show kernBase.toNat ≤ (BitVec.ofNat 32 (0xC0000000 + x)).toNat by
        rw [hva, kernBase_toNat]
        omega)
      (by rw [hva, kernBase_toNat, mib_toNat]; omega)
    refine hsafe.heap _ _ ?_ ?_ hlinear.2 r hr ?_
    · rw [hbot, hva]
      omega
    · rw [htop, hva]
      omega
    · rwa [hpa]
  · exact hlater (Or.inr (by omega))

end Booted

section

variable {raw : Nat → U32} {kernelEndPhys : U32} {tags : List Mboot2Tag} {p : Pmm}

/-- `vmm_init` after `pmm_init`. -/
theorem booted_of_pmmInit (hp : pmmInit raw kernelEndPhys tags = some p)
    (hroom : BootRoom p.bitmapEnd) (hmax : 3072 ≤ p.maxBlocks.toNat) (mem : Mem)
    (kernelEndVirt : U32) (kmallocA : TableSource) :
    ∃ k, (loaded p mem kernelEndVirt).vmmInit kmallocA = some k ∧
      ∀ ranges, BootMemorySafe k ranges ↔ Avoids p.maxBlocks.toNat ranges := by
  have hscan : 3072 ≤ p.scanned := by
    unfold Pmm.scanned
    omega
  obtain ⟨h20, -⟩ := Pmm.pmmInit_eq_some hp
  obtain ⟨k, hk, hbooted⟩ := vmmInit_spec (show (loaded p mem kernelEndVirt).heap.kheapEnabled =
    false from rfl) rfl hroom kmallocA
  have hfresh := Pmm.prefixUsed_pmmInit hp
  exact ⟨k, hk, fun ranges => ⟨hbooted.avoids_of_safe hroom hfresh h20 hscan,
    hbooted.safe_of_avoids hroom hfresh h20 hscan⟩⟩

/--
**Boot memory.** With at least 12 MB of memory, and room for the boot tables below the top of the
address space, the kernel image, the modules and the bitmap are never handed out exactly when
they lie outside of what is handed out: above the first page and below 4 MB, in the block of the
identity map, or beyond the memory.
-/
theorem bootMemorySafe_iff (hp : pmmInit raw kernelEndPhys tags = some p)
    (hmax : 3072 ≤ p.maxBlocks.toNat)
    (hroom : BootRoom ((bitmapAt kernelEndPhys tags).toNat + (memBlocks tags / 8).toNat))
    (mem : Mem) (kernelEndVirt : U32) (kmallocA : TableSource) :
    ∃ k, (loaded p mem kernelEndVirt).vmmInit kmallocA = some k ∧
      (BootMemorySafe k (reserved kernelEndPhys tags p.pmmBitmap p.pmmBitmapSize) ↔
        Avoids (memBlocks tags).toNat
          (reserved kernelEndPhys tags (bitmapAt kernelEndPhys tags) (memBlocks tags / 8))) := by
  obtain ⟨hbitmap, hsize, hblocks⟩ := bitmap_of_pmmInit hp
  have hroom' : BootRoom p.bitmapEnd := by
    unfold Pmm.bitmapEnd
    rw [hbitmap, hsize]
    exact hroom
  obtain ⟨k, hk, hsafe⟩ := booted_of_pmmInit hp hroom' hmax mem kernelEndVirt kmallocA
  refine ⟨k, hk, ?_⟩
  rw [hbitmap, hsize, ← hblocks]
  exact hsafe _

theorem bootMemorySafe_iff_machine16 : ∃ k, machine16.vmmInit (fun _ _ => none) = some k ∧
    BootMemorySafe k [(0x100000, 0x180000), (0x180000, 0x180200)] := by
  obtain ⟨k, hk, hsafe⟩ := bootMemorySafe_iff pmmInit_eq_pmm16 (by decide) bootRoom_machine16
    (fun _ => 0) 0xC0180000 (fun _ _ => none)
  refine ⟨k, hk, hsafe.mpr ?_⟩
  intro r hr x hlo hhi hx
  have he : reserved 0x180000 [.basicMeminfo 640 15744]
      (bitmapAt 0x180000 [.basicMeminfo 640 15744]) (memBlocks [.basicMeminfo 640 15744] / 8) =
      [(0x100000, 0x180000), (0x180000, 0x180200)] := by decide
  have hblocks : (memBlocks [.basicMeminfo 640 15744]).toNat = 4096 := by decide
  rw [he, List.mem_cons, List.mem_singleton] at hr
  rw [HandedOut, hblocks] at hx
  rcases hr with rfl | rfl <;> omega

/-- One reserved byte among those that are handed out is enough. -/
theorem exists_not_bootMemorySafe (hp : pmmInit raw kernelEndPhys tags = some p)
    (hmax : 3072 ≤ p.maxBlocks.toNat) (hroom : BootRoom p.bitmapEnd) {r : Nat × Nat} {x : Nat}
    (hr : r ∈ reserved kernelEndPhys tags p.pmmBitmap p.pmmBitmapSize) (hlo : r.1 ≤ x)
    (hhi : x < r.2) (hx : HandedOut p.maxBlocks.toNat x) :
    ∃ p k, pmmInit raw kernelEndPhys tags = some p ∧ 3072 ≤ p.maxBlocks.toNat ∧
      (loaded p (fun _ => 0) 0xC0180000).vmmInit (fun _ _ => none) = some k ∧
      ¬ BootMemorySafe k (reserved kernelEndPhys tags p.pmmBitmap p.pmmBitmapSize) := by
  obtain ⟨k, hk, hsafe⟩ := booted_of_pmmInit hp hroom hmax (fun _ => 0) 0xC0180000
    (fun _ _ => none)
  exact ⟨p, k, hp, hmax, hk, fun hc => (hsafe _).mp hc r hr x hlo hhi hx⟩

/-- A module in the first page goes out with block 0 on a machine with 12400 KiB, whose last 28
blocks are never scanned. -/
theorem not_bootMemorySafe_of_module :
    ∃ p k, pmmInit (fun _ => 0) 0x180000 [.module 0 0x1000, .basicMeminfo 640 11760] = some p ∧
      3072 ≤ p.maxBlocks.toNat ∧
      (loaded p (fun _ => 0) 0xC0180000).vmmInit (fun _ _ => none) = some k ∧
      ¬ BootMemorySafe k (reserved 0x180000
        [.module 0 0x1000, .basicMeminfo 640 11760] p.pmmBitmap p.pmmBitmapSize) := by
  refine exists_not_bootMemorySafe
    (show _ = some ⟨3100, 0, 0xC0180000, 387, Bitmap.zeroBytes (fun _ => 0) 387⟩ from rfl)
    (by decide) (by unfold BootRoom bootDir; decide) (r := (0, 0x1000))
    (x := 0) ?_ (by decide) (by decide) (Or.inl (by decide))
  simp [reserved, Mboot2Tag.range]

end

end Kernel

end PiggyOS
