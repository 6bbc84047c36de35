import PiggyOS.Infra.Run
import PiggyOS.Pmm.Alloc

/-!
# The counter and the bitmap

`used_blocks` is kept beside the bitmap and is meant to count its set bits. Over the runs of
`pmm_alloc_block` and `pmm_free_block` this is so exactly when the number of blocks is a
positive multiple of 32: the scan works in whole words, so with a remainder it fails while
the counter still sees room, and block 0 is handed out and counted again. With no block at
all, the 0 of a failed allocation can be freed. (A single block happens to be block 0, which
the failing scan answers.)
-/

namespace PiggyOS.Pmm

open Infra

inductive Op
  | alloc
  | free (addr : U32)

/-- The memory manager together with the addresses returned by `pmm_alloc_block` and not
freed since. -/
structure Client where
  pmm : Pmm
  live : Finset U32

/-- One call; only an address that is live may be freed. -/
inductive Step : Client → Op → Client → Prop
  | alloc (s : Client) :
      Step s .alloc ⟨s.pmm.pmmAllocBlock.1, insert s.pmm.pmmAllocBlock.2 s.live⟩
  | free (s : Client) (addr : U32) (h : addr ∈ s.live) :
      Step s (.free addr) ⟨s.pmm.pmmFreeBlock addr, s.live.erase addr⟩

/-- The counter is the number of set bits, and an allocation would set a clear one. -/
def Accounted (p : Pmm) : Prop :=
  p.usedBlocks.toNat = Bitmap.count p.words p.maxBlocks.toNat ∧
    (¬ p.maxBlocks - p.usedBlocks ≤ 0 → p.used p.firstFreeBlock.toNat = false)

/-! ## The invariant -/

/-- The counter is right and every live address is one of a block that is handed out. -/
structure Client.Ok (mb : Nat) (s : Client) : Prop where
  maxBlocks : s.pmm.maxBlocks.toNat = mb
  counter : s.pmm.usedBlocks.toNat = Bitmap.count s.pmm.words mb
  live : ∀ addr ∈ s.live, addr.toNat % 4096 = 0 ∧ addr.toNat / 4096 < mb ∧
    s.pmm.used (addr.toNat / 4096) = true

variable {s : Client} {mb : Nat}

theorem full_iff (p : Pmm) : p.maxBlocks - p.usedBlocks ≤ 0 ↔ p.maxBlocks = p.usedBlocks := by
  constructor <;> intro h <;> bv_omega

/-- While the counter sees room, the scan finds a clear block below the limit. -/
theorem Client.Ok.firstFree_clear (h : s.Ok mb) (hmb : mb % 32 = 0 ∨ mb = 1)
    (hroom : s.pmm.maxBlocks ≠ s.pmm.usedBlocks) :
    s.pmm.firstFreeBlock.toNat < mb ∧ s.pmm.used s.pmm.firstFreeBlock.toNat = false := by
  have hlt : Bitmap.count s.pmm.words mb < mb := by
    have hle := Bitmap.count_le s.pmm.words mb
    have hne : s.pmm.maxBlocks.toNat ≠ s.pmm.usedBlocks.toNat := fun he => hroom (by bv_omega)
    rw [h.maxBlocks, h.counter] at hne
    omega
  obtain ⟨c, hc, hclear⟩ := Bitmap.exists_clear_of_count_lt hlt
  have hsc : s.pmm.scanned = 32 * (mb / 32) := by unfold scanned; rw [h.maxBlocks]
  rcases s.pmm.firstFreeBlock_cases with ⟨b, hb, hbc, -, he⟩ | ⟨hall, he⟩
  · have hb32 : (BitVec.ofNat 32 b).toNat = b := by
      rw [BitVec.toNat_ofNat, Nat.mod_eq_of_lt (Nat.lt_trans hb s.pmm.scanned_lt)]
    rw [he, hb32]
    exact ⟨by omega, hbc⟩
  · -- nothing found: with whole words that is impossible, with one block it is block 0
    rcases hmb with hmb | hmb
    · have hset := hall c (by omega)
      rw [used, hclear] at hset
      simp at hset
    · have hc0 : c = 0 := by omega
      rw [hc0] at hclear
      rw [he]
      exact ⟨by rw [hmb]; decide, hclear⟩

theorem Client.Ok.accounted (h : s.Ok mb) (hmb : mb % 32 = 0 ∨ mb = 1) : Accounted s.pmm := by
  refine ⟨by rw [h.counter, h.maxBlocks], fun hroom => ?_⟩
  exact (h.firstFree_clear hmb fun he => hroom ((full_iff _).mpr he)).2

theorem Client.Ok.alloc (h : s.Ok mb) (hmb : mb % 32 = 0 ∨ mb = 1) (h0 : 0 < mb)
    (h20 : mb < 2 ^ 20) :
    Client.Ok mb ⟨s.pmm.pmmAllocBlock.1, insert s.pmm.pmmAllocBlock.2 s.live⟩ := by
  by_cases hroom : s.pmm.maxBlocks = s.pmm.usedBlocks
  · -- no room: all blocks are handed out, so the 0 that is returned is block 0
    have hres : s.pmm.pmmAllocBlock = (s.pmm, 0) := by
      unfold pmmAllocBlock; rw [if_pos ((full_iff _).mpr hroom)]
    rw [hres]
    refine ⟨h.maxBlocks, h.counter, ?_⟩
    intro addr haddr
    rcases Finset.mem_insert.mp haddr with rfl | hmem
    · show 0 % 4096 = 0 ∧ 0 / 4096 < mb ∧ s.pmm.used (0 / 4096) = true
      rw [Nat.zero_div]
      refine ⟨rfl, h0, Bitmap.bit_of_count_eq (n := mb) ?_ h0⟩
      rw [← h.counter, ← hroom, h.maxBlocks]
    · exact h.live addr hmem
  · obtain ⟨hlt, hclear⟩ := h.firstFree_clear hmb hroom
    have hres : s.pmm.pmmAllocBlock
        = (s.pmm.pmmBitmapSet s.pmm.firstFreeBlock, s.pmm.firstFreeBlock * pageSize) := by
      unfold pmmAllocBlock; rw [if_neg (fun hc => hroom ((full_iff _).mp hc))]
    rw [hres]
    refine ⟨h.maxBlocks, ?_, ?_⟩
    · show (s.pmm.usedBlocks + 1).toNat
        = Bitmap.count (Bitmap.setBit s.pmm.words s.pmm.firstFreeBlock.toNat) mb
      have hle := Bitmap.count_le s.pmm.words mb
      have hcnt := h.counter
      rw [Bitmap.count_setBit hlt hclear]
      bv_omega
    · intro addr haddr
      rw [used_pmmBitmapSet]
      rcases Finset.mem_insert.mp haddr with rfl | hmem
      · have hnum : (s.pmm.firstFreeBlock * pageSize).toNat / 4096
            = s.pmm.firstFreeBlock.toNat := by
          rw [BitVec.toNat_mul, pageSize_toNat]
          omega
        rw [hnum]
        refine ⟨?_, hlt, by simp⟩
        rw [BitVec.toNat_mul, pageSize_toNat]
        omega
      · obtain ⟨h1, h2, h3⟩ := h.live addr hmem
        exact ⟨h1, h2, by simp [h3]⟩

theorem Client.Ok.free (h : s.Ok mb) {addr : U32} (haddr : addr ∈ s.live) :
    Client.Ok mb ⟨s.pmm.pmmFreeBlock addr, s.live.erase addr⟩ := by
  obtain ⟨halign, hlt, hset⟩ := h.live addr haddr
  have hdiv : (addr / pageSize).toNat = addr.toNat / 4096 := BitVec.toNat_udiv
  refine ⟨h.maxBlocks, ?_, ?_⟩
  · show (s.pmm.usedBlocks - 1).toNat
      = Bitmap.count (Bitmap.clearBit s.pmm.words (addr / pageSize).toNat) mb
    rw [hdiv]
    have hback := Bitmap.count_clearBit hlt hset
    have hcnt := h.counter
    bv_omega
  · intro a ha
    obtain ⟨hne, hmem⟩ := Finset.mem_erase.mp ha
    obtain ⟨h1, h2, h3⟩ := h.live a hmem
    refine ⟨h1, h2, ?_⟩
    show (s.pmm.pmmBitmapUnset (addr / pageSize)).used _ = true
    rw [used_pmmBitmapUnset, hdiv, h3, Bool.and_true, Bool.not_eq_true', decide_eq_false_iff_not]
    intro he
    exact hne (BitVec.eq_of_toNat_eq (by omega))

theorem Client.Ok.step (hmb : mb % 32 = 0 ∨ mb = 1) (h0 : 0 < mb) (h20 : mb < 2 ^ 20)
    {s t : Client} {op : Op} (h : s.Ok mb) (hstep : Step s op t) : t.Ok mb := by
  cases hstep with
  | alloc => exact h.alloc hmb h0 h20
  | free addr haddr => exact h.free haddr

/-! ## Where the counter goes wrong -/

/-- The states of a run that only allocates. -/
def allocated (p : Pmm) : Nat → Client
  | 0 => ⟨p, ∅⟩
  | n + 1 => ⟨(allocated p n).pmm.pmmAllocBlock.1,
      insert (allocated p n).pmm.pmmAllocBlock.2 (allocated p n).live⟩

theorem run_allocated (p : Pmm) (n : Nat) :
    Run Step ⟨p, ∅⟩ ((List.range n).map fun _ => Op.alloc) (allocated p n) :=
  Run.exists_of_chain (allocated p) (fun _ => Op.alloc) fun m _ => Step.alloc (allocated p m)

theorem pmm_allocated (p : Pmm) (n : Nat) : (allocated p n).pmm = p.allocs n := by
  induction n with
  | zero => rfl
  | succ n ih =>
    rw [allocated, ih]
    rfl

/-- Once all whole words are full while the counter is below the limit, an allocation marks
block 0, which is handed out already. -/
theorem not_accounted_of_full {p : Pmm} (hroom : p.maxBlocks ≠ p.usedBlocks)
    (hall : ∀ b < p.scanned, p.used b = true) (h0 : p.used 0 = true) : ¬ Accounted p := by
  rintro ⟨-, hclear⟩
  have hfree : p.firstFreeBlock = 0 := by
    rcases p.firstFreeBlock_cases with ⟨b, hb, hbc, -⟩ | ⟨-, he⟩
    · rw [hall b hb] at hbc; simp at hbc
    · exact he
  have := hclear fun hc => hroom ((full_iff p).mp hc)
  rw [hfree] at this
  exact absurd (h0.symm.trans this) (by simp)

/-- A remainder of blocks beyond the last whole word breaks the accounting. -/
theorem exists_not_accounted_of_remainder {p : Pmm} (h : PrefixUsed p 0)
    (hrem : p.maxBlocks.toNat % 32 ≠ 0) (h1 : p.maxBlocks.toNat ≠ 1) :
    ∃ ops s, Run Step ⟨p, ∅⟩ ops s ∧ ¬ Accounted s.pmm := by
  by_cases hk : p.maxBlocks.toNat < 32
  · -- no whole word at all: the first allocation marks block 0, the second one again
    refine ⟨_, _, run_allocated p 1, ?_⟩
    have hsc : p.scanned = 0 := by unfold scanned; omega
    have hne : p.maxBlocks ≠ p.usedBlocks := by
      intro he
      have := h.counter
      rw [← he] at this
      omega
    have hres : p.pmmAllocBlock = (p.pmmBitmapSet 0, 0) := by
      rcases p.pmmAllocBlock_cases with ⟨he, -⟩ | ⟨-, b, hb, -⟩ | ⟨-, -, -, hres⟩
      · exact absurd he hne
      · omega
      · exact hres
    show ¬ Accounted p.pmmAllocBlock.1
    rw [hres]
    refine not_accounted_of_full ?_ (fun b hb => absurd hb ?_) (by rw [used_pmmBitmapSet]; simp)
    · show p.maxBlocks ≠ p.usedBlocks + 1
      have := h.counter
      intro he
      have := congrArg BitVec.toNat he
      rw [BitVec.toNat_add, h.counter] at this
      simp at this
      omega
    · show ¬ b < p.scanned
      omega
  · -- after all the whole words are used up, the next one marks block 0 again
    obtain ⟨hpre, hmax⟩ := h.allocs (n := p.scanned) (by omega)
    rw [Nat.zero_add] at hpre
    refine ⟨_, _, run_allocated p p.scanned, ?_⟩
    rw [pmm_allocated]
    have hpos : 0 < p.scanned := by unfold scanned; omega
    refine not_accounted_of_full ?_ (fun b hb => hpre.below b ?_) (hpre.below 0 hpos)
    · intro he
      have := hpre.counter
      rw [← he, hmax] at this
      unfold scanned at this
      omega
    · rw [scanned_congr hmax] at hb
      exact hb

/-- With no block at all, the 0 of a failed allocation can be freed. -/
theorem exists_not_accounted_of_empty {p : Pmm} (hmax : p.maxBlocks = 0)
    (hused : p.usedBlocks = 0) : ∃ ops s, Run Step ⟨p, ∅⟩ ops s ∧ ¬ Accounted s.pmm := by
  have hres : p.pmmAllocBlock = (p, 0) := by
    unfold pmmAllocBlock
    rw [if_pos ((full_iff p).mpr (by rw [hmax, hused]))]
  have hmem : (0 : U32) ∈ (allocated p 1).live := by
    show 0 ∈ insert p.pmmAllocBlock.2 ∅
    rw [hres]
    exact Finset.mem_insert_self _ _
  refine ⟨_, _, .snoc (run_allocated p 1) (Step.free _ 0 hmem), ?_⟩
  rintro ⟨hcnt, -⟩
  dsimp only at hcnt
  have hlhs : (((allocated p 1).pmm.pmmFreeBlock 0).usedBlocks).toNat = 2 ^ 32 - 1 := by
    show (p.pmmAllocBlock.1.usedBlocks - 1).toNat = _
    rw [hres, hused]
    rfl
  have hrhs := Bitmap.count_le ((allocated p 1).pmm.pmmFreeBlock 0).words
    ((allocated p 1).pmm.pmmFreeBlock 0).maxBlocks.toNat
  have hm : ((allocated p 1).pmm.pmmFreeBlock 0).maxBlocks.toNat = 0 := by
    show p.pmmAllocBlock.1.maxBlocks.toNat = 0
    rw [hres, hmax]
    rfl
  omega

/-! ## The accounting theorem -/

section

variable {raw : Nat → U32} {kernelEndPhys : U32} {tags : List Mboot2Tag} {p : Pmm}
  (hp : pmmInit raw kernelEndPhys tags = some p)

include hp

/-- `pmm_init` clears whole bytes only. -/
theorem used_pmmInit (b : Nat) :
    p.used b = (decide (8 * (p.maxBlocks.toNat / 8) ≤ b) && Bitmap.bit raw b) := by
  obtain ⟨-, -, -, -, hwords⟩ := pmmInit_eq_some hp
  rw [used, hwords, Bitmap.bit_zeroBytes]

/-- With a single block the first allocation answers with the bit that was not cleared. -/
theorem clear_of_accounted (h1 : p.maxBlocks.toNat = 1) (hacc : Accounted p) :
    (raw 0).getLsbD 0 = false := by
  obtain ⟨-, hused, -, -, -⟩ := pmmInit_eq_some hp
  obtain ⟨-, hclear⟩ := hacc
  have hfree : p.firstFreeBlock = 0 := by
    rcases p.firstFreeBlock_cases with ⟨b, hb, -⟩ | ⟨-, he⟩
    · unfold scanned at hb; omega
    · exact he
  have hc := hclear fun hc => by
    have hzero := (full_iff p).mp hc
    rw [hused] at hzero
    have hn := congrArg BitVec.toNat hzero
    rw [h1] at hn
    exact absurd hn (by decide)
  rw [hfree] at hc
  have hb0 := (used_pmmInit hp 0).symm.trans hc
  rwa [decide_eq_true (by omega), Bool.true_and] at hb0

/-- No bit of a block is set at first. -/
theorem ok_pmmInit (hcond : p.maxBlocks.toNat % 32 = 0 ∨
    (p.maxBlocks.toNat = 1 ∧ (raw 0).getLsbD 0 = false)) :
    Client.Ok p.maxBlocks.toNat ⟨p, ∅⟩ := by
  obtain ⟨-, hused, -, -, -⟩ := pmmInit_eq_some hp
  refine ⟨rfl, ?_, fun addr h => absurd h (Finset.notMem_empty _)⟩
  show p.usedBlocks.toNat = _
  rw [hused, Bitmap.count_eq_zero]
  · rfl
  · intro b hb
    show p.used b = false
    rw [used_pmmInit hp]
    rcases hcond with h | ⟨h1, hraw⟩
    · rw [decide_eq_false (by omega), Bool.false_and]
    · have hb0 : b = 0 := by omega
      rw [hb0, show Bitmap.bit raw 0 = false from hraw, Bool.and_false]

end

/--
**When the accounting is right.** From a fresh `pmm_init`, over all runs in which only live
addresses are freed, the counter always equals the number of set bits and no allocation sets
a set bit, if and only if the number of blocks is a positive multiple of 32 (or is 1, with
the bit that `pmm_init` does not clear found clear).
-/
theorem accounted_iff {raw : Nat → U32} {kernelEndPhys : U32} {tags : List Mboot2Tag} {p : Pmm}
    (hp : pmmInit raw kernelEndPhys tags = some p) :
    (∀ ops s, Run Step ⟨p, ∅⟩ ops s → Accounted s.pmm) ↔
      (p.maxBlocks ≠ 0 ∧ p.maxBlocks.toNat % 32 = 0) ∨
        (p.maxBlocks = 1 ∧ (raw 0).getLsbD 0 = false) := by
  obtain ⟨h20, hused, -, -, -⟩ := pmmInit_eq_some hp
  have hpre : PrefixUsed p 0 := prefixUsed_pmmInit hp
  have hone : p.maxBlocks = 1 ↔ p.maxBlocks.toNat = 1 := by
    constructor <;> intro h <;> bv_omega
  have hzero : p.maxBlocks = 0 ↔ p.maxBlocks.toNat = 0 := by
    constructor <;> intro h <;> bv_omega
  rw [ne_eq, hone, hzero]
  constructor
  · intro hall
    by_cases h0 : p.maxBlocks.toNat = 0
    · obtain ⟨ops, s, hrun, hbad⟩ := exists_not_accounted_of_empty (hzero.mpr h0) hused
      exact absurd (hall ops s hrun) hbad
    · by_cases hrem : p.maxBlocks.toNat % 32 = 0
      · exact Or.inl ⟨h0, hrem⟩
      · by_cases h1 : p.maxBlocks.toNat = 1
        · exact Or.inr ⟨h1, clear_of_accounted hp h1 (hall [] _ (.nil _))⟩
        · obtain ⟨ops, s, hrun, hbad⟩ := exists_not_accounted_of_remainder hpre hrem h1
          exact absurd (hall ops s hrun) hbad
  · intro hcond ops s hrun
    have hmb : p.maxBlocks.toNat % 32 = 0 ∨ p.maxBlocks.toNat = 1 :=
      hcond.imp And.right And.left
    have h0 : 0 < p.maxBlocks.toNat := by omega
    have hinit := ok_pmmInit hp (hcond.imp_left And.right)
    exact (hrun.invariant (Client.Ok p.maxBlocks.toNat)
      (fun s op t hs hstep => hs.step hmb h0 h20 hstep) hinit).accounted hmb

/-- A machine with 16 MiB, 4096 blocks, keeps its accounts. -/
theorem accounted_of_4096_blocks :
    ∃ p, pmmInit (fun _ => 0) 0x180000#32 [.basicMeminfo 640#32 15744#32] = some p ∧
      ∀ ops s, Run Step ⟨p, ∅⟩ ops s → Accounted s.pmm := by
  refine ⟨_, rfl, ?_⟩
  exact (accounted_iff
    (rfl : pmmInit (fun _ => 0) 0x180000#32 [.basicMeminfo 640#32 15744#32] = some _)).mpr
    (Or.inl ⟨by decide, by decide⟩)

/-- A machine with 512 MiB has 130941 blocks, 29 more than whole words: it does not. -/
theorem not_accounted_of_130941_blocks :
    ∃ p, pmmInit (fun _ => 0) 0x180000#32 [.basicMeminfo 639#32 523128#32] = some p ∧
      ∃ ops s, Run Step ⟨p, ∅⟩ ops s ∧ ¬ Accounted s.pmm := by
  refine ⟨_, rfl, ?_⟩
  exact exists_not_accounted_of_remainder (prefixUsed_pmmInit
    (rfl : pmmInit (fun _ => 0) 0x180000#32 [.basicMeminfo 639#32 523128#32] = some _))
    (by decide) (by decide)

end PiggyOS.Pmm
