import Mathlib.Data.List.MinMax
import PiggyOS.Kheap.Layout

/-!
# The search for a free block

`bestfit` walks the free list to its end and keeps the smallest block that fits, the first one
where there are several.

* `FreeList.bestfit_spec` — what it answers for a well-formed free list
* `Layout.bestfit_spec`, `Layout.bestfit_eq_zero_iff` — what that says about the blocks of a
  laid-out heap
* `bestfit_eq_argmin` — which one of the smallest it is, for any chain of free blocks
-/

namespace PiggyOS

open Infra

namespace Heap

variable {h : Heap} {bs : List Block} {L : List U32} {b : Block} {best size : U32}

/-- What the loop of `bestfit` makes of the block `curr`. -/
def better (h : Heap) (size currBest curr : U32) : U32 :=
  if h.doesItFit curr size && (currBest = 0 || h.size curr < h.size currBest) then curr
  else currBest

/-- `best` is what `bestfit` looks for among the blocks in `L`. -/
def IsBest (h : Heap) (size : U32) (L : List U32) (best : U32) : Prop :=
  (best = 0 ∧ ∀ a ∈ L, h.doesItFit a size = false) ∨
    (best ∈ L ∧ h.doesItFit best size = true ∧
      ∀ a ∈ L, h.doesItFit a size = true → h.size best ≤ h.size a)

/-- What is best among the blocks of `L` and `a`. -/
theorem isBest_append {a : U32} (hb : best ∈ L ++ [a]) (hbfit : h.doesItFit best size = true)
    (hall : ∀ c ∈ L, h.doesItFit c size = true → h.size best ≤ h.size c)
    (hle : h.doesItFit a size = true → h.size best ≤ h.size a) :
    IsBest h size (L ++ [a]) best := by
  refine Or.inr ⟨hb, hbfit, fun c hc hcfit => ?_⟩
  rcases List.mem_append.mp hc with hc | hc
  · exact hall c hc hcfit
  · obtain rfl := List.mem_singleton.mp hc
    exact hle hcfit

theorem isBest_foldl (h : Heap) (size : U32) (h0 : 0 ∉ L) :
    IsBest h size L (L.foldl (h.better size) 0) := by
  -- the loop goes on at the end of what it has looked at
  induction L using List.reverseRecOn with
  | nil => exact Or.inl ⟨rfl, by simp⟩
  | append_singleton L a ih =>
    have ih := ih fun hm => h0 (List.mem_append_left _ hm)
    have ha : a ∈ L ++ [a] := by simp
    rw [List.foldl_append, List.foldl_cons, List.foldl_nil]
    generalize L.foldl (h.better size) 0 = best at ih
    unfold better
    cases hfit : h.doesItFit a size with
    | false =>
      rw [Bool.false_and, if_neg (by decide)]
      rcases ih with ⟨hb, hall⟩ | ⟨hb, hbfit, hall⟩
      · exact Or.inl ⟨hb, by simpa [or_imp, forall_and, hfit] using hall⟩
      · refine isBest_append (List.mem_append_left _ hb) hbfit hall fun hc => ?_
        rw [hfit] at hc
        cases hc
    | true =>
      rw [Bool.true_and]
      rcases ih with ⟨rfl, hall⟩ | ⟨hb, hbfit, hall⟩
      · -- the first one that fits
        rw [if_pos (by simp)]
        refine isBest_append ha hfit (fun c hc hcfit => ?_) fun _ => BitVec.le_refl _
        rw [hall c hc] at hcfit
        cases hcfit
      · have hb0 : best ≠ 0 := fun he => h0 (he ▸ List.mem_append_left _ hb)
        by_cases hlt : h.size a < h.size best
        · rw [if_pos (by simp [hlt])]
          exact isBest_append ha hfit
            (fun c hc hcfit => BitVec.le_trans (BitVec.le_of_lt hlt) (hall c hc hcfit))
            fun _ => BitVec.le_refl _
        · -- the block before stays, also where `a` is of the same size
          rw [if_neg (by simpa [hlt] using hb0)]
          exact isBest_append (List.mem_append_left _ hb) hbfit hall
            fun _ => BitVec.not_lt.mp hlt

/-- **`bestfit` comes back with the smallest block that fits, and with NULL if there is none.** -/
theorem FreeList.bestfit_spec (hL : FreeList h L) (size : U32) :
    ∃ best, h.bestfit size = some best ∧ IsBest h size L best := by
  refine ⟨L.foldl (h.better size) 0, ?_, isBest_foldl h size hL.zero⟩
  have hlen := length_lt_of_nodup hL.nodup fun a ha he => hL.zero (he ▸ ha)
  have hwalk := loop_linked hL.linked hL.zero (h.better size) (addressCount + 1)
    (by unfold addressCount; omega) 0
  unfold bestfit
  rw [hL.head]
  exact congrArg (Option.map (·.2)) hwalk

/-- A block of a laid-out heap fits by its real size. -/
theorem Layout.doesItFit_iff (hl : Layout h bs L) (hb : b ∈ bs) : h.doesItFit b.addr size = true ↔
    b.free = true ∧ (getRealSize size).toNat ≤ b.real := by
  have hreal := b.size_toNat
  have heven := getRealSize_toNat size
  have hbeven := b.real_eq
  unfold doesItFit
  rw [hl.isFree_eq hb, hl.size b hb, Bool.and_eq_true, and_comm, decide_eq_true_eq, ge_iff_le,
    BitVec.le_def]
  refine and_congr_right fun hf => ?_
  rw [if_pos hf] at hreal
  omega

theorem Layout.bestfit_spec (hl : Layout h bs L) (hbest : h.bestfit size = some best)
    (hne : best ≠ 0) : ∃ b ∈ bs, b.addr = best ∧ b.free = true ∧
      (getRealSize size).toNat ≤ b.real ∧
      ∀ c ∈ bs, c.free = true → (getRealSize size).toNat ≤ c.real → b.real ≤ c.real := by
  obtain ⟨best', hbest', hspec⟩ := hl.freeList.bestfit_spec size
  obtain rfl : best = best' := Option.some.inj (hbest.symm.trans hbest')
  obtain ⟨hmem, hfit, hall⟩ := hspec.resolve_left fun hc => hne hc.1
  obtain ⟨b, hb, -, rfl⟩ := hl.mem_list_iff.mp hmem
  obtain ⟨hf, hle⟩ := (hl.doesItFit_iff hb).mp hfit
  refine ⟨b, hb, rfl, hf, hle, fun c hc hcf hcle => ?_⟩
  have hsize := hall c.addr (hl.mem_list hc hcf) ((hl.doesItFit_iff hc).mpr ⟨hcf, hcle⟩)
  rw [hl.size b hb, hl.size c hc, BitVec.le_def, b.size_toNat, c.size_toNat, hf, hcf] at hsize
  omega

/-- There is none exactly when no free block is large enough. -/
theorem Layout.bestfit_eq_zero_iff (hl : Layout h bs L) (hbest : h.bestfit size = some best) :
    best = 0 ↔ ∀ b ∈ bs, b.free = true → b.real < (getRealSize size).toNat := by
  constructor
  · rintro rfl b hb hf
    obtain ⟨best, hbest', hspec⟩ := hl.freeList.bestfit_spec size
    obtain rfl := Option.some.inj (hbest.symm.trans hbest')
    rcases hspec with ⟨-, hnone⟩ | ⟨hmem, -⟩
    · by_contra hc
      have hfit := (hl.doesItFit_iff hb).mpr ⟨hf, Nat.le_of_not_lt hc⟩
      rw [hnone b.addr (hl.mem_list hb hf)] at hfit
      cases hfit
    · exact absurd hmem hl.freeList.zero
  · intro hall
    by_contra hne
    obtain ⟨b, hb, -, hf, hfit, -⟩ := hl.bestfit_spec hbest hne
    exact absurd (hall b hb hf) (Nat.not_lt.mpr hfit)

/-! ## The first one of the smallest -/

/-- The real size of the block at `a`. -/
def realAt (h : Heap) (a : U32) : Nat := (getRealSize (h.size a)).toNat

/-- The blocks in `L` that a request of `size` bytes fits into, in the order of the list. -/
def fitting (h : Heap) (size : U32) (L : List U32) : List U32 :=
  L.filter fun a => size.toNat ≤ h.realAt a

variable {a : U32} {o : Option U32}

/-- With bit 0 set in the size word of the block and clear in the request, the test compares the
real sizes. -/
theorem doesItFit_of_odd (ha : a ≠ 0) (hfree : h.size a &&& 1 ≠ 0) (hsize : size.toNat % 2 = 0) :
    h.doesItFit a size = decide (size.toNat ≤ h.realAt a) := by
  have hodd := (and_one_ne_zero_iff _).mp hfree
  have hreal := getRealSize_toNat (h.size a)
  have heven := getRealSize_toNat size
  unfold doesItFit isFree realAt
  rw [decide_eq_true ha, decide_eq_true hfree, Bool.and_self, Bool.and_true, decide_eq_decide,
    ge_iff_le, BitVec.le_def]
  omega

/-- Size words with bit 0 set are in the order of the real sizes. -/
theorem size_lt_iff {c : U32} (ha : h.size a &&& 1 ≠ 0) (hc : h.size c &&& 1 ≠ 0) :
    h.size a < h.size c ↔ h.realAt a < h.realAt c := by
  have haodd := (and_one_ne_zero_iff _).mp ha
  have hcodd := (and_one_ne_zero_iff _).mp hc
  have hareal := getRealSize_toNat (h.size a)
  have hcreal := getRealSize_toNat (h.size c)
  unfold realAt
  rw [BitVec.lt_def]
  omega

/-- The step of `List.argmin`, with NULL for no block so far. -/
theorem better_eq_argAux (ho : ∀ c ∈ o, c ≠ 0 ∧ h.size c &&& 1 ≠ 0) (ha : a ≠ 0)
    (hfree : h.size a &&& 1 ≠ 0) (hsize : size.toNat % 2 = 0) :
    h.better size (o.getD 0) a = (if size.toNat ≤ h.realAt a then
      List.argAux (fun b c => h.realAt b < h.realAt c) o a else o).getD 0 := by
  unfold better
  rw [doesItFit_of_odd ha hfree hsize]
  by_cases hfit : size.toNat ≤ h.realAt a
  · rw [if_pos hfit, decide_eq_true hfit, Bool.true_and]
    cases o with
    | none => rfl
    | some c =>
      obtain ⟨hc, hcfree⟩ := ho c rfl
      have hlt := size_lt_iff hfree hcfree
      rw [Option.getD_some, decide_eq_false hc, Bool.false_or]
      simp only [decide_eq_true_eq, hlt, List.argAux]
      split <;> rfl
  · rw [if_neg hfit, decide_eq_false hfit, Bool.false_and]
    rfl

theorem foldl_better (hL : ∀ a ∈ L, a ≠ 0 ∧ h.size a &&& 1 ≠ 0) (hsize : size.toNat % 2 = 0)
    (ho : ∀ c ∈ o, c ≠ 0 ∧ h.size c &&& 1 ≠ 0) :
    L.foldl (h.better size) (o.getD 0) =
      ((h.fitting size L).foldl (List.argAux fun b c => h.realAt b < h.realAt c) o).getD 0 := by
  -- over the list, with the best so far of any kind
  induction L generalizing o with
  | nil => rfl
  | cons a L ih =>
    obtain ⟨ha, hfree⟩ := hL a List.mem_cons_self
    have hrest := fun c hc => hL c (List.mem_cons_of_mem a hc)
    unfold fitting at ih ⊢
    rw [List.foldl_cons, better_eq_argAux ho ha hfree hsize, List.filter_cons]
    simp only [decide_eq_true_eq]
    split
    · refine ih hrest fun c hc => ?_
      cases o with
      | none =>
        obtain rfl : a = c := Option.some.inj hc
        exact ⟨ha, hfree⟩
      | some b =>
        unfold List.argAux at hc
        dsimp only at hc
        split at hc
        · obtain rfl : a = c := Option.some.inj hc
          exact ⟨ha, hfree⟩
        · exact ho c hc
    · exact ih hrest ho

/-- **`bestfit` finds the first one of the smallest blocks that fit**, for any chain of blocks that
are marked free: NULL when the request fits into none, and else the block of least real size that
comes first. -/
theorem bestfit_eq_argmin (hL : Follows h.next 0 h.freelist L)
    (hfree : ∀ a ∈ L, h.size a &&& 1 ≠ 0) (hsize : 16 ∣ size.toNat) :
    ∃ best, h.bestfit size = some best ∧ (best = 0 ↔ ∀ a ∈ L, h.realAt a < size.toNat) ∧
      (best ≠ 0 → best ∈ (h.fitting size L).argmin h.realAt) := by
  have h0 := hL.notMem
  have hmem : ∀ a ∈ L, a ≠ 0 ∧ h.size a &&& 1 ≠ 0 :=
    fun a ha => ⟨ne_of_mem_of_not_mem ha h0, hfree a ha⟩
  have hlen := length_lt_of_nodup hL.nodup fun a ha => (hmem a ha).1
  have hwalk := loop_follows hL (h.better size) (addressCount + 1) (by unfold addressCount; omega) 0
  -- the loop is the fold that `argmin` is defined by
  have hfold : L.foldl (h.better size) 0 = ((h.fitting size L).argmin h.realAt).getD 0 :=
    foldl_better hmem (by omega) (o := none) fun c hc => nomatch hc
  have hbestfit : h.bestfit size = some (((h.fitting size L).argmin h.realAt).getD 0) := by
    rw [← hfold]
    exact congrArg (Option.map (·.2)) hwalk
  refine ⟨_, hbestfit, ?_⟩
  cases hmin : (h.fitting size L).argmin h.realAt with
  | none =>
    have hnone : h.fitting size L = [] := List.argmin_eq_none.mp hmin
    refine ⟨⟨fun _ a ha => ?_, fun _ => rfl⟩, fun hne => absurd rfl hne⟩
    have hout := List.filter_eq_nil_iff.mp hnone a ha
    simpa using hout
  | some best =>
    have hbest := List.mem_filter.mp (List.argmin_mem (Option.mem_def.mpr hmin))
    have hfit : size.toNat ≤ h.realAt best := of_decide_eq_true hbest.2
    refine ⟨⟨fun hc => absurd hc (hmem best hbest.1).1, fun hall => ?_⟩, fun _ => rfl⟩
    exact absurd (hall best hbest.1) (Nat.not_lt.mpr hfit)

/-- Three free blocks, the second and the third one of them of 32 bytes. -/
def tieHeap : Heap :=
  { ((((Kernel.bare.heap.setSize 0x1000 65).setNext 0x1000 0x1180).setSize 0x1180 33).setNext 0x1180
    0x1300).setSize 0x1300 33 with freelist := 0x1000 }

theorem follows_tieHeap : Follows tieHeap.next 0 tieHeap.freelist [0x1000, 0x1180, 0x1300] := by
  refine ⟨rfl, by decide, by decide +kernel, by decide, by decide +kernel, by decide, ?_⟩
  show tieHeap.next 0x1300 = 0
  decide +kernel

theorem bestfit_eq_argmin_tieHeap : tieHeap.bestfit 32 = some 0x1180 := by
  have hfree : ∀ a ∈ [0x1000, 0x1180, 0x1300], tieHeap.size a &&& 1 ≠ 0 := by
    simp only [List.forall_mem_cons, List.not_mem_nil, false_imp_iff, implies_true, and_true]
    decide +kernel
  obtain ⟨best, hbest, hnull, hmin⟩ :=
    bestfit_eq_argmin follows_tieHeap hfree (show 16 ∣ (32 : U32).toNat by decide)
  have hne : best ≠ 0 := fun hc => absurd (hnull.mp hc 0x1180 (by simp)) (by decide +kernel)
  have hargmin : (tieHeap.fitting 32 [0x1000, 0x1180, 0x1300]).argmin tieHeap.realAt =
      some 0x1180 := by decide +kernel
  have hmem := hmin hne
  rw [hargmin] at hmem
  rw [hbest, Option.some.inj hmem]

end Heap

end PiggyOS
