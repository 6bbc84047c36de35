import PiggyOS.Infra.Chain
import PiggyOS.Infra.Within
import PiggyOS.Kheap.Alloc

/-!
# The free list

The free list is a chain from `freelist` along `next`, doubly linked through `prev`, with NULL at
both ends. Its two operations change no more than the links of its members, and anything that
stays clear of the links leaves it as it is.

* `FreeList.remove`, `FreeList.add` — the chain after `removeNodeFromFreelist` and
  `addNodeToFreelist`
* `FreeList.congr` — what is written elsewhere
* `freelist_surgery` — both operations on any free list, and one after the other
-/

namespace PiggyOS

open Infra

namespace Heap

variable {h h' : Heap} {L : List U32} {x y v : U32} {s : Set U32}

/-- The headers of different blocks do not overlap. -/
def Spaced (L : List U32) : Prop := ∀ a ∈ L, ∀ b ∈ L, a ≠ b → 12 ≤ (a - b).toNat

/-- The bytes of `prev` and `next` of the blocks in `L`. -/
def links (L : List U32) : Set U32 := {x | ∃ a ∈ L, x ∈ bytes (a + 4) 8}

/-- The free list is the chain of the blocks in `L`. -/
structure FreeList (h : Heap) (L : List U32) : Prop where
  head : h.freelist = L.headD 0
  linked : Linked h.next h.prev 0 L 0
  nodup : L.Nodup
  zero : 0 ∉ L

theorem Spaced.mono {L' : List U32} (hL : Spaced L) (hsub : L' ⊆ L) : Spaced L' :=
  fun a ha b hb => hL a (hsub ha) b (hsub hb)

theorem links_cons_iff : x ∈ links (y :: L) ↔ x ∈ bytes (y + 4) 8 ∨ x ∈ links L := by
  unfold links
  simp only [Set.mem_ofPred_eq, List.mem_cons, exists_eq_or_imp]

theorem links_mono {L' : List U32} (hsub : L' ⊆ L) : links L' ⊆ links L := by
  rintro x ⟨a, ha, hx⟩
  exact ⟨a, hsub ha, hx⟩

/-! ## Links of other blocks -/

section

variable (hL : Spaced L) (hx : x ∈ L) (hy : y ∈ L)

include hL hx hy

theorem next_setNext : (h.setNext x v).next y = if y = x then v else h.next y := by
  split
  · next he =>
    rw [he]
    exact Mem.read32_write32 _ _ _
  · next hne =>
    have h1 := hL y hy x hx hne
    have h2 := hL x hx y hy (Ne.symm hne)
    exact Mem.read32_write32_of_apart ⟨by bv_omega, by bv_omega⟩

theorem prev_setPrev : (h.setPrev x v).prev y = if y = x then v else h.prev y := by
  split
  · next he =>
    rw [he]
    exact Mem.read32_write32 _ _ _
  · next hne =>
    have h1 := hL y hy x hx hne
    have h2 := hL x hx y hy (Ne.symm hne)
    exact Mem.read32_write32_of_apart ⟨by bv_omega, by bv_omega⟩

theorem next_setPrev : (h.setPrev x v).next y = h.next y := by
  by_cases hne : y = x
  · rw [hne]
    exact Mem.read32_write32_of_apart ⟨by bv_omega, by bv_omega⟩
  · have h1 := hL y hy x hx hne
    have h2 := hL x hx y hy (Ne.symm hne)
    exact Mem.read32_write32_of_apart ⟨by bv_omega, by bv_omega⟩

theorem prev_setNext : (h.setNext x v).prev y = h.prev y := by
  by_cases hne : y = x
  · rw [hne]
    exact Mem.read32_write32_of_apart ⟨by bv_omega, by bv_omega⟩
  · have h1 := hL y hy x hx hne
    have h2 := hL x hx y hy (Ne.symm hne)
    exact Mem.read32_write32_of_apart ⟨by bv_omega, by bv_omega⟩

end

/-! ## What an operation writes -/

theorem within_setPrev (hx : x ∈ L) : Mem.Within (links L) h.mem (h.setPrev x v).mem := by
  refine Mem.within_write32 fun y hy => ⟨x, hx, ?_⟩
  unfold bytes at *
  rw [Set.mem_ofPred_eq] at *
  omega

theorem within_setNext (hx : x ∈ L) : Mem.Within (links L) h.mem (h.setNext x v).mem := by
  refine Mem.within_write32 fun y hy => ⟨x, hx, ?_⟩
  unfold bytes at *
  rw [Set.mem_ofPred_eq] at *
  bv_omega

namespace FreeList

theorem of_eq (hL : FreeList h L) (hlist : h'.freelist = h.freelist)
    (hnext : ∀ a ∈ L, h'.next a = h.next a) (hprev : ∀ a ∈ L, h'.prev a = h.prev a) :
    FreeList h' L :=
  ⟨by rw [hlist, hL.head], hL.linked.congr hnext hprev, hL.nodup, hL.zero⟩

/-- What stays clear of the links leaves the free list as it is. -/
theorem congr (hL : FreeList h L) (hlist : h'.freelist = h.freelist)
    (hmem : Mem.Within s h.mem h'.mem) (hs : ∀ x ∈ links L, x ∉ s) : FreeList h' L := by
  refine hL.of_eq hlist (fun a ha => ?_) fun a ha => ?_
  · refine hmem.read32 fun x hx => hs x ⟨a, ha, ?_⟩
    unfold bytes at *
    rw [Set.mem_ofPred_eq] at *
    bv_omega
  · refine hmem.read32 fun x hx => hs x ⟨a, ha, ?_⟩
    unfold bytes at *
    rw [Set.mem_ofPred_eq] at *
    omega

theorem of_mem_eq (hL : FreeList h L) (hlist : h'.freelist = h.freelist) (hmem : h'.mem = h.mem) :
    FreeList h' L :=
  hL.of_eq hlist (fun a _ => congrArg (Mem.read32 · (a + 8)) hmem)
    fun a _ => congrArg (Mem.read32 · (a + 4)) hmem

theorem setBlocks (hL : FreeList h L) (l : List U32) : FreeList { h with blocks := l } L :=
  hL.of_mem_eq rfl rfl

/-- A member, or NULL behind the last one. -/
theorem headD_mem_or (L : List U32) : L.headD 0 ∈ L ∨ L.headD 0 = 0 := by
  cases L with
  | nil => exact Or.inr rfl
  | cons a L => exact Or.inl List.mem_cons_self

theorem getLastD_mem_or (L : List U32) : L.getLastD 0 ∈ L ∨ L.getLastD 0 = 0 := by
  by_cases hL : L = []
  · exact Or.inr (by rw [hL]; rfl)
  · exact Or.inl (getLastD_mem hL)

end FreeList

/-! ## The operations -/

/-- `if (a) a->prev = v` -/
def setPrevIf (h : Heap) (a v : U32) : Heap := if a ≠ 0 then h.setPrev a v else h

@[simp] theorem freelist_setPrevIf (a v : U32) : (h.setPrevIf a v).freelist = h.freelist := by
  unfold setPrevIf
  split <;> rfl

theorem next_setPrevIf {a : U32} (hL : Spaced L) (ha : a ∈ L ∨ a = 0) (hy : y ∈ L) :
    (h.setPrevIf a v).next y = h.next y := by
  unfold setPrevIf
  split
  · next ha0 => exact next_setPrev hL (ha.resolve_right ha0) hy
  · rfl

theorem prev_setPrevIf {a : U32} (hL : Spaced L) (h0 : 0 ∉ L) (ha : a ∈ L ∨ a = 0) (hy : y ∈ L) :
    (h.setPrevIf a v).prev y = if y = a then v else h.prev y := by
  unfold setPrevIf
  split
  · next ha0 => exact prev_setPrev hL (ha.resolve_right ha0) hy
  · next ha0 =>
    obtain rfl : a = 0 := by simpa using ha0
    rw [if_neg]
    rintro rfl
    exact h0 hy

theorem within_setPrevIf {a : U32} (ha : a ∈ L ∨ a = 0) :
    Mem.Within (links L) h.mem (h.setPrevIf a v).mem := by
  unfold setPrevIf
  split
  · next ha0 => exact within_setPrev (ha.resolve_right ha0)
  · exact Mem.Within.refl _ _

theorem addNodeToFreelist_eq (hx : x ≠ 0) : h.addNodeToFreelist x =
    setPrev { (h.setNext x h.freelist).setPrevIf h.freelist x with freelist := x } x 0 := by
  unfold addNodeToFreelist
  rw [if_neg hx]
  rfl

theorem freelist_addNodeToFreelist (hx : x ≠ 0) : (h.addNodeToFreelist x).freelist = x := by
  rw [addNodeToFreelist_eq hx]
  rfl

/-- `removeNodeFromFreelist` reads the links of the node again after the first store, which does
not change them. -/
theorem removeNodeFromFreelist_eq (hL : Spaced L) (h0 : 0 ∉ L) (hx : x ∈ L)
    (hp : h.prev x ∈ L ∨ h.prev x = 0) (hne : h.prev x ≠ x) : h.removeNodeFromFreelist x =
      (if h.prev x ≠ 0 then h.setNext (h.prev x) (h.next x)
        else { h with freelist := h.next x }).setPrevIf (h.next x) (h.prev x) := by
  unfold removeNodeFromFreelist
  rw [if_neg (ne_of_mem_of_not_mem hx h0)]
  split
  · next hp0 =>
    have hp := hp.resolve_right hp0
    dsimp only
    rw [next_setNext hL hp hx, if_neg hne.symm, prev_setNext hL hp hx]
    rfl
  · next hp0 =>
    obtain hp0 : h.prev x = 0 := by simpa using hp0
    rw [hp0]
    rfl

/-- `removeNodeFromFreelist` writes to the links of the two neighbours. -/
theorem within_removeNodeFromFreelist (hL : Spaced L) (h0 : 0 ∉ L) (hx : x ∈ L)
    (hp : h.prev x ∈ L ∨ h.prev x = 0) (hn : h.next x ∈ L ∨ h.next x = 0) (hne : h.prev x ≠ x) :
    Mem.Within (links L) h.mem (h.removeNodeFromFreelist x).mem := by
  rw [removeNodeFromFreelist_eq hL h0 hx hp hne]
  refine Mem.Within.trans ?_ (within_setPrevIf hn)
  split
  · next hp0 => exact within_setNext (hp.resolve_right hp0)
  · exact Mem.Within.refl _ _

theorem freelist_removeNodeFromFreelist (hL : Spaced L) (h0 : 0 ∉ L) (hx : x ∈ L)
    (hp : h.prev x ∈ L ∨ h.prev x = 0) (hne : h.prev x ≠ x) :
    (h.removeNodeFromFreelist x).freelist = if h.prev x ≠ 0 then h.freelist else h.next x := by
  rw [removeNodeFromFreelist_eq hL h0 hx hp hne, freelist_setPrevIf]
  split <;> rfl

/-- `addNodeToFreelist` writes to the links of the node and of the first one before. -/
theorem within_addNodeToFreelist (hx : x ≠ 0) (hf : h.freelist ∈ L ∨ h.freelist = 0) :
    Mem.Within (links (x :: L)) h.mem (h.addNodeToFreelist x).mem := by
  have hxm : x ∈ x :: L := List.mem_cons_self
  rw [addNodeToFreelist_eq hx]
  exact ((within_setNext hxm).trans
    (within_setPrevIf (hf.imp_left (List.mem_cons_of_mem x)))).trans (within_setPrev hxm)

/-- The first and the last block, which the free list has no part in. -/
def ends (h : Heap) : U32 × U32 := (h.head, h.tail)

theorem ends_setBlocks (l : List U32) : ({ h with blocks := l } : Heap).ends = h.ends := rfl

theorem ends_removeNodeFromFreelist (x : U32) : (h.removeNodeFromFreelist x).ends = h.ends := by
  unfold removeNodeFromFreelist
  dsimp only
  split_ifs <;> rfl

theorem ends_addNodeToFreelist (x : U32) : (h.addNodeToFreelist x).ends = h.ends := by
  unfold addNodeToFreelist
  dsimp only
  split_ifs <;> rfl

namespace FreeList

theorem next_append {xs ys : List U32} (hL : FreeList h (xs ++ x :: ys)) :
    h.next x = ys.headD 0 := (linked_append.mp hL.linked).2.2.1

theorem prev_append {xs ys : List U32} (hL : FreeList h (xs ++ x :: ys)) :
    h.prev x = xs.getLastD 0 := (linked_append.mp hL.linked).2.1

theorem freelist_mem_or (hL : FreeList h L) : h.freelist ∈ L ∨ h.freelist = 0 := by
  rw [hL.head]
  exact headD_mem_or L

theorem prev_mem_or (hL : FreeList h L) (hx : x ∈ L) : h.prev x ∈ L ∨ h.prev x = 0 := by
  obtain ⟨xs, ys, rfl⟩ := List.append_of_mem hx
  rw [hL.prev_append]
  exact (getLastD_mem_or xs).imp_left (List.mem_append_left _)

theorem next_mem_or (hL : FreeList h L) (hx : x ∈ L) : h.next x ∈ L ∨ h.next x = 0 := by
  obtain ⟨xs, ys, rfl⟩ := List.append_of_mem hx
  rw [hL.next_append]
  exact (headD_mem_or ys).imp_left fun hm => List.mem_append_right _ (List.mem_cons_of_mem x hm)

theorem prev_ne (hL : FreeList h L) (hx : x ∈ L) : h.prev x ≠ x := by
  obtain ⟨xs, ys, rfl⟩ := List.append_of_mem hx
  rw [hL.prev_append]
  intro he
  obtain ⟨-, -, hdisj⟩ := List.nodup_append.mp hL.nodup
  rcases getLastD_mem_or xs with hm | hm
  · exact hdisj _ hm x List.mem_cons_self he
  · exact hL.zero (by rw [← hm, he]; simp)

/-- **`removeNodeFromFreelist` takes the node out of the chain.** -/
theorem remove (hL : FreeList h L) (hsp : Spaced L) (hx : x ∈ L) :
    FreeList (h.removeNodeFromFreelist x) (L.erase x) := by
  obtain ⟨xs, ys, rfl⟩ := List.append_of_mem hx
  have hnd := List.nodup_append.mp hL.nodup
  have hxs : x ∉ xs := fun hm => hnd.2.2 x hm x List.mem_cons_self rfl
  have hsub : xs ++ ys ⊆ xs ++ x :: ys :=
    (List.Sublist.append_left (List.sublist_cons_self x ys) xs).subset
  have hp := hL.prev_append
  have hn := hL.next_append
  -- the neighbours in the chain, where there are any
  have hpm := hL.prev_mem_or hx
  have hnm := hL.next_mem_or hx
  rw [List.erase_append_right _ hxs, List.erase_cons_head,
    removeNodeFromFreelist_eq hsp hL.zero hx hpm (hL.prev_ne hx), hp, hn]
  rw [hp] at hpm
  rw [hn] at hnm
  have hfirst : ∀ y ∈ xs ++ ys,
      (if xs.getLastD 0 ≠ 0 then h.setNext (xs.getLastD 0) (ys.headD 0)
        else { h with freelist := ys.headD 0 }).next y
          = (if y = xs.getLastD 0 then ys.headD 0 else h.next y) ∧
      (if xs.getLastD 0 ≠ 0 then h.setNext (xs.getLastD 0) (ys.headD 0)
        else { h with freelist := ys.headD 0 }).prev y = h.prev y := by
    intro y hy
    split
    · next hp0 =>
      have hpm := hpm.resolve_right hp0
      exact ⟨next_setNext hsp hpm (hsub hy), prev_setNext hsp hpm (hsub hy)⟩
    · next hp0 =>
      obtain hp0 : xs.getLastD 0 = 0 := by simpa using hp0
      rw [hp0, if_neg (ne_of_mem_of_not_mem (hsub hy) hL.zero)]
      exact ⟨rfl, rfl⟩
  have hnd' : (xs ++ ys).Nodup :=
    hL.nodup.sublist (List.Sublist.append_left (List.sublist_cons_self x ys) xs)
  have h0 : 0 ∉ xs ++ ys := fun hm => hL.zero (hsub hm)
  refine ⟨?_, hL.linked.remove hnd' (fun hm => h0 (List.mem_append_right _ hm))
    (fun hm => h0 (List.mem_append_left _ hm)) (fun y hy => ?_) (fun y hy => ?_), hnd', h0⟩
  · rw [freelist_setPrevIf, headD_append]
    cases xs with
    | nil => rfl
    | cons a xs =>
      have hlast := List.mem_append_left ys (getLastD_mem (z := 0) (List.cons_ne_nil a xs))
      rw [if_pos (ne_of_mem_of_not_mem hlast h0)]
      exact hL.head
  · rw [next_setPrevIf hsp hnm (hsub hy), (hfirst y hy).1]
  · rw [prev_setPrevIf hsp hL.zero hnm (hsub hy), (hfirst y hy).2]

/-- A node with the links it has had leaves the chain with nothing written outside of the links,
whatever the other blocks hold. -/
theorem within_remove_of_links (hL : FreeList h L) (hsp : Spaced L) (hx : x ∈ L)
    (hprev : h'.prev x = h.prev x) (hnext : h'.next x = h.next x)
    (hhead : h'.freelist = h.freelist) :
    Mem.Within (links L) h'.mem (h'.removeNodeFromFreelist x).mem ∧
      ((h'.removeNodeFromFreelist x).freelist ∈ L ∨
        (h'.removeNodeFromFreelist x).freelist = 0) := by
  have hpm := hL.prev_mem_or hx
  have hnm := hL.next_mem_or hx
  have hne := hL.prev_ne hx
  rw [← hprev] at hpm hne
  rw [← hnext] at hnm
  refine ⟨within_removeNodeFromFreelist hsp hL.zero hx hpm hnm hne, ?_⟩
  rw [freelist_removeNodeFromFreelist hsp hL.zero hx hpm hne]
  split
  · rw [hhead]
    exact hL.freelist_mem_or
  · exact hnm

theorem within_remove (hL : FreeList h L) (hsp : Spaced L) (hx : x ∈ L) :
    Mem.Within (links L) h.mem (h.removeNodeFromFreelist x).mem :=
  (hL.within_remove_of_links hsp hx rfl rfl rfl).1

/-- **`addNodeToFreelist` puts the node in front.** -/
theorem add (hL : FreeList h L) (hsp : Spaced (x :: L)) (hx : x ∉ L) (hx0 : x ≠ 0) :
    FreeList (h.addNodeToFreelist x) (x :: L) := by
  have hxm : x ∈ x :: L := List.mem_cons_self
  have h0 : 0 ∉ x :: L := by
    simp only [List.mem_cons, not_or]
    exact ⟨hx0.symm, hL.zero⟩
  have hhm : h.freelist ∈ x :: L ∨ h.freelist = 0 :=
    hL.freelist_mem_or.imp_left (List.mem_cons_of_mem x)
  rw [addNodeToFreelist_eq hx0]
  refine ⟨rfl, hL.linked.push hL.nodup ?_ ?_ (fun y hy => ?_) fun y hy => ?_,
    List.nodup_cons.mpr ⟨hx, hL.nodup⟩, h0⟩
  · rw [next_setPrev hsp hxm hxm]
    show ((h.setNext x h.freelist).setPrevIf h.freelist x).next x = _
    rw [next_setPrevIf hsp hhm hxm, next_setNext hsp hxm hxm, if_pos rfl, hL.head]
  · rw [prev_setPrev hsp hxm hxm, if_pos rfl]
  · have hym := List.mem_cons_of_mem x hy
    rw [next_setPrev hsp hxm hym]
    show ((h.setNext x h.freelist).setPrevIf h.freelist x).next y = _
    rw [next_setPrevIf hsp hhm hym, next_setNext hsp hxm hym, if_neg (ne_of_mem_of_not_mem hy hx)]
  · have hym := List.mem_cons_of_mem x hy
    rw [prev_setPrev hsp hxm hym, if_neg (ne_of_mem_of_not_mem hy hx)]
    show ((h.setNext x h.freelist).setPrevIf h.freelist x).prev y = _
    rw [prev_setPrevIf hsp h0 hhm hym, prev_setNext hsp hxm hym, hL.head]

theorem within_add (hL : FreeList h L) (hx0 : x ≠ 0) :
    Mem.Within (links (x :: L)) h.mem (h.addNodeToFreelist x).mem :=
  within_addNodeToFreelist hx0 hL.freelist_mem_or

end FreeList

/-! ## Both operations, exactly -/

/-- The block `x` and its neighbours in the chain `pre ++ x :: post`. -/
def around (pre : List U32) (x : U32) (post : List U32) : List U32 :=
  x :: (pre.getLast?.toList ++ post.head?.toList)

section

variable {pre post : List U32}

theorem around_subset : around pre x post ⊆ pre ++ x :: post := by
  intro y hy
  rcases List.mem_cons.mp hy with rfl | hy
  · simp
  rcases List.mem_append.mp hy with hy | hy
  · exact List.mem_append_left _ (List.mem_of_getLast? (Option.mem_toList.mp hy))
  · exact List.mem_append_right _
      (List.mem_cons_of_mem x (List.mem_of_mem_head? (Option.mem_toList.mp hy)))

theorem headD_mem_around : post.headD 0 ∈ around pre x post ∨ post.headD 0 = 0 := by
  cases post with
  | nil => exact Or.inr rfl
  | cons y post => exact Or.inl (by simp [around])

theorem getLastD_mem_around : pre.getLastD 0 ∈ around pre x post ∨ pre.getLastD 0 = 0 := by
  rw [List.getLastD_eq_getLast?]
  cases hlast : pre.getLast? with
  | none => exact Or.inr rfl
  | some y => exact Or.inl (by simp [around, hlast])

/-- The two operations change memory, and the variable `freelist`. -/
theorem addNodeToFreelist_globals (x : U32) : h.addNodeToFreelist x = { h with
    mem := (h.addNodeToFreelist x).mem, freelist := (h.addNodeToFreelist x).freelist } := by
  unfold addNodeToFreelist
  dsimp only
  split_ifs <;> rfl

theorem removeNodeFromFreelist_globals (x : U32) : h.removeNodeFromFreelist x = { h with
    mem := (h.removeNodeFromFreelist x).mem
    freelist := (h.removeNodeFromFreelist x).freelist } := by
  unfold removeNodeFromFreelist
  dsimp only
  split_ifs <;> rfl

theorem FreeList.within_remove_around (hL : FreeList h (pre ++ x :: post))
    (hsp : Spaced (pre ++ x :: post)) :
    Mem.Within (links (around pre x post)) h.mem (h.removeNodeFromFreelist x).mem := by
  have hxm : x ∈ pre ++ x :: post := by simp
  refine within_removeNodeFromFreelist (hsp.mono around_subset) (fun h0 => ?_) List.mem_cons_self
    ?_ ?_ (hL.prev_ne hxm)
  · exact hL.zero (around_subset h0)
  · rw [hL.prev_append]
    exact getLastD_mem_around
  · rw [hL.next_append]
    exact headD_mem_around

/-- **The two operations put a block in front of the free list and take a block out of it**, and
write to the links of the block and of its neighbours only. -/
theorem freelist_surgery (hL : FreeList h L) :
    (∀ x, x ≠ 0 → x ∉ L → Spaced (x :: L) →
      FreeList (h.addNodeToFreelist x) (x :: L) ∧
      Mem.Within (links (around [] x L)) h.mem (h.addNodeToFreelist x).mem ∧
      ∃ m f, h.addNodeToFreelist x = { h with mem := m, freelist := f }) ∧
    ∀ pre x post, L = pre ++ x :: post → Spaced L →
      FreeList (h.removeNodeFromFreelist x) (pre ++ post) ∧
      Mem.Within (links (around pre x post)) h.mem (h.removeNodeFromFreelist x).mem ∧
      ∃ m f, h.removeNodeFromFreelist x = { h with mem := m, freelist := f } := by
  constructor
  · intro x hx0 hx hsp
    refine ⟨hL.add hsp hx hx0, ?_, _, _, addNodeToFreelist_globals x⟩
    refine within_addNodeToFreelist hx0 ?_
    rw [hL.head]
    cases L with
    | nil => exact Or.inr rfl
    | cons y L => exact Or.inl (by simp)
  · rintro pre x post rfl hsp
    have hxm : x ∈ pre ++ x :: post := by simp
    have hpre : x ∉ pre := by
      intro hm
      exact (List.nodup_append.mp hL.nodup).2.2 x hm x List.mem_cons_self rfl
    have hremove := hL.remove hsp hxm
    rw [List.erase_append_right _ hpre, List.erase_cons_head] at hremove
    exact ⟨hremove, hL.within_remove_around hsp, _, _, removeNodeFromFreelist_globals x⟩

end

/-- Two free blocks. -/
def pairHeap : Heap :=
  { (Kernel.bare.heap.setNext 0x1000 0x1180).setPrev 0x1180 0x1000 with freelist := 0x1000 }

theorem freeList_pairHeap : FreeList pairHeap [0x1000, 0x1180] :=
  ⟨rfl, ⟨by decide +kernel, by decide +kernel, by decide +kernel, by decide +kernel, trivial⟩,
    by decide, by decide⟩

/-- A third block is put in front, and the first one of the two is taken out. -/
theorem freelist_surgery_pairHeap :
    FreeList (pairHeap.addNodeToFreelist 0x1300) [0x1300, 0x1000, 0x1180] ∧
      FreeList (pairHeap.removeNodeFromFreelist 0x1000) [0x1180] := by
  have hsp : Spaced [0x1300, 0x1000, 0x1180] := by
    simp only [Spaced, List.forall_mem_cons, List.not_mem_nil, false_imp_iff, implies_true,
      and_true]
    decide
  obtain ⟨hadd, hremove⟩ := freelist_surgery freeList_pairHeap
  exact ⟨(hadd 0x1300 (by decide) (by decide) hsp).1,
    (hremove [] 0x1000 [0x1180] rfl (hsp.mono (List.subset_cons_self _ _))).1⟩

end Heap

end PiggyOS
