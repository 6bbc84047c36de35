import Mathlib.Data.List.Chain
import PiggyOS.Kheap.Layout

/-!
# Merging neighbours

`free` and the growing half of `realloc` turn neighbouring blocks into one: they write its two size
words, move `tail` when the last block went into it, and take blocks off the free list or put one
on it.

* `absorb` — the part they share
* `coalesced_free` — `free` in a laid-out heap
-/

namespace PiggyOS

open Infra

namespace Heap

variable {h g : Heap} {bs pre mid post : List Block} {L L' : List U32} {b c q n m : Block}
  {a p v : U32} {x : Bool} {s : Set U32}

/-! ## Size words -/

/-- Writes the size word of `b` at both ends. -/
def stamp (h : Heap) (b : Block) : Heap := (h.setSize b.addr b.size).setTrailer b.addr

theorem setFree_setSize (h : Heap) (a v : U32) (x : Bool) :
    (h.setSize a v).setFree a x = h.setSize a (mark v x) := by
  have hread : (h.setSize a v).size a = v := size_store_self h a v
  have hwrite : ∀ w, (h.setSize a v).setSize a w = h.setSize a w := fun w => by
    unfold setSize store
    rw [Mem.write32_write32]
  unfold setFree mark
  rw [hread, hwrite, hwrite]
  split <;> rfl

/-- What `setFree` leaves in the size word. -/
theorem setFree_eq (h : Heap) (a : U32) (x : Bool) :
    h.setFree a x = h.setSize a (mark (h.size a) x) := by
  unfold setFree mark
  split <;> rfl

theorem mem_stamp (h : Heap) (b : Block) :
    (h.stamp b).mem = (h.mem.write32 b.addr b.size).write32 b.trailer b.size := by
  unfold stamp setTrailer
  rw [show (h.setSize b.addr b.size).size b.addr = b.size from size_store_self h _ _]
  rfl

theorem ends_stamp (h : Heap) (b : Block) : (h.stamp b).ends = h.ends := rfl

theorem trailer_stamp (h : Heap) (b : Block) : (h.stamp b).mem.read32 b.trailer = b.size := by
  rw [mem_stamp]
  exact Mem.read32_write32 _ _ _

theorem size_stamp (h : Heap) (hb : b.stop ≤ 2 ^ 32) : (h.stamp b).size b.addr = b.size := by
  have htrail := b.trailer_toNat hb
  unfold Block.stop Block.start at *
  show (h.stamp b).mem.read32 b.addr = _
  rw [mem_stamp, Mem.read32_write32_of_apart ⟨by bv_omega, by bv_omega⟩]
  exact Mem.read32_write32 _ _ _

theorem within_stamp (h : Heap) (b : Block) : Mem.Within b.tags h.mem (h.stamp b).mem := by
  rw [mem_stamp]
  exact (Mem.within_write32 Set.subset_union_left).trans (Mem.within_write32 Set.subset_union_right)

/-- What stays clear of the size words leaves them as they are. -/
theorem tags_of_within (hmem : Mem.Within s h.mem g.mem) (hs : ∀ x ∈ s, x ∉ b.tags) :
    g.size b.addr = h.size b.addr ∧ g.mem.read32 b.trailer = h.mem.read32 b.trailer :=
  ⟨hmem.read32 fun x hx hxs => hs x hxs (Or.inl hx),
    hmem.read32 fun x hx hxs => hs x hxs (Or.inr hx)⟩

/-- The block `m` takes in the blocks up to the one at `a`. -/
def absorb (h : Heap) (m : Block) (a : U32) : Heap :=
  let h := h.stamp m
  if h.tail = a then { h with tail := m.addr } else h

theorem mem_absorb (h : Heap) (m : Block) (a : U32) : (h.absorb m a).mem = (h.stamp m).mem := by
  unfold absorb
  dsimp only
  split <;> rfl

theorem head_absorb (h : Heap) (m : Block) (a : U32) : (h.absorb m a).head = h.head := by
  unfold absorb
  dsimp only
  split <;> rfl

theorem freelist_absorb (h : Heap) (m : Block) (a : U32) :
    (h.absorb m a).freelist = h.freelist := by
  unfold absorb
  dsimp only
  split <;> rfl

theorem tail_absorb (h : Heap) (m : Block) (a : U32) :
    (h.absorb m a).tail = if h.tail = a then m.addr else h.tail := by
  unfold absorb
  dsimp only
  split
  · next he => exact (if_pos he).symm
  · next he => exact (if_neg he).symm

/-- A block that takes in only itself. -/
theorem absorb_self (h : Heap) (m : Block) : h.absorb m m.addr = h.stamp m := by
  unfold absorb
  dsimp only
  split
  · next he => exact congrArg (fun t => { h.stamp m with tail := t }) he.symm
  · rfl

/-- The free list after the size words of a block that covers some. -/
theorem FreeList.absorb (hg : FreeList g L') (hsub : L' ⊆ L) (hm : ∀ x ∈ links L, x ∉ m.tags)
    (a : U32) : FreeList (g.absorb m a) L' :=
  hg.congr (freelist_absorb g m a) (by rw [mem_absorb]; exact within_stamp g m)
    fun x hx => hm x (links_mono hsub hx)

/-! ## The blocks that are merged -/

theorem covers_self (hsize : getRealSize m.size = getRealSize b.size) (haddr : m.addr = b.addr) :
    Covers m [b] := by
  intro a e _ ht
  obtain ⟨hs, -, he⟩ := tiles_singleton.mp ht
  have hreal : m.real = b.real := congrArg BitVec.toNat hsize
  have hstart : m.start = b.start := congrArg BitVec.toNat haddr
  refine tiles_singleton.mpr ⟨by omega, m.start_lt_stop, ?_⟩
  unfold Block.stop at *
  omega

theorem covers_join (b c : Block) (x : Bool) : Covers (b.join c x) [b, c] := by
  intro a e he ht
  obtain ⟨hb, -, hc, -, hstop⟩ := ht
  have hstop : c.stop = e := hstop
  have hjoin := Block.stop_join x hc (by omega)
  exact tiles_singleton.mpr ⟨hb, Block.start_lt_stop _, by rw [hjoin]; exact hstop⟩

theorem covers_join_join (q c n : Block) (x y : Bool) :
    Covers ((q.join c x).join n y) [q, c, n] := by
  intro a e he ht
  obtain ⟨l, hqc, hn⟩ := tiles_append.mp (show Tiles _ _ a ([q, c] ++ [n]) e from ht)
  exact covers_join _ n y a e he
    (tiles_append.mpr ⟨l, covers_join q c x a l (hn.le.trans he) hqc, hn⟩)

/-- The size word `free` computes for three blocks. -/
theorem size_join_join (q c n : Block) (x y : Bool) : ((q.join c x).join n y).size =
    mark (getRealSize q.size + 2 * overhead + getRealSize c.size + getRealSize n.size) y := by
  have hq := getRealSize_toNat q.size
  have hc := getRealSize_toNat c.size
  have hmid : getRealSize (getRealSize q.size + overhead + getRealSize c.size) =
      getRealSize q.size + overhead + getRealSize c.size := by
    apply BitVec.eq_of_toNat_eq
    rw [getRealSize_toNat]
    unfold overhead sizeofBlock
    bv_omega
  unfold Block.join
  rw [getRealSize_mark, hmid]
  show mark _ y = mark _ y
  congr 1
  unfold overhead sizeofBlock
  bv_omega

/-- Rearranging the free list changes no size word. -/
theorem Layout.size_of_links (hl : Layout h bs L) (hmem : Mem.Within (links L) h.mem g.mem)
    (hb : b ∈ bs) : g.size b.addr = b.size := by
  obtain ⟨pre, post, rfl⟩ := List.append_of_mem hb
  have hcut : Layout h (pre ++ [b] ++ post) L := by simpa using hl
  exact (tags_of_within hmem (hcut.not_mem_tags (covers_self rfl rfl))).1.trans (hl.size b hb)

/-! ## The four cases of `free` -/

/-- At the address `a` lies the free block `b`. -/
structure Sees (h : Heap) (a : U32) (b : Block) : Prop where
  addr : a = b.addr
  free : h.isFree b.addr = true
  size : h.size b.addr = b.size

theorem Layout.sees_prev (hl : Layout h (pre ++ q :: c :: post) L) (hq : q.free = true) :
    Sees h (h.getPrevBlock c.addr) q :=
  ⟨hl.getPrevBlock_eq, (hl.isFree_eq (by simp)).trans hq, hl.size q (by simp)⟩

theorem Layout.sees_next (hl : Layout h (pre ++ c :: n :: post) L) (hn : n.free = true) :
    Sees h (h.getNextBlock c.addr) n :=
  ⟨hl.getNextBlock_eq, (hl.isFree_eq (by simp)).trans hn, hl.size n (by simp)⟩

theorem free_of_both (hq : Sees h (h.getPrevBlock c.addr) q)
    (hn : Sees h (h.getNextBlock c.addr) n) (hc : h.size c.addr = c.size)
    (hp : headerOf p = c.addr) : ∃ l, h.free p =
      { (h.absorb ((q.join c true).join n true) n.addr).removeNodeFromFreelist n.addr with
        blocks := l } := by
  unfold free
  dsimp only
  rw [hp, hq.addr, hn.addr, hq.free, hn.free, hq.size, hc, hn.size, setFree_setSize,
    ← size_join_join q c n true true]
  exact ⟨_, rfl⟩

theorem free_of_prev (hq : Sees h (h.getPrevBlock c.addr) q)
    (hn : h.isFree (h.getNextBlock c.addr) = false) (hc : h.size c.addr = c.size)
    (hp : headerOf p = c.addr) :
    ∃ l, h.free p = { h.absorb (q.join c true) c.addr with blocks := l } := by
  unfold free
  dsimp only
  rw [hp, hq.addr, hq.free, hn, hq.size, hc, setFree_setSize, setFree_setSize]
  exact ⟨_, rfl⟩

theorem free_of_next (hn : Sees h (h.getNextBlock c.addr) n)
    (hq : h.isFree (h.getPrevBlock c.addr) = false) (hc : h.size c.addr = c.size)
    (hp : headerOf p = c.addr) : ∃ l, h.free p =
      { ((h.absorb (c.join n true) n.addr).removeNodeFromFreelist n.addr).addNodeToFreelist c.addr
        with blocks := l } := by
  unfold free
  dsimp only
  rw [hp, hn.addr, hn.free, hq, hn.size, hc]
  simp only [setFree_setSize]
  exact ⟨_, rfl⟩

theorem free_of_neither (hq : h.isFree (h.getPrevBlock c.addr) = false)
    (hn : h.isFree (h.getNextBlock c.addr) = false) (hc : h.size c.addr = c.size)
    (hp : headerOf p = c.addr) :
    h.free p = (h.absorb ⟨c.addr, mark c.size true⟩ c.addr).addNodeToFreelist c.addr := by
  unfold free
  dsimp only
  rw [hp, hq, hn, if_neg (by decide), if_neg (by decide), if_neg (by decide), setFree_eq, hc]
  exact congrArg (addNodeToFreelist · c.addr) (absorb_self h ⟨c.addr, mark c.size true⟩).symm

/-! ## The layout afterwards -/

/-- **Merging blocks.** The free list may be rearranged before and after, and the blocks that are
merged may be written to. -/
theorem Layout.of_absorb {h' : Heap} (hl : Layout h (pre ++ mid ++ post) L)
    (hm : Covers m mid) (ha : h.tail = a ↔ post = []) (hgmem : Mem.Within (links L) h.mem g.mem)
    (hgends : g.ends = h.ends) (hmem : Mem.Within s (g.absorb m a).mem h'.mem)
    (hends : h'.ends = (g.absorb m a).ends) (hs : s ⊆ span mid ∪ links L)
    (hclear : ∀ x ∈ s, x ∉ m.tags) (hlist : FreeList h' L')
    (hperm : L'.Perm (freeAddrs (pre ++ m :: post))) :
    Layout h' (pre ++ m :: post) L' ∧ ∀ b ∈ pre ++ post, Keeps h h' b := by
  obtain ⟨hstop, hspan⟩ := hl.span_subset hm
  obtain ⟨hhead, htail⟩ := Prod.ext_iff.mp hends
  obtain ⟨hghead, hgtail⟩ := Prod.ext_iff.mp hgends
  dsimp only [ends] at hhead htail hghead hgtail
  obtain ⟨hsize, htrailer⟩ := tags_of_within hmem hclear
  have hstamp : Mem.Within m.tags g.mem (g.absorb m a).mem := by
    rw [mem_absorb]
    exact within_stamp g m
  refine hl.replace hm ?_ ?_ ?_ ?_ ?_ hlist hperm
  · rw [hhead, head_absorb, hghead]
  · rw [htail, tail_absorb, hgtail]
    exact if_congr ha rfl rfl
  · rw [hsize]
    unfold Heap.size
    rw [mem_absorb]
    exact size_stamp g hstop
  · rw [htrailer, mem_absorb]
    exact trailer_stamp g m
  · refine ((hgmem.mono Set.subset_union_right).trans (hstamp.mono ?_)).trans (hmem.mono hs)
    exact ((Block.tags_subset_span hstop).trans hspan).trans Set.subset_union_left

/-- `tail` is the last of the blocks that are merged when there is none behind them. -/
theorem Layout.tail_eq_iff (hl : Layout h (pre ++ b :: post) L) : h.tail = b.addr ↔ post = [] := by
  constructor
  · intro he
    by_contra hpost
    exact hl.ne_tail hpost he.symm
  · rintro rfl
    exact hl.tail_eq

/-- One of the free blocks is taken off the list. -/
theorem perm_erase {xs ys : List U32} (hperm : L.Perm (xs ++ a :: ys)) :
    (L.erase a).Perm (xs ++ ys) := by
  have herase := (hperm.trans List.perm_middle).erase a
  rwa [List.erase_cons_head] at herase

/-- Links of the free list, or of the block merged, are clear of its size words. -/
theorem Layout.links_cons (hl : Layout h (pre ++ mid ++ post) L) (hm : Covers m mid)
    (hsub : L' ⊆ L) : links (m.addr :: L') ⊆ span mid ∪ links L ∧
      ∀ x ∈ links (m.addr :: L'), x ∉ m.tags := by
  obtain ⟨hstop, hspan⟩ := hl.span_subset hm
  refine ⟨?_, ?_⟩
  · rintro x ⟨a, ha, hx⟩
    rcases List.mem_cons.mp ha with rfl | ha
    · exact Or.inl (hspan (Block.mem_link_bytes hstop hx).2.2.1)
    · exact Or.inr ⟨a, hsub ha, hx⟩
  · rintro x ⟨a, ha, hx⟩
    rcases List.mem_cons.mp ha with rfl | ha
    · exact (Block.mem_link_bytes hstop hx).2.2.2
    · exact hl.not_mem_tags hm x ⟨a, hsub ha, hx⟩

theorem Layout.free_both (hl : Layout h (pre ++ [q, c, n] ++ post) L) (hq : q.free = true)
    (hc : c.free = false) (hn : n.free = true) (hp : headerOf p = c.addr) :
    ∃ L', Layout (h.free p) (pre ++ (q.join c true).join n true :: post) L' ∧
      ∀ b ∈ pre ++ post, Keeps h (h.free p) b := by
  have hprev : Layout h (pre ++ q :: c :: n :: post) L := by simpa using hl
  have hnext : Layout h ((pre ++ [q]) ++ c :: n :: post) L := by simpa using hl
  obtain ⟨l, hfree⟩ :=
    free_of_both (hprev.sees_prev hq) (hnext.sees_next hn) (hl.size c (by simp)) hp
  have hm := covers_join_join q c n true true
  have hclear := hl.not_mem_tags hm
  have hlist := hl.freeList.absorb (List.Subset.refl L) hclear n.addr
  have hnL : n.addr ∈ L := hl.mem_list (by simp) hn
  have htail : Layout h ((pre ++ [q, c]) ++ n :: post) L := by simpa using hl
  have hperm := hl.perm
  simp only [freeAddrs_append, freeAddrs_cons, freeAddrs_nil, hq, hc, hn] at hperm
  rw [hfree]
  refine ⟨L.erase n.addr, hl.of_absorb hm htail.tail_eq_iff (Mem.Within.refl _ _) rfl
    (hlist.within_remove hl.spaced hnL) (ends_removeNodeFromFreelist _) Set.subset_union_right
    hclear ((hlist.remove hl.spaced hnL).setBlocks l) ?_⟩
  have hcut : L.Perm ((freeAddrs pre ++ [q.addr]) ++ n.addr :: freeAddrs post) := by
    simpa using hperm
  simpa [freeAddrs_append, freeAddrs_cons] using perm_erase hcut

theorem Layout.free_prev (hl : Layout h (pre ++ [q, c] ++ post) L) (hq : q.free = true)
    (hc : c.free = false) (hn : h.isFree (h.getNextBlock c.addr) = false)
    (hp : headerOf p = c.addr) :
    ∃ L', Layout (h.free p) (pre ++ q.join c true :: post) L' ∧
      ∀ b ∈ pre ++ post, Keeps h (h.free p) b := by
  have hprev : Layout h (pre ++ q :: c :: post) L := by simpa using hl
  obtain ⟨l, hfree⟩ := free_of_prev (hprev.sees_prev hq) hn (hl.size c (by simp)) hp
  have hm := covers_join q c true
  have hclear := hl.not_mem_tags hm
  have hlist := hl.freeList.absorb (List.Subset.refl L) hclear c.addr
  have htail : Layout h ((pre ++ [q]) ++ c :: post) L := by simpa using hl
  have hperm := hl.perm
  simp only [freeAddrs_append, freeAddrs_cons, freeAddrs_nil, hq, hc] at hperm
  rw [hfree]
  refine ⟨L, hl.of_absorb hm htail.tail_eq_iff (Mem.Within.refl _ _) rfl (Mem.Within.refl ∅ _) rfl
    (Set.empty_subset _) (fun _ hx => hx.elim) (hlist.setBlocks l) ?_⟩
  simpa [freeAddrs_append, freeAddrs_cons] using hperm

theorem Layout.free_next (hl : Layout h (pre ++ [c, n] ++ post) L) (hc : c.free = false)
    (hn : n.free = true) (hq : h.isFree (h.getPrevBlock c.addr) = false)
    (hp : headerOf p = c.addr) :
    ∃ L', Layout (h.free p) (pre ++ c.join n true :: post) L' ∧
      ∀ b ∈ pre ++ post, Keeps h (h.free p) b := by
  have hnext : Layout h (pre ++ c :: n :: post) L := by simpa using hl
  obtain ⟨l, hfree⟩ := free_of_next (hnext.sees_next hn) hq (hl.size c (by simp)) hp
  have hm := covers_join c n true
  have hclear := hl.not_mem_tags hm
  have hcbs : c ∈ pre ++ [c, n] ++ post := by simp
  have hnL : n.addr ∈ L := hl.mem_list (by simp) hn
  have hsub : L.erase n.addr ⊆ L := List.erase_subset
  have hcL : c.addr ∉ L.erase n.addr := fun hx => hl.not_mem_list hcbs hc (hsub hx)
  have hlist := hl.freeList.absorb (List.Subset.refl L) hclear n.addr
  have hremove := hlist.remove hl.spaced hnL
  have hsp : Spaced (c.addr :: L.erase n.addr) :=
    (hl.spaced_cons hcbs).mono (List.cons_subset_cons _ hsub)
  have htail : Layout h ((pre ++ [c]) ++ n :: post) L := by simpa using hl
  obtain ⟨hlinks, hlinks'⟩ := hl.links_cons hm (List.Subset.refl L)
  have hmono : links (c.addr :: L.erase n.addr) ⊆ links (c.addr :: L) :=
    links_mono (List.cons_subset_cons _ hsub)
  have hperm := hl.perm
  simp only [freeAddrs_append, freeAddrs_cons, freeAddrs_nil, hc, hn] at hperm
  rw [hfree]
  refine ⟨c.addr :: L.erase n.addr, hl.of_absorb hm htail.tail_eq_iff (Mem.Within.refl _ _) rfl
    (((hlist.within_remove hl.spaced hnL).mono (links_mono (List.subset_cons_self _ _))).trans
      ((hremove.within_add (hl.addr_ne_zero hcbs)).mono hmono)) ?_ hlinks hlinks'
    ((hremove.add hsp hcL (hl.addr_ne_zero hcbs)).setBlocks l) ?_⟩
  · exact (ends_addNodeToFreelist _).trans (ends_removeNodeFromFreelist _)
  · simp only [freeAddrs_append, freeAddrs_cons, Block.free_join]
    exact ((perm_erase (by simpa using hperm)).cons _).trans (List.perm_middle.symm)

theorem Layout.free_neither (hl : Layout h (pre ++ [c] ++ post) L) (hc : c.free = false)
    (hq : h.isFree (h.getPrevBlock c.addr) = false) (hn : h.isFree (h.getNextBlock c.addr) = false)
    (hp : headerOf p = c.addr) :
    ∃ L', Layout (h.free p) (pre ++ ⟨c.addr, mark c.size true⟩ :: post) L' ∧
      ∀ b ∈ pre ++ post, Keeps h (h.free p) b := by
  have hm : Covers ⟨c.addr, mark c.size true⟩ [c] := covers_self (getRealSize_mark _ _) rfl
  have hclear := hl.not_mem_tags hm
  have hcbs : c ∈ pre ++ [c] ++ post := by simp
  have hlist := hl.freeList.absorb (List.Subset.refl L) hclear c.addr
  have htail : Layout h (pre ++ c :: post) L := by simpa using hl
  obtain ⟨hlinks, hlinks'⟩ := hl.links_cons hm (List.Subset.refl L)
  have hperm := hl.perm
  simp only [freeAddrs_append, freeAddrs_cons, freeAddrs_nil, hc] at hperm
  rw [free_of_neither hq hn (hl.size c (by simp)) hp]
  refine ⟨c.addr :: L, hl.of_absorb hm htail.tail_eq_iff (Mem.Within.refl _ _) rfl
    (hlist.within_add (hl.addr_ne_zero hcbs)) (ends_addNodeToFreelist _) hlinks hlinks'
    (hlist.add (hl.spaced_cons hcbs) (hl.not_mem_list hcbs hc) (hl.addr_ne_zero hcbs)) ?_⟩
  simp only [freeAddrs_append, freeAddrs_cons, Block.free_mk_mark]
  exact ((by simpa using hperm : L.Perm _).cons _).trans (List.perm_middle.symm)

/-! ## Coalescing -/

/-- No two neighbours are both free. -/
def NoTwoFree (bs : List Block) : Prop := bs.IsChain fun b c => ¬ (b.free = true ∧ c.free = true)

/-- The sum of `r + 16` over the blocks. -/
def total (bs : List Block) : Nat := (bs.map fun b => b.real + 16).sum

theorem total_append (bs cs : List Block) : total (bs ++ cs) = total bs + total cs := by
  unfold total
  rw [List.map_append, List.sum_append]

theorem total_cons (b : Block) (bs : List Block) : total (b :: bs) = b.real + 16 + total bs := rfl

theorem sum_length_eq (bs : List Block) :
    (bs.map fun b => b.stop - b.start).sum = 4 * total bs := by
  induction bs with
  | nil => rfl
  | cons b bs ih =>
    rw [List.map_cons, List.sum_cons, ih, total_cons]
    unfold Block.stop
    omega

/-- The block that covers some is as large as they are together. -/
theorem Layout.total_of_covers (hl : Layout h (pre ++ mid ++ post) L) (hm : Covers m mid) :
    m.real + 16 = total mid := by
  obtain ⟨a, e, he, hmid, -, -⟩ := hl.exists_tiles
  obtain ⟨hstart, -, hstop⟩ := tiles_singleton.mp (hm a e he hmid)
  have hsum := hmid.sum_length
  rw [sum_length_eq] at hsum
  unfold Block.stop at hstop
  omega

/-- `free` looks at the block before. -/
theorem Layout.prev_cases (hl : Layout h (pre ++ c :: post) L) :
    (∃ pre' q, pre = pre' ++ [q] ∧ q.free = true) ∨
      (h.isFree (h.getPrevBlock c.addr) = false ∧ ∀ b ∈ pre.getLast?, b.free = false) := by
  rcases List.eq_nil_or_concat pre with rfl | ⟨init, q, rfl⟩
  · refine Or.inr ⟨?_, by simp⟩
    rw [Layout.getPrevBlock_first hl]
    rfl
  · rw [List.concat_eq_append] at *
    cases hq : q.free with
    | true => exact Or.inl ⟨init, q, rfl, hq⟩
    | false =>
      have hl' : Layout h (init ++ q :: c :: post) L := by simpa using hl
      refine Or.inr ⟨?_, by simp [hq]⟩
      rw [hl'.getPrevBlock_eq, hl.isFree_eq (by simp), hq]

/-- `free` looks at the block behind. -/
theorem Layout.next_cases (hl : Layout h (pre ++ c :: post) L) :
    (∃ n post', post = n :: post' ∧ n.free = true) ∨
      (h.isFree (h.getNextBlock c.addr) = false ∧ ∀ b ∈ post.head?, b.free = false) := by
  cases post with
  | nil =>
    refine Or.inr ⟨?_, by simp⟩
    rw [Layout.getNextBlock_last hl]
    rfl
  | cons n post =>
    cases hn : n.free with
    | true => exact Or.inl ⟨n, post, rfl, hn⟩
    | false =>
      refine Or.inr ⟨?_, by simp [hn]⟩
      rw [hl.getNextBlock_eq, hl.isFree_eq (by simp), hn]

/-- A block between two that are not free. -/
theorem NoTwoFree.insert (hpre : NoTwoFree pre) (hpost : NoTwoFree post)
    (hlast : ∀ b ∈ pre.getLast?, b.free = false) (hfirst : ∀ b ∈ post.head?, b.free = false) :
    NoTwoFree (pre ++ m :: post) := by
  refine List.isChain_append.mpr ⟨hpre, List.isChain_cons.mpr ⟨?_, hpost⟩, ?_⟩
  · intro b hb
    simp [hfirst b hb]
  · intro b hb
    simp [hlast b hb]

/-- Before a free block there is none. -/
theorem NoTwoFree.before (hn : NoTwoFree (pre ++ b :: post)) (hb : b.free = true) :
    NoTwoFree pre ∧ ∀ c ∈ pre.getLast?, c.free = false := by
  obtain ⟨hpre, -, hrel⟩ := List.isChain_append.mp hn
  refine ⟨hpre, fun c hc => ?_⟩
  simpa [hb] using hrel c hc b (by simp)

/-- Behind a free block there is none. -/
theorem NoTwoFree.behind (hn : NoTwoFree (b :: post)) (hb : b.free = true) :
    NoTwoFree post ∧ ∀ c ∈ post.head?, c.free = false := by
  obtain ⟨hrel, hpost⟩ := List.isChain_cons.mp hn
  refine ⟨hpost, fun c hc => ?_⟩
  simpa [hb] using hrel c hc

/-- `h'` is the heap `h` with the block `c` of `bs` merged with its free neighbours. -/
def Coalesced (h h' : Heap) (bs : List Block) (c : Block) : Prop :=
  ∃ pre left right post m L', bs = pre ++ (left ++ c :: right) ++ post ∧
    (∀ b ∈ left ++ right, b.free = true) ∧ m.free = true ∧
    m.addr = (left.map Block.addr).headD c.addr ∧ m.real + 16 = total (left ++ c :: right) ∧
    Layout h' (pre ++ m :: post) L' ∧ NoTwoFree (pre ++ m :: post) ∧
    total (pre ++ m :: post) = total bs ∧ ∀ b ∈ pre ++ post, Keeps h h' b

theorem Layout.coalesced {h' : Heap} {left right : List Block}
    (hl : Layout h (pre ++ (left ++ c :: right) ++ post) L)
    (hfree : ∀ b ∈ left ++ right, b.free = true) (hm : Covers m (left ++ c :: right))
    (hmf : m.free = true) (haddr : m.addr = (left.map Block.addr).headD c.addr)
    (hpre : NoTwoFree pre ∧ ∀ b ∈ pre.getLast?, b.free = false)
    (hpost : NoTwoFree post ∧ ∀ b ∈ post.head?, b.free = false)
    (hdone : ∃ L', Layout h' (pre ++ m :: post) L' ∧ ∀ b ∈ pre ++ post, Keeps h h' b) :
    Coalesced h h' (pre ++ (left ++ c :: right) ++ post) c := by
  obtain ⟨L', hl', hkeep⟩ := hdone
  have htotal := hl.total_of_covers hm
  refine ⟨pre, left, right, post, m, L', rfl, hfree, hmf, haddr, htotal, hl',
    hpre.1.insert hpost.1 hpre.2 hpost.2, ?_, hkeep⟩
  rw [total_append, total_append, total_append, total_cons]
  omega

/--
**`free` coalesces.** In every laid-out heap without free neighbours, `free` merges the block with
the free blocks next to it, and leaves a heap of that kind in which all other blocks are kept.
-/
theorem coalesced_free (hl : Layout h bs L) (hn : NoTwoFree bs) (hc : c ∈ bs)
    (halloc : c.free = false) (hp : headerOf p = c.addr) : Coalesced h (h.free p) bs c := by
  obtain ⟨pre, post, rfl⟩ := List.append_of_mem hc
  obtain ⟨hnpre, hnc, -⟩ := List.isChain_append.mp hn
  obtain ⟨-, hnpost⟩ := List.isChain_cons.mp hnc
  rcases hl.prev_cases with ⟨pre, q, rfl, hq⟩ | ⟨hq, hlast⟩
  · have hpre := NoTwoFree.before (by simpa using hn : NoTwoFree (pre ++ q :: c :: post)) hq
    rcases hl.next_cases with ⟨n, post, rfl, hnf⟩ | ⟨hnf, hfirst⟩
    · have hcut : pre ++ [q] ++ c :: n :: post = pre ++ ([q] ++ c :: [n]) ++ post := by simp
      rw [hcut] at hl ⊢
      exact hl.coalesced (by simp [hq, hnf]) (covers_join_join q c n true true)
        (Block.free_join true) rfl hpre (NoTwoFree.behind hnpost hnf)
        (Layout.free_both hl hq halloc hnf hp)
    · have hcut : pre ++ [q] ++ c :: post = pre ++ ([q] ++ c :: []) ++ post := by simp
      rw [hcut] at hl ⊢
      exact hl.coalesced (by simp [hq]) (covers_join q c true) (Block.free_join true) rfl hpre
        ⟨hnpost, hfirst⟩ (Layout.free_prev hl hq halloc hnf hp)
  · rcases hl.next_cases with ⟨n, post, rfl, hnf⟩ | ⟨hnf, hfirst⟩
    · have hcut : pre ++ c :: n :: post = pre ++ ([] ++ c :: [n]) ++ post := by simp
      rw [hcut] at hl ⊢
      exact hl.coalesced (by simp [hnf]) (covers_join c n true) (Block.free_join true) rfl
        ⟨hnpre, hlast⟩ (NoTwoFree.behind hnpost hnf) (Layout.free_next hl halloc hnf hq hp)
    · have hcut : pre ++ c :: post = pre ++ ([] ++ c :: []) ++ post := by simp
      rw [hcut] at hl ⊢
      exact hl.coalesced (m := ⟨c.addr, mark c.size true⟩) (by simp)
        (covers_self (getRealSize_mark _ _) rfl) (Block.free_mk_mark _ _ true) rfl ⟨hnpre, hlast⟩
        ⟨hnpost, hfirst⟩ (Layout.free_neither hl halloc hq hnf hp)

/-- An allocated block between two free ones. -/
def threeBlocks : List Block := [⟨0x1000, 33⟩, ⟨0x10C0, 32⟩, ⟨0x1180, 65⟩]

def threeHeap : Heap :=
  { ((threeBlocks.foldl stamp Kernel.bare.heap).setNext 0x1000 0x1180).setPrev 0x1180 0x1000 with
    head := 0x1000
    tail := 0x1180
    freelist := 0x1000 }

theorem layout_threeHeap : Layout threeHeap threeBlocks [0x1000, 0x1180] where
  ne := by decide
  head_ne := by decide
  tiles := ⟨0x12C0, by decide, rfl, by decide, rfl, by decide, rfl, by decide, rfl⟩
  tail := rfl
  size := by decide +kernel
  trailer := by decide +kernel
  freeList := ⟨rfl, ⟨by decide +kernel, by decide +kernel, by decide +kernel, by decide +kernel,
    trivial⟩, by decide, by decide⟩
  perm := List.Perm.refl _

theorem noTwoFree_threeBlocks : NoTwoFree threeBlocks := by
  refine List.isChain_cons_cons.mpr ⟨by decide, List.isChain_cons_cons.mpr ⟨by decide, ?_⟩⟩
  exact List.isChain_singleton _

/-- All three blocks become one. -/
theorem coalesced_free_threeHeap :
    Coalesced threeHeap (threeHeap.free 0x1150) threeBlocks ⟨0x10C0, 32⟩ ∧
      (threeHeap.free 0x1150).size 0x1000 = 161 :=
  ⟨coalesced_free layout_threeHeap noTwoFree_threeBlocks (by decide) (by decide) (by decide),
    by decide +kernel⟩

end Heap

end PiggyOS
