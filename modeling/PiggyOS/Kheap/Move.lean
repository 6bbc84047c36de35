import PiggyOS.Kheap.Split

/-!
# Moving a block

`realloc` copies the contents of a block that it cannot grow to the place `malloc` has found, and
then frees the block. Neither what `malloc` nor what `free` writes may run into the data, and
`free` has to find the neighbours of the block as they were.

* `Layout.within_free` — what `free` writes
* `Room.moved` — what is needed of the heap for a block to be moved
* `Layout.room_whole`, `Layout.room_split` — a block from the free list, handed out whole or split
-/

namespace PiggyOS

open Infra

namespace Heap

variable {h g : Heap} {bs pre mid post : List Block} {L L' : List U32} {b c e q n m : Block}
  {p dst size : U32}

/-! ## What `free` writes -/

/-- The block itself or one of its neighbours. -/
def Around (pre : List Block) (c : Block) (post : List Block) (b : Block) : Prop :=
  b ∈ pre.getLast? ∨ b = c ∨ b ∈ post.head?

/-- The size words of the block and of its neighbours. -/
def tagsAround (pre : List Block) (c : Block) (post : List Block) : Set U32 :=
  {x | ∃ b, Around pre c post b ∧ x ∈ b.tags}

theorem Around.mem (hb : Around pre c post b) : b ∈ pre ++ c :: post := by
  rcases hb with hb | rfl | hb
  · exact List.mem_append_left _ (List.mem_of_mem_getLast? hb)
  · simp
  · exact List.mem_append_right _ (List.mem_cons_of_mem c (List.mem_of_mem_head? hb))

/-- The size words of a block that covers some are among theirs. -/
theorem Layout.tags_of_covers (hl : Layout h (pre ++ mid ++ post) L) (hm : Covers m mid) {x : U32}
    (hx : x ∈ m.tags) : ∃ b ∈ mid, x ∈ b.tags := by
  obtain ⟨a, e, he, hmid, -, -⟩ := hl.exists_tiles
  obtain ⟨hstart, hlt, hstop⟩ := tiles_singleton.mp (hm a e he hmid)
  have hlong : m.start + 64 ≤ m.stop := by unfold Block.stop; omega
  rw [Block.mem_tags (by omega)] at hx
  have hmem : ∀ b ∈ mid, b ∈ pre ++ mid ++ post := fun b hb => by simp [hb]
  rcases hx with hx | hx
  · -- the first size word is that of the first block
    cases mid with
    | nil => exact absurd hmid (by unfold Tiles; omega)
    | cons b mid =>
      have hb : b.start = a := hmid.1
      have := hl.stop_le (hmem b List.mem_cons_self)
      exact ⟨b, List.mem_cons_self, (Block.mem_tags this).mpr (Or.inl (by omega))⟩
  · rcases List.eq_nil_or_concat mid with rfl | ⟨init, b, rfl⟩
    · exact absurd hmid (by unfold Tiles; omega)
    · rw [List.concat_eq_append] at *
      obtain ⟨l, -, hb⟩ := tiles_append.mp hmid
      have hb : b.stop = e := (tiles_singleton.mp hb).2.2
      have := hl.stop_le (hmem b (by simp))
      exact ⟨b, by simp, (Block.mem_tags this).mpr (Or.inr (by omega))⟩

/-- Links are clear of size words. -/
theorem Layout.links_not_mem_tags (hl : Layout h bs L) (hb : b ∈ bs) :
    ∀ x ∈ links L, x ∉ b.tags := by
  obtain ⟨pre, post, rfl⟩ := List.append_of_mem hb
  have hcut : Layout h (pre ++ [b] ++ post) L := by simpa using hl
  exact hcut.not_mem_tags (covers_self rfl rfl)

theorem Layout.links_not_mem_tagsAround (hl : Layout h (pre ++ c :: post) L) :
    ∀ x ∈ links L, x ∉ tagsAround pre c post := by
  rintro x hx ⟨b, hb, hxb⟩
  exact hl.links_not_mem_tags hb.mem x hx hxb

/-- Merging writes size words of the blocks that are merged. -/
theorem Layout.absorb_within (hl : Layout h (pre ++ mid ++ post) L) (hm : Covers m mid)
    (hlist : FreeList g L') (hlinks : ∀ x ∈ links L', ∀ b ∈ mid, x ∉ b.tags) (a : U32) :
    Mem.Within {x | ∃ b ∈ mid, x ∈ b.tags} g.mem (g.absorb m a).mem ∧
      FreeList (g.absorb m a) L' := by
  have hsubset : m.tags ⊆ {x | ∃ b ∈ mid, x ∈ b.tags} := fun x hx => hl.tags_of_covers hm hx
  refine ⟨?_, hlist.absorb (List.Subset.refl L') (fun x hx hxm => ?_) a⟩
  · rw [mem_absorb]
    exact (within_stamp g m).mono hsubset
  · obtain ⟨b, hb, hxb⟩ := hsubset hxm
    exact hlinks x hx b hb hxb

variable (pre c post) in
/-- Merging the block with neighbours. -/
theorem Layout.absorb_around {left right : List Block} (hl : Layout h (left ++ mid ++ right) L)
    (hm : Covers m mid) (hmid : ∀ b ∈ mid, Around pre c post b) (hlist : FreeList g L')
    (hlinks : ∀ x ∈ links L', x ∉ tagsAround pre c post) (a : U32) :
    Mem.Within (tagsAround pre c post) g.mem (g.absorb m a).mem ∧ FreeList (g.absorb m a) L' := by
  obtain ⟨hw, hfl⟩ := hl.absorb_within hm hlist (fun x hx b hb hxb =>
    hlinks x hx ⟨b, hmid b hb, hxb⟩) a
  refine ⟨hw.mono ?_, hfl⟩
  rintro x ⟨b, hb, hxb⟩
  exact ⟨b, hmid b hb, hxb⟩

/-- **What `free` writes**: size words of the block and of its neighbours, and links. -/
theorem Layout.within_free (hl : Layout h (pre ++ c :: post) L) (hc : g.size c.addr = c.size)
    (hprev : g.isFree (g.getPrevBlock c.addr) = false ∨
      ∃ pre' q, pre = pre' ++ [q] ∧ q.free = true ∧ Sees g (g.getPrevBlock c.addr) q)
    (hnext : g.isFree (g.getNextBlock c.addr) = false ∨ ∃ n post', post = n :: post' ∧
      n.free = true ∧ Sees g (g.getNextBlock c.addr) n ∧ n.addr ∈ L')
    (hlist : FreeList g L') (hsp : Spaced (c.addr :: L'))
    (hlinks : ∀ x ∈ links L', x ∉ tagsAround pre c post) (hp : headerOf p = c.addr) :
    Mem.Within (tagsAround pre c post ∪ links (c.addr :: L')) g.mem (g.free p).mem := by
  have hc0 : c.addr ≠ 0 := hl.addr_ne_zero (by simp)
  have hsub : links L' ⊆ links (c.addr :: L') := links_mono (List.subset_cons_self _ _)
  have hspL : Spaced L' := hsp.mono (List.subset_cons_self _ _)
  -- one case for each way `free` merges the block
  rcases hprev with hpf | ⟨pre, q, rfl, -, hsq⟩
  · rcases hnext with hnf | ⟨n, post, rfl, -, hsn, hnL⟩
    · have hcut : Layout h (pre ++ [c] ++ post) L := by simpa using hl
      have hm : Covers ⟨c.addr, mark c.size true⟩ [c] := covers_self (getRealSize_mark _ _) rfl
      obtain ⟨hw, hfl⟩ := hcut.absorb_around pre post c hm
        (by simp [Around]) hlist hlinks c.addr
      rw [free_of_neither hpf hnf hc hp]
      exact (hw.mono Set.subset_union_left).trans
        ((hfl.within_add hc0).mono Set.subset_union_right)
    · have hcut : Layout h (pre ++ [c, n] ++ post) L := by simpa using hl
      obtain ⟨hw, hfl⟩ := hcut.absorb_around pre (n :: post) c
        (covers_join c n true) (by simp [Around]) hlist hlinks n.addr
      have hremove := (hfl.within_remove hspL hnL).mono hsub
      have hadd := ((hfl.remove hspL hnL).within_add hc0).mono
        (links_mono (List.cons_subset_cons _ List.erase_subset))
      obtain ⟨l, hfree⟩ := free_of_next hsn hpf hc hp
      rw [hfree]
      exact (hw.mono Set.subset_union_left).trans
        ((hremove.trans hadd).mono Set.subset_union_right)
  · rcases hnext with hnf | ⟨n, post, rfl, -, hsn, hnL⟩
    · have hcut : Layout h (pre ++ [q, c] ++ post) L := by simpa using hl
      obtain ⟨hw, -⟩ := hcut.absorb_around (pre ++ [q]) post c
        (covers_join q c true) (by simp [Around]) hlist hlinks c.addr
      obtain ⟨l, hfree⟩ := free_of_prev hsq hnf hc hp
      rw [hfree]
      exact hw.mono Set.subset_union_left
    · have hcut : Layout h (pre ++ [q, c, n] ++ post) L := by simpa using hl
      obtain ⟨hw, hfl⟩ := hcut.absorb_around (pre ++ [q]) (n :: post) c
        (covers_join_join q c n true true) (by simp [Around]) hlist hlinks n.addr
      obtain ⟨l, hfree⟩ := free_of_both hsq hsn hc hp
      rw [hfree]
      exact (hw.mono Set.subset_union_left).trans
        (((hfl.within_remove hspL hnL).mono hsub).mono Set.subset_union_right)

/-! ## Looking at the neighbours -/

/-- Both size words of the block are there. -/
def Intact (g : Heap) (b : Block) : Prop := g.size b.addr = b.size ∧ g.mem.read32 b.trailer = b.size

theorem Layout.intact (hl : Layout h bs L) (hb : b ∈ bs) : Intact h b :=
  ⟨hl.size b hb, hl.trailer b hb⟩

theorem Intact.of_eqOn (hh : Intact h b) (hmem : ∀ x ∈ b.tags, g.mem x = h.mem x) :
    Intact g b := by
  have hw : Mem.Within b.tagsᶜ h.mem g.mem := fun x hx => hmem x (not_not.mp hx)
  obtain ⟨hsize, htrail⟩ := tags_of_within hw fun x hx => hx
  exact ⟨hsize.trans hh.1, htrail.trans hh.2⟩

/-- The free bit is in the first byte. -/
theorem isFree_of_byte {a : U32} (hbyte : g.mem a = h.mem a) : g.isFree a = h.isFree a := by
  have hbit (m : Mem) : m.read32 a &&& 1 ≠ 0 ↔ (m a).toNat % 2 = 1 := by
    have hlow := Mem.toNat_read32_mod m a
    rw [and_one_ne_zero_iff]
    omega
  unfold isFree Heap.size
  simp only [hbit, hbyte]

theorem Layout.isFree_of_intact (hl : Layout h bs L) (hb : b ∈ bs) (hg : Intact g b) :
    g.isFree b.addr = b.free := by
  rw [← hl.isFree_eq hb]
  unfold isFree
  rw [hg.1, hl.size b hb]

/-- What `free` finds before the block. -/
theorem Layout.prev_of_intact (hl : Layout h (pre ++ c :: post) L) (hhead : g.head = h.head)
    (hq : ∀ q ∈ pre.getLast?, Intact g q) : g.isFree (g.getPrevBlock c.addr) = false ∨
      ∃ pre' q, pre = pre' ++ [q] ∧ q.free = true ∧ Sees g (g.getPrevBlock c.addr) q := by
  rcases List.eq_nil_or_concat pre with rfl | ⟨init, q, rfl⟩
  · refine Or.inl ?_
    unfold getPrevBlock
    rw [hhead, Layout.head_eq hl, if_pos rfl]
    rfl
  · rw [List.concat_eq_append] at *
    have hq := hq q (by simp)
    have hcut : Layout h (init ++ q :: c :: post) L := by simpa using hl
    have haddr : g.getPrevBlock c.addr = q.addr := by
      rw [← hcut.getPrevBlock_eq]
      unfold getPrevBlock
      rw [hhead, hcut.trailer_eq, hq.2, hcut.trailer q (by simp)]
    have hfree := hcut.isFree_of_intact (by simp) hq
    cases hqf : q.free with
    | true => exact Or.inr ⟨init, q, rfl, hqf, haddr, hfree.trans hqf, hq.1⟩
    | false => exact Or.inl (by rw [haddr, hfree, hqf])

/-- What `free` finds behind the block. -/
theorem Layout.next_of_intact (hl : Layout h (pre ++ c :: post) L) (hc : g.size c.addr = c.size)
    (hn : ∀ n ∈ post.head?, Intact g n) (htail : post ≠ [] → g.tail ≠ c.addr)
    (hlast : post = [] → g.isFree (g.getNextBlock c.addr) = false) :
    g.isFree (g.getNextBlock c.addr) = false ∨ ∃ n post', post = n :: post' ∧ n.free = true ∧
      Sees g (g.getNextBlock c.addr) n := by
  cases post with
  | nil => exact Or.inl (hlast rfl)
  | cons n post =>
    have hn := hn n rfl
    have haddr : g.getNextBlock c.addr = n.addr := by
      rw [← hl.getNextBlock_eq]
      unfold getNextBlock
      rw [if_neg (htail (List.cons_ne_nil n post)).symm,
        if_neg (hl.ne_tail (List.cons_ne_nil n post)), hc, hl.size c (by simp)]
    have hfree := hl.isFree_of_intact (by simp) hn
    cases hnf : n.free with
    | true => exact Or.inr ⟨n, post, rfl, hnf, haddr, hfree.trans hnf, hn.1⟩
    | false => exact Or.inl (by rw [haddr, hfree, hnf])

/-! ## Moving a block -/

/-- The data run into no size word or link of a free block. -/
def Clear (bs : List Block) (L : List U32) (c : Block) (p : U32) : Prop :=
  ∀ x ∈ bytes p c.real,
    c.start ≤ x.toNat ∧ (∀ b ∈ bs, b.free = true → x ∉ b.tags) ∧ x ∉ links L

theorem Clear.toNat_eq (hcl : Clear bs L c p) (hl : Layout h bs L) (hc : c ∈ bs)
    (hp : headerOf p = c.addr) (hpos : 0 < c.real) :
    p.toNat = c.start + 144 ∧ p.toNat + c.real ≤ 2 ^ 32 := by
  obtain ⟨hstart, -, -⟩ := hl.bounds hc
  have hfirst := (hcl p (self_mem_bytes hpos)).1
  unfold headerOf blocksBefore sizeofBlock at hp
  unfold Block.start at *
  refine ⟨by bv_omega, ?_⟩
  by_contra hwrap
  have hzero : (0 : U32) ∈ bytes p c.real := by
    unfold bytes
    rw [Set.mem_ofPred_eq]
    bv_omega
  have hle : c.addr.toNat ≤ 0 := (hcl 0 hzero).1
  omega

/-- The data, when there are any. -/
theorem Clear.mem_iff (hcl : Clear bs L c p) (hl : Layout h bs L) (hc : c ∈ bs)
    (hp : headerOf p = c.addr) {x : U32} (hx : x ∈ bytes p c.real) :
    c.start + 144 ≤ x.toNat ∧ x.toNat < c.start + 144 + c.real := by
  have hpos : 0 < c.real := by
    unfold bytes at hx
    rw [Set.mem_ofPred_eq] at hx
    omega
  obtain ⟨h1, h2⟩ := hcl.toNat_eq hl hc hp hpos
  rw [mem_bytes_iff h2] at hx
  omega

/-! ## Room for a block -/

/-- In `h₁` there is room at `dst` for the data of the block `c` of `h`, which is as it was. -/
structure Room (h h₁ : Heap) (pre : List Block) (c : Block) (post : List Block) (L' : List U32)
    (p dst : U32) : Prop where
  data : ∀ x ∈ bytes p c.real, h₁.mem x = h.mem x
  tags : ∀ b, Around pre c post b → ∀ x ∈ b.tags, h₁.mem x = h.mem x
  head : h₁.head = h.head
  tail : post ≠ [] → h₁.tail ≠ c.addr
  last : post = [] → h₁.isFree (h₁.getNextBlock c.addr) = false ∧
    (h₁.getNextBlock c.addr ≠ 0 → h₁.getNextBlock c.addr ∉ bytes dst c.real)
  list : FreeList h₁ L'
  spaced : Spaced (c.addr :: L')
  kept : ∀ n ∈ post.head?, n.free = true → n.addr ∈ L'
  clear : ∀ x ∈ links L', x ∉ tagsAround pre c post
  target : ∀ x ∈ bytes dst c.real, x ∉ tagsAround pre c post ∧ x ∉ links (c.addr :: L')
  far : c.real ≤ (dst - p).toNat

theorem Room.size_eq {h₁ : Heap} (hr : Room h h₁ pre c post L' p dst)
    (hl : Layout h (pre ++ c :: post) L) : h₁.size c.addr = c.size :=
  ((hl.intact (b := c) (by simp)).of_eqOn (hr.tags c (Or.inr (Or.inl rfl)))).1

/-- **Moving a block.** The data that were copied are still there when the old block is free. -/
theorem Room.moved {h₁ : Heap} (hr : Room h h₁ pre c post L' p dst)
    (hl : Layout h (pre ++ c :: post) L) (hp : headerOf p = c.addr) :
    Mem.Moved p dst c.real h.mem
      (Heap.free { h₁ with mem := h₁.mem.copy dst p c.real } p).mem := by
  have hcopy : Mem.Within (bytes dst c.real) h₁.mem (h₁.mem.copy dst p c.real) :=
    Mem.within_copy (Set.Subset.refl _)
  have hintact : ∀ b, Around pre c post b →
      Intact { h₁ with mem := h₁.mem.copy dst p c.real } b := fun b hb =>
    (hl.intact hb.mem).of_eqOn fun x hx =>
      (hcopy fun hd => (hr.target x hd).1 ⟨b, hb, hx⟩).trans (hr.tags b hb x hx)
  have hc := (hintact c (Or.inr (Or.inl rfl))).1
  have hc₁ := hr.size_eq hl
  have hlist : FreeList { h₁ with mem := h₁.mem.copy dst p c.real } L' :=
    hr.list.congr rfl hcopy fun x hx hd =>
      (hr.target x hd).2 (links_mono (List.subset_cons_self _ _) hx)
  have hnext := hl.next_of_intact hc (fun n hn => hintact n (Or.inr (Or.inr hn))) hr.tail
    fun hpost => ?_
  · refine Mem.Moved.within (fun i hi => ?_) (hl.within_free hc
      (hl.prev_of_intact hr.head fun q hq => hintact q (Or.inl hq)) ?_ hlist hr.spaced hr.clear hp)
      fun x hx => ?_
    · exact (Mem.moved_copy hr.far i hi).trans (hr.data _ (add_mem_bytes hi))
    · refine hnext.imp_right ?_
      rintro ⟨n, post', rfl, hn, hsn⟩
      exact ⟨n, post', rfl, hn, hsn, hr.kept n rfl hn⟩
    · obtain ⟨htags, hlinks⟩ := hr.target x hx
      rintro (hx | hx)
      · exact htags hx
      · exact hlinks hx
  · -- the header behind the last block is not written over
    have hsame : Heap.getNextBlock { h₁ with mem := h₁.mem.copy dst p c.real } c.addr =
        h₁.getNextBlock c.addr := by
      unfold getNextBlock
      rw [hc, hc₁]
    obtain ⟨hnf, hclear⟩ := hr.last hpost
    rw [hsame]
    by_cases hn0 : h₁.getNextBlock c.addr = 0
    · rw [hn0]
      rfl
    · rw [← hnf]
      exact isFree_of_byte (hcopy (hclear hn0))

/-! ## A block from the free list -/

section

variable (hl : Layout h (pre ++ c :: post) L) (halloc : c.free = false) (hp : headerOf p = c.addr)
  (hcl : Clear (pre ++ c :: post) L c p)

include hl halloc hp hcl

omit halloc hp hcl in
/-- The header of a rest stays clear of those of all blocks. -/
theorem Layout.spaced_restAddr (he : e ∈ pre ++ c :: post)
    (hfit : (roundedSize size).toNat ≤ e.real) :
    Spaced (restAddr e.addr size :: (pre ++ c :: post).map Block.addr) ∧
      restAddr e.addr size ∉ (pre ++ c :: post).map Block.addr ∧ restAddr e.addr size ≠ 0 := by
  refine Heap.spaced_restAddr hl.spaced_map (hl.stop_le he) hfit fun a ha => ?_
  obtain ⟨d, hd, rfl⟩ := List.mem_map.mp ha
  obtain ⟨-, hlen, -⟩ := hl.bounds hd
  obtain ⟨z, -, htiles⟩ := hl.tiles
  have hstart : d.start = d.addr.toNat := rfl
  rcases htiles.trichotomy he hd with rfl | hle | hle
  · exact Or.inl rfl
  · omega
  · omega

section

variable {h' : Heap} {t : Block} {L₁ : List U32} {x : U32} (he : e ∈ pre ++ c :: post)
  (hf : e.free = true) (hnext : e ∉ post.head?) (hrest : (roundedSize size).toNat + 24 ≤ e.real)
  (hrestOf : RestOf h h' L e size t m L₁)

include he hrest hrestOf

include hf hnext

end

end

end Heap

end PiggyOS
