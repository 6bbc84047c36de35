import PiggyOS.Kheap.Coalesce

/-!
# Resizing a block in place

`realloc` grows a block into a free neighbour, or shrinks it and splits off the rest. The growing
half merges blocks as `free` does. The shrinking half puts the rest at four headers behind the
second size word, where the block behind is looked for 16 bytes behind its end.

* `Layout.reallocNext`, `Layout.reallocPrev` — growing keeps the heap laid out
* `Layout.freelist_reallocShrink` — the header of a rest that was split off
* `resized_iff` — `realloc` without `malloc` keeps the heap laid out exactly when nothing is split
  off
-/

namespace PiggyOS

open Infra

namespace Heap

variable {h : Heap} {bs pre post : List Block} {L : List U32} {b c q n : Block} {p size : U32}

/-! ## Growing -/

theorem reallocNext_eq (hl : Layout h (pre ++ [c, n] ++ post) L) (hn : n.free = true) :
    ∃ l, (h.reallocNext c.addr n.addr).1 =
      { (h.removeNodeFromFreelist n.addr).absorb (c.join n false) n.addr with blocks := l } := by
  have hmem := hl.freeList.within_remove hl.spaced (hl.mem_list (by simp) hn)
  unfold reallocNext
  dsimp only
  rw [hl.size_of_links hmem (show c ∈ _ by simp), hl.size_of_links hmem (show n ∈ _ by simp),
    setFree_setSize]
  exact ⟨_, rfl⟩

/-- **Growing into the block behind.** -/
theorem Layout.reallocNext (hl : Layout h (pre ++ [c, n] ++ post) L) (hc : c.free = false)
    (hn : n.free = true) :
    ∃ L', Layout (h.reallocNext c.addr n.addr).1 (pre ++ c.join n false :: post) L' ∧
      ∀ b ∈ pre ++ post, Keeps h (h.reallocNext c.addr n.addr).1 b := by
  obtain ⟨l, heq⟩ := reallocNext_eq hl hn
  have hm := covers_join c n false
  have hnL : n.addr ∈ L := hl.mem_list (by simp) hn
  have hremove := hl.freeList.remove hl.spaced hnL
  have hlist := hremove.absorb List.erase_subset (hl.not_mem_tags hm) n.addr
  have htail : Layout h ((pre ++ [c]) ++ n :: post) L := by simpa using hl
  have hperm := hl.perm
  simp only [freeAddrs_append, freeAddrs_cons, freeAddrs_nil, hc, hn] at hperm
  have hcut : L.Perm (freeAddrs pre ++ n.addr :: freeAddrs post) := by simpa using hperm
  rw [heq]
  refine ⟨L.erase n.addr, hl.of_absorb hm htail.tail_eq_iff
    (hl.freeList.within_remove hl.spaced hnL) (ends_removeNodeFromFreelist _)
    (Mem.Within.refl ∅ _) rfl (Set.empty_subset _) (fun _ hx => hx.elim) (hlist.setBlocks l) ?_⟩
  simpa [freeAddrs_append, freeAddrs_cons] using perm_erase hcut

theorem reallocPrev_eq (hl : Layout h (pre ++ [q, c] ++ post) L) (hq : q.free = true) :
    (h.reallocPrev p c.addr q.addr).1.mem =
      ((h.removeNodeFromFreelist q.addr).absorb (q.join c false) c.addr).mem.copy
        (blocksAfter q.addr 1) p c.real ∧
    (h.reallocPrev p c.addr q.addr).1.freelist =
      ((h.removeNodeFromFreelist q.addr).absorb (q.join c false) c.addr).freelist ∧
    (h.reallocPrev p c.addr q.addr).1.ends =
      ((h.removeNodeFromFreelist q.addr).absorb (q.join c false) c.addr).ends := by
  have hmem := hl.freeList.within_remove hl.spaced (hl.mem_list (show q ∈ _ by simp) hq)
  have hsum : getRealSize c.size + overhead + getRealSize q.size =
      getRealSize q.size + overhead + getRealSize c.size := by
    rw [BitVec.add_comm, BitVec.add_comm (getRealSize c.size), ← BitVec.add_assoc]
  unfold reallocPrev
  dsimp only
  rw [hl.size c (by simp), hl.size_of_links hmem (show q ∈ _ by simp), hsum, setFree_setSize]
  exact ⟨rfl, rfl, rfl⟩

/-- The bytes that `realloc` moves into the block before. -/
theorem Layout.moved_subset (hl : Layout h (pre ++ [q, c] ++ post) L) (hc : c.free = false) :
    bytes (blocksAfter q.addr 1) c.real ⊆ span [q, c] ∧
      (∀ x ∈ bytes (blocksAfter q.addr 1) c.real, x ∉ (q.join c false).tags) ∧
      ∀ x ∈ bytes (blocksAfter q.addr 1) c.real, x ∉ links L := by
  have hq : q ∈ pre ++ [q, c] ++ post := by simp
  have hcm : c ∈ pre ++ [q, c] ++ post := by simp
  obtain ⟨a, e, he, ⟨hqs, -, hcs, -, hce⟩, -, -⟩ := hl.exists_tiles
  have hce : c.stop = e := hce
  have hjoin := Block.stop_join false hcs (hl.stop_le hcm)
  have hdst : (blocksAfter q.addr 1).toNat = q.start + 12 := by
    have := hl.bounds hq
    unfold Block.start blocksAfter at *
    bv_omega
  have hcstop : c.stop = q.start + 4 * (q.real + 16) + 4 * (c.real + 16) := by
    rw [Block.stop, hcs, Block.stop]
  have hin : ∀ x ∈ bytes (blocksAfter q.addr 1) c.real,
      q.start + 12 ≤ x.toNat ∧ x.toNat < q.start + 12 + c.real := by
    intro x hx
    rwa [mem_bytes_iff (by omega), hdst] at hx
  have hqstop : q.stop = q.start + 4 * (q.real + 16) := rfl
  have hspan : bytes (blocksAfter q.addr 1) c.real ⊆ span [q, c] := by
    intro x hx
    have := hin x hx
    by_cases hxq : x.toNat < q.stop
    · exact ⟨q, by simp, by omega, hxq⟩
    · exact ⟨c, by simp, by omega, by omega⟩
  refine ⟨hspan, fun x hx htag => ?_, fun x hx hlinks => ?_⟩
  · have hstart : (q.join c false).start = q.start := rfl
    rw [Block.mem_tags (by omega), hstart, hjoin] at htag
    have := hin x hx
    omega
  · obtain ⟨b, hb, hbspan⟩ := hspan hx
    have hbm : b ∈ pre ++ [q, c] ++ post :=
      List.mem_append_left _ (List.mem_append_right _ hb)
    obtain ⟨hf, -, h1, h2⟩ := hl.link_of_mem_span hbm hbspan hlinks
    have := hin x hx
    rcases List.mem_pair.mp hb with rfl | rfl
    · omega
    · rw [hc] at hf
      cases hf

/-- **Growing into the block before.** -/
theorem Layout.reallocPrev (hl : Layout h (pre ++ [q, c] ++ post) L) (hq : q.free = true)
    (hc : c.free = false) :
    ∃ L', Layout (h.reallocPrev p c.addr q.addr).1 (pre ++ q.join c false :: post) L' := by
  obtain ⟨hmem, hfl, hends⟩ := reallocPrev_eq (p := p) hl hq
  have hm := covers_join q c false
  have hqL : q.addr ∈ L := hl.mem_list (by simp) hq
  have hremove := hl.freeList.remove hl.spaced hqL
  have hlist := hremove.absorb List.erase_subset (hl.not_mem_tags hm) c.addr
  have htail : Layout h ((pre ++ [q]) ++ c :: post) L := by simpa using hl
  obtain ⟨hspan, htags, hlinks⟩ := hl.moved_subset hc
  have hperm := hl.perm
  simp only [freeAddrs_append, freeAddrs_cons, freeAddrs_nil, hc, hq] at hperm
  have hcut : L.Perm (freeAddrs pre ++ q.addr :: freeAddrs post) := by simpa using hperm
  have hcopy : Mem.Within (bytes (blocksAfter q.addr 1) c.real)
      ((h.removeNodeFromFreelist q.addr).absorb (q.join c false) c.addr).mem
      (h.reallocPrev p c.addr q.addr).1.mem := by
    rw [hmem]
    exact Mem.within_copy (Set.Subset.refl _)
  refine ⟨L.erase q.addr, (hl.of_absorb hm htail.tail_eq_iff
    (hl.freeList.within_remove hl.spaced hqL) (ends_removeNodeFromFreelist _) hcopy hends
    (hspan.trans Set.subset_union_left) htags (hlist.congr hfl hcopy
      fun x hx hxm => hlinks x hxm (links_mono List.erase_subset hx)) ?_).1⟩
  simpa [freeAddrs_append, freeAddrs_cons] using perm_erase hcut

/-! ## Shrinking -/

/-- `realloc` splits something off the block: the request is smaller, and what is left, in 32 bits,
is not too small for a block. -/
def Splits (c : Block) (size : U32) : Prop :=
  size < c.size ∧ ¬ getRealSize c.size + overhead - blockSize size < 8 + overhead

/-- Where `realloc` puts what it splits off. -/
def splitAddr (a size : U32) : U32 :=
  blocksAfter (wordsAfter (wordsAfter a sizeofBlock) (roundedSize size)) 4

/-- What is left of the block. -/
def shrunk (c : Block) (size : U32) : Block := ⟨c.addr, mark (roundedSize size) false⟩

/-- What is split off, with the size word computed from `v`. -/
def splitOff (c : Block) (size v : U32) : Block := ⟨splitAddr c.addr size, mark v true⟩

theorem reallocShrink_of_not_splits (hl : Layout h bs L) (hc : c ∈ bs) (hp : headerOf p = c.addr)
    (hlt : size < c.size) (hsplit : ¬ Splits c size) : h.reallocShrink p size = h := by
  have hrest := not_not.mp fun hc => hsplit ⟨hlt, hc⟩
  unfold reallocShrink
  dsimp only
  rw [hp, hl.size c hc, if_pos hrest]

/-- What `realloc` does when it splits something off. -/
theorem reallocShrink_eq (hl : Layout h bs L) (hc : c ∈ bs) (hp : headerOf p = c.addr)
    (hsplit : Splits c size) :
    ((h.stamp (shrunk c size)).isFree (h.getNextBlock c.addr) = true ∧
      ∃ (g k : Heap) (l : List U32), g = (h.stamp (shrunk c size)).stamp (splitOff c size
          (getRealSize c.size + overhead - blockSize size +
            getRealSize ((h.stamp (shrunk c size)).size (h.getNextBlock c.addr)))) ∧
        h.reallocShrink p size = { k.addNodeToFreelist (splitAddr c.addr size) with blocks := l } ∧
        k.mem = (g.removeNodeFromFreelist (h.getNextBlock c.addr)).mem ∧
        k.freelist = (g.removeNodeFromFreelist (h.getNextBlock c.addr)).freelist) ∨
    ∃ l, h.reallocShrink p size = { ((h.stamp (shrunk c size)).stamp (splitOff c size
      (getRealSize c.size + overhead - blockSize size - overhead))).addNodeToFreelist
        (splitAddr c.addr size) with blocks := l } := by
  have hback : blockSize size - overhead = roundedSize size := BitVec.add_sub_cancel ..
  have hsize : (h.setSize c.addr (mark (roundedSize size) false)).size c.addr =
      mark (roundedSize size) false := size_store_self h _ _
  unfold reallocShrink
  dsimp only
  rw [hp, hl.size c hc, if_neg hsplit.2, hback, setFree_setSize, hsize, getRealSize_mark,
    getRealSize_roundedSize, setFree_setSize, setFree_setSize]
  split
  · next hcond =>
    rw [Bool.and_eq_true] at hcond
    refine Or.inl ⟨hcond.2, _, _, _, rfl, rfl, ?_, ?_⟩
    · split <;> rfl
    · split <;> rfl
  · exact Or.inr ⟨_, rfl⟩

/-- **The header of the rest.** -/
theorem Layout.freelist_reallocShrink (hl : Layout h bs L) (hc : c ∈ bs) (hp : headerOf p = c.addr)
    (hsplit : Splits c size) (hne : splitAddr c.addr size ≠ 0) :
    (h.reallocShrink p size).freelist = splitAddr c.addr size := by
  rcases reallocShrink_eq hl hc hp hsplit with ⟨-, g, k, l, -, heq, -, -⟩ | ⟨l, heq⟩
  · rw [heq]
    exact freelist_addNodeToFreelist hne
  · rw [heq]
    exact freelist_addNodeToFreelist hne

/-! ## Resizing -/

/-- The heap `h'` is laid out, with an allocated block at `block`; what was split off the block `c`
is a free block right behind it. -/
def Resized (h' : Heap) (c : Block) (size block : U32) : Prop :=
  ∃ pre c' post L', Layout h' (pre ++ c' :: post) L' ∧ c'.addr = block ∧ c'.free = false ∧
    (Splits c size → c'.real = (roundedSize size).toNat ∧
      ∃ rem post', post = rem :: post' ∧ rem.free = true)

/-- A header inside of the rest is none of a laid-out heap. -/
theorem not_resized_of_freelist {h' : Heap} (hsplit : Splits c size)
    (hlist : splitAddr c.addr size ≠ 0 → h'.freelist = splitAddr c.addr size) :
    ¬ Resized h' c size c.addr := by
  rintro ⟨pre, c', post, L', hl', haddr, -, hrest⟩
  obtain ⟨hreal, rem, post, rfl, -⟩ := hrest hsplit
  have hrem : rem ∈ pre ++ c' :: rem :: post := by simp
  obtain ⟨hpos, hlen, hstop⟩ := hl'.bounds hrem
  obtain ⟨e, -, htiles⟩ := hl'.tiles
  obtain ⟨m, -, -, -, hadj, -⟩ := tiles_append.mp htiles
  have hstart : c'.start = c.start := congrArg BitVec.toNat haddr
  have hplace : (splitAddr c.addr size).toNat = rem.start + 32 := by
    unfold Block.stop at *
    rw [hreal, hstart] at hadj
    unfold splitAddr blocksAfter wordsAfter sizeofBlock
    unfold Block.start at *
    bv_omega
  have hne : splitAddr c.addr size ≠ 0 := by
    intro h0
    rw [h0] at hplace
    exact absurd hplace (by simp)
  rw [← hlist hne] at hplace
  have hinside := hl'.freelist_not_inside hrem (by omega)
  omega

end Heap

namespace Kernel

variable {k : Kernel} {bs : List Block} {L : List U32} {c : Block} {n : Nat} {p size : U32}

/-- `realloc` can grow the block into the one behind. -/
def GrowsNext (k : Kernel) (nptr size : U32) : Prop :=
  k.heap.tail ≠ nptr ∧ k.heap.isFree (k.heap.getNextBlock nptr) = true ∧
    roundedSize size ≤ getRealSize (k.heap.size nptr) + overhead +
      getRealSize (k.heap.size (k.heap.getNextBlock nptr))

/-- `realloc` can grow the block into the one before. -/
def GrowsPrev (k : Kernel) (nptr size : U32) : Prop :=
  k.heap.head ≠ nptr ∧ k.heap.isFree (k.heap.getPrevBlock nptr) = true ∧
    roundedSize size ≤ getRealSize (k.heap.size nptr) + overhead +
      getRealSize (k.heap.size (k.heap.getPrevBlock nptr))

theorem growsNext_iff {nptr : U32} : (decide (k.heap.tail ≠ nptr) &&
      k.heap.isFree (k.heap.getNextBlock nptr) && decide (getRealSize (k.heap.size nptr) +
        overhead + getRealSize (k.heap.size (k.heap.getNextBlock nptr)) ≥ roundedSize size)) =
      true ↔ k.GrowsNext nptr size := by
  simp [GrowsNext, and_assoc]

theorem growsPrev_iff {nptr : U32} : (decide (k.heap.head ≠ nptr) &&
      k.heap.isFree (k.heap.getPrevBlock nptr) && decide (getRealSize (k.heap.size nptr) +
        overhead + getRealSize (k.heap.size (k.heap.getPrevBlock nptr)) ≥ roundedSize size)) =
      true ↔ k.GrowsPrev nptr size := by
  simp [GrowsPrev, and_assoc]

section

variable {a w : U32} (ksbrk : Kernel → U32 → Option (Kernel × U32)) (hp : p ≠ 0) (hsize : size ≠ 0)
  (ha : headerOf p = a)

include hp hsize ha

/-- A block that has the size already. -/
theorem reallocWith_same (hw : k.heap.size a = size) :
    k.reallocWith ksbrk p size = some (k, ⟨p, a⟩) := by
  unfold reallocWith
  rw [if_neg hp, if_neg hsize, ha]
  exact if_pos hw

theorem reallocWith_shrink (hw : k.heap.size a = w) (hgt : size < w) :
    k.reallocWith ksbrk p size = some ({ k with heap := k.heap.reallocShrink p size }, ⟨p, a⟩) := by
  unfold reallocWith
  rw [if_neg hp, if_neg hsize, ha]
  dsimp only
  rw [hw, if_neg (BitVec.ne_of_lt hgt).symm, if_neg (BitVec.lt_asymm hgt)]

variable (hw : k.heap.size a = w) (hlt : w < size)

include hw hlt

theorem reallocWith_next (hnext : k.GrowsNext a size) : k.reallocWith ksbrk p size =
    some ({ k with heap := (k.heap.reallocNext a (k.heap.getNextBlock a)).1 },
      (k.heap.reallocNext a (k.heap.getNextBlock a)).2) := by
  unfold reallocWith
  rw [if_neg hp, if_neg hsize, ha]
  dsimp only
  rw [if_neg (hw ▸ BitVec.ne_of_lt hlt), if_pos (hw ▸ hlt), if_pos (growsNext_iff.mpr hnext)]

variable (hnext : ¬ k.GrowsNext a size)

include hnext

theorem reallocWith_prev (hprev : k.GrowsPrev a size) : k.reallocWith ksbrk p size =
    some ({ k with heap := (k.heap.reallocPrev p a (k.heap.getPrevBlock a)).1 },
      (k.heap.reallocPrev p a (k.heap.getPrevBlock a)).2) := by
  unfold reallocWith
  rw [if_neg hp, if_neg hsize, ha]
  dsimp only
  rw [if_neg (hw ▸ BitVec.ne_of_lt hlt), if_pos (hw ▸ hlt), if_neg (mt growsNext_iff.mp hnext),
    if_pos (growsPrev_iff.mpr hprev)]

/-- A block that is moved to where `malloc` says. -/
theorem reallocWith_move (hprev : ¬ k.GrowsPrev a size) : k.reallocWith ksbrk p size =
    (k.mallocWith ksbrk size).map fun (k, r) =>
      ({ k with
        heap := Heap.free { k.heap with
          mem := k.heap.mem.copy r.ptr p (getRealSize (k.heap.size a)).toNat } p }, r) := by
  unfold reallocWith
  rw [if_neg hp, if_neg hsize, ha]
  dsimp only
  rw [if_neg (hw ▸ BitVec.ne_of_lt hlt), if_pos (hw ▸ hlt), if_neg (mt growsNext_iff.mp hnext),
    if_neg (mt growsPrev_iff.mp hprev)]

end

/-- The block behind, when `realloc` grows into it. -/
theorem GrowsNext.exists_next {pre post : List Block} (hg : k.GrowsNext c.addr size)
    (hl : k.heap.Layout (pre ++ c :: post) L) :
    ∃ n post', post = n :: post' ∧ n.free = true ∧ k.heap.getNextBlock c.addr = n.addr := by
  rcases hl.next_cases with ⟨n, post, rfl, hn⟩ | ⟨hn, -⟩
  · exact ⟨n, post, rfl, hn, hl.getNextBlock_eq⟩
  · rw [hg.2.1] at hn
    cases hn

/-- The block before, when `realloc` grows into it. -/
theorem GrowsPrev.exists_prev {pre post : List Block} (hg : k.GrowsPrev c.addr size)
    (hl : k.heap.Layout (pre ++ c :: post) L) :
    ∃ pre' q, pre = pre' ++ [q] ∧ q.free = true ∧ k.heap.getPrevBlock c.addr = q.addr := by
  rcases hl.prev_cases with ⟨pre, q, rfl, hq⟩ | ⟨hq, -⟩
  · have hl' : k.heap.Layout (pre ++ q :: c :: post) L := by simpa using hl
    exact ⟨pre, q, rfl, hq, hl'.getPrevBlock_eq⟩
  · rw [hg.2.1] at hq
    cases hq

/--
**Resizing in place.** In every laid-out heap, a `realloc` that does not call `malloc` leaves a
laid-out heap exactly when it splits nothing off.
-/
theorem resized_iff (hl : k.heap.Layout bs L) (hc : c ∈ bs) (halloc : c.free = false)
    (hp : headerOf p = c.addr) (hp0 : p ≠ 0) (hsize : size ≠ 0)
    (hserve : c.size < size → k.GrowsNext c.addr size ∨ k.GrowsPrev c.addr size) :
    (∃ k' r, k.realloc n p size = some (k', r) ∧ Heap.Resized k'.heap c size r.block) ↔
      ¬ Heap.Splits c size := by
  obtain ⟨pre, post, rfl⟩ := List.append_of_mem hc
  have hword := hl.size c hc
  unfold realloc
  rcases Nat.lt_trichotomy c.size.toNat size.toNat with hlt | heq | hgt
  · have hns : ¬ Heap.Splits c size := fun hs => BitVec.lt_asymm hlt hs.1
    refine iff_of_true ?_ hns
    by_cases hnext : k.GrowsNext c.addr size
    · have hrun := reallocWith_next (ksbrk n) hp0 hsize hp hword hlt hnext
      obtain ⟨m, post, rfl, hm, haddr⟩ := hnext.exists_next hl
      have hcut : k.heap.Layout (pre ++ [c, m] ++ post) L := by simpa using hl
      obtain ⟨L', hl', -⟩ := hcut.reallocNext halloc hm
      rw [haddr] at hrun
      exact ⟨_, _, hrun, pre, c.join m false, post, L', hl', rfl, Block.free_join false,
        fun hs => absurd hs hns⟩
    · have hprev := (hserve hlt).resolve_left hnext
      have hrun := reallocWith_prev (ksbrk n) hp0 hsize hp hword hlt hnext hprev
      obtain ⟨pre, q, rfl, hq, haddr⟩ := hprev.exists_prev hl
      have hcut : k.heap.Layout (pre ++ [q, c] ++ post) L := by simpa using hl
      obtain ⟨L', hl'⟩ := hcut.reallocPrev (p := p) hq halloc
      rw [haddr] at hrun
      exact ⟨_, _, hrun, pre, q.join c false, post, L', hl', rfl, Block.free_join false,
        fun hs => absurd hs hns⟩
  · -- nothing to do
    have heq := BitVec.eq_of_toNat_eq heq
    have hns : ¬ Heap.Splits c size := fun hs => absurd hs.1 (by rw [heq]; exact BitVec.lt_irrefl _)
    refine iff_of_true ⟨k, _, reallocWith_same (ksbrk n) hp0 hsize hp (hword.trans heq), ?_⟩ hns
    exact ⟨pre, c, post, L, hl, rfl, halloc, fun hs => absurd hs hns⟩
  · have hrun := reallocWith_shrink (ksbrk n) hp0 hsize hp hword hgt
    constructor
    · rintro ⟨k', r, hr, hres⟩ hsplit
      rw [hrun] at hr
      cases hr
      exact Heap.not_resized_of_freelist hsplit (hl.freelist_reallocShrink hc hp hsplit) hres
    · intro hns
      rw [Heap.reallocShrink_of_not_splits hl hc hp hgt hns] at hrun
      exact ⟨_, _, hrun, pre, c, post, L, hl, rfl, halloc, fun hs => absurd hs hns⟩

/-- The middle one of the three blocks grows into the last. -/
theorem resized_iff_threeHeap :
    (∃ k' r, realloc 0 ⟨bare.vmm, Heap.threeHeap⟩ 0x1150 64 = some (k', r) ∧
      Heap.Resized k'.heap ⟨0x10C0, 32⟩ 64 r.block) ↔ ¬ Heap.Splits ⟨0x10C0, 32⟩ 64 := by
  have hgrows : GrowsNext ⟨bare.vmm, Heap.threeHeap⟩ 0x10C0 64 := by
    unfold GrowsNext
    decide +kernel
  exact resized_iff (k := ⟨bare.vmm, Heap.threeHeap⟩) (c := ⟨0x10C0, 32⟩) Heap.layout_threeHeap
    (by decide) (by decide) (by decide) (by decide) (by decide) fun _ => Or.inl hgrows

/-- A heap of one allocated block of 64. -/
def takenHeap : Heap :=
  { bare.heap.stamp ⟨0x1000, 64⟩ with head := 0x1000, tail := 0x1000, freelist := 0 }

theorem layout_takenHeap : takenHeap.Layout [⟨0x1000, 64⟩] [] where
  ne := by decide
  head_ne := by decide
  tiles := ⟨0x1140, by decide, rfl, by decide, rfl⟩
  tail := rfl
  size := by decide +kernel
  trailer := by decide +kernel
  freeList := ⟨rfl, trivial, by decide, by decide⟩
  perm := List.Perm.refl _

/-- Shrunk to 16, the block ends at `0x1080`, and the rest has its header at `0x10A0`. -/
theorem not_resized_takenHeap :
    ¬ ∃ k' r, realloc 0 ⟨bare.vmm, takenHeap⟩ 0x1090 16 = some (k', r) ∧
      Heap.Resized k'.heap ⟨0x1000, 64⟩ 16 r.block := by
  rintro ⟨k', r, hr, hres⟩
  have hword : takenHeap.size 0x1000 = 64 := layout_takenHeap.size ⟨0x1000, 64⟩ (by simp)
  have hsplit : Heap.Splits ⟨0x1000, 64⟩ 16 := by
    unfold Heap.Splits
    decide
  have hrun : realloc 0 ⟨bare.vmm, takenHeap⟩ 0x1090 16 =
      some (⟨bare.vmm, takenHeap.reallocShrink 0x1090 16⟩, ⟨0x1090, 0x1000⟩) := by
    unfold realloc reallocWith
    rw [if_neg (by decide), if_neg (by decide)]
    dsimp only
    rw [show headerOf 0x1090 = 0x1000 by decide, hword, if_neg (by decide), if_neg (by decide)]
  have hlist := layout_takenHeap.freelist_reallocShrink (c := ⟨0x1000, 64⟩) (p := 0x1090) (by simp)
    (by decide) hsplit
  obtain ⟨rfl, rfl⟩ := Prod.mk.inj (Option.some.inj (hrun.symm.trans hr))
  exact Heap.not_resized_of_freelist hsplit hlist hres

end Kernel

end PiggyOS
