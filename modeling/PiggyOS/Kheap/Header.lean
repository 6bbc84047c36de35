import PiggyOS.Kheap.Split

/-!
# The header of the block that `malloc` takes from the free list

After the size word of the block has been set, `malloc` stores through links: to the links of the
block, of the free block behind it when that joins the rest, and to the head of the free list. In
any memory whatever these stores leave the header of the block alone when none of the blocks they
go to has its link there.

* `KeepsHeader` — this, said of the state before the call
* `size_mallocBest` — then the size word is what `malloc` has set it to
* `FreeBlocks.keepsHeader` — it holds of a free list that is in order
-/

namespace PiggyOS

open Infra

namespace Heap

/-- A word that is stored at `x` leaves the header of `b` as it is. -/
def OffHeader (x b : U32) : Prop := 12 ≤ (x - b).toNat ∧ 4 ≤ (b - x).toNat

/-- `y->next` is in the header of `b` only if `y` is `b`; nothing is stored through NULL. -/
def NextOff (y b : U32) : Prop := y ≠ 0 → y ≠ b → OffHeader (y + 8) b

/-- `y->prev` is in the header of `b` only if `y` is `b`. -/
def PrevOff (y b : U32) : Prop := y ≠ 0 → y ≠ b → OffHeader (y + 4) b

section

variable (h : Heap) (b size : U32)

/-- The block is handed out whole. -/
structure KeepsWhole : Prop where
  trailer : 4 * (getRealSize (h.size b) + 12) ≠ 8
  prev : NextOff (h.prev b) b
  next : PrevOff (h.next b) b

/-- The rest of the block becomes a block of its own. It goes to the front of the free list, also
when the block itself is there, unless its address is NULL. -/
structure KeepsRest : Prop where
  trailer : 4 * (getRealSize (h.size b) + 8) ≠ 0
  first : PrevOff h.freelist b
  prev : (restAddr b size ≠ 0 → h.freelist ≠ b) → NextOff (h.prev b) b
  next : PrevOff (h.next b) b

/-- The head of the free list when the block `n` has been taken out. -/
def freelistWithout (n : U32) : U32 := if h.prev n = 0 then h.next n else h.freelist

/-- The free block `n` behind joins the rest. -/
structure KeepsJoined (n : U32) : Prop where
  tags : OffHeader b n ∧ OffHeader (b + 4 * (roundedSize size + 12)) n
  trailer : 4 * (getRealSize (h.size b) + getRealSize (h.size n) + 24) ≠ 0
  prevBehind : NextOff (h.prev n) b ∧ NextOff (h.prev n) n
  nextBehind : PrevOff (h.next n) b ∧ PrevOff (h.next n) n
  first : PrevOff (h.freelistWithout n) b
  prev : (restAddr b size ≠ 0 → h.freelistWithout n ≠ b) → h.next n ≠ b → NextOff (h.prev b) b
  next : h.prev n ≠ b → PrevOff (h.next b) b

/-- The stores of `malloc` for the block `b`, once the size word is set, leave its header alone. -/
structure KeepsHeader : Prop where
  whole : getRealSize (h.size b) + overhead - blockSize size < 8 + overhead → KeepsWhole h b
  /-- The size words of the block are not over that of the one behind. -/
  behind : ¬ getRealSize (h.size b) + overhead - blockSize size < 8 + overhead →
    h.getNextBlock b ≠ 0 → Apart b (h.getNextBlock b) ∧
      Apart (b + 4 * (roundedSize size + 12)) (h.getNextBlock b)
  rest : ¬ getRealSize (h.size b) + overhead - blockSize size < 8 + overhead →
    h.isFree (h.getNextBlock b) = false → KeepsRest h b size
  joined : ¬ getRealSize (h.size b) + overhead - blockSize size < 8 + overhead →
    h.isFree (h.getNextBlock b) = true →
    KeepsJoined h b size (h.getNextBlock b)

end

/-- The three words of the header of `b`. -/
structure HasHeader (h : Heap) (b w p q : U32) : Prop where
  size : h.size b = w
  prev : h.prev b = p
  next : h.next b = q

section

variable {h h' : Heap} {b w p q x y v : U32}

theorem hasHeader_self (h : Heap) (b : U32) : h.HasHeader b (h.size b) (h.prev b) (h.next b) :=
  ⟨rfl, rfl, rfl⟩

namespace HasHeader

theorem of_mem_eq (hb : h.HasHeader b w p q) (hmem : h'.mem = h.mem) : h'.HasHeader b w p q :=
  ⟨(congrArg (Mem.read32 · b) hmem).trans hb.size,
    (congrArg (Mem.read32 · (b + 4)) hmem).trans hb.prev,
    (congrArg (Mem.read32 · (b + 8)) hmem).trans hb.next⟩

theorem store (hb : h.HasHeader b w p q) (hx : OffHeader x b) :
    (h.store x v).HasHeader b w p q := by
  obtain ⟨hlo, hhi⟩ := hx
  exact ⟨(Mem.read32_write32_of_apart ⟨by bv_omega, by bv_omega⟩).trans hb.size,
    (Mem.read32_write32_of_apart ⟨by bv_omega, by bv_omega⟩).trans hb.prev,
    (Mem.read32_write32_of_apart ⟨by bv_omega, by bv_omega⟩).trans hb.next⟩

theorem setNext (hb : h.HasHeader b w p q) (h0 : y ≠ 0) (hy : NextOff y b) :
    (h.setNext y v).HasHeader b w p (if y = b then v else q) := by
  by_cases heq : y = b
  · subst heq
    rw [if_pos rfl]
    exact ⟨(Mem.read32_write32_of_apart ⟨by bv_omega, by bv_omega⟩).trans hb.size,
      (Mem.read32_write32_of_apart ⟨by bv_omega, by bv_omega⟩).trans hb.prev,
      Mem.read32_write32 ..⟩
  · rw [if_neg heq]
    exact hb.store (hy h0 heq)

theorem setPrev (hb : h.HasHeader b w p q) (h0 : y ≠ 0) (hy : PrevOff y b) :
    (h.setPrev y v).HasHeader b w (if y = b then v else p) q := by
  by_cases heq : y = b
  · subst heq
    rw [if_pos rfl]
    exact ⟨(Mem.read32_write32_of_apart ⟨by bv_omega, by bv_omega⟩).trans hb.size,
      Mem.read32_write32 .., (Mem.read32_write32_of_apart ⟨by bv_omega, by bv_omega⟩).trans hb.next⟩
  · rw [if_neg heq]
    exact hb.store (hy h0 heq)

/-- `removeNodeFromFreelist(x)` writes to the links of the neighbours of `x`. -/
theorem remove {wx px qx : U32} (hb : h.HasHeader b w p q) (hb0 : b ≠ 0)
    (hx : h.HasHeader x wx px qx) (hx0 : x ≠ 0) (hprev : NextOff px b) (hnext : PrevOff qx b)
    (hself : NextOff px x) :
    (h.removeNodeFromFreelist x).HasHeader b w (if qx = b then px else p)
      (if px = b then qx else q) := by
  unfold removeNodeFromFreelist
  rw [if_neg hx0, hx.prev, hx.next]
  dsimp only
  by_cases hp0 : px = 0
  · rw [if_neg (not_not.mpr hp0), hp0, if_neg (Ne.symm hb0)]
    have hb : { h with freelist := qx }.HasHeader b w p q := hb.of_mem_eq rfl
    split
    · next hq0 => exact hb.setPrev hq0 hnext
    · next hq0 =>
      obtain rfl := not_not.mp hq0
      rwa [if_neg (Ne.symm hb0)]
  · rw [if_pos hp0]
    have hx := hx.setNext (v := qx) hp0 hself
    rw [ite_self] at hx
    have hb := hb.setNext (v := qx) hp0 hprev
    rw [hx.prev, hx.next]
    split
    · next hq0 => exact hb.setPrev hq0 hnext
    · next hq0 =>
      obtain rfl := not_not.mp hq0
      rwa [if_neg (Ne.symm hb0)]

/-- `addNodeToFreelist(t)` writes to the links of `t` and of the first node before. -/
theorem add {t : U32} (hb : h.HasHeader b w p q) (hb0 : b ≠ 0) (hnext : OffHeader (t + 8) b)
    (hprev : OffHeader (t + 4) b) (hfirst : PrevOff h.freelist b) :
    (h.addNodeToFreelist t).HasHeader b w (if t ≠ 0 ∧ h.freelist = b then t else p) q := by
  by_cases ht0 : t = 0
  · unfold addNodeToFreelist
    rwa [if_pos ht0, if_neg fun hand => hand.1 ht0]
  rw [addNodeToFreelist_eq ht0]
  refine HasHeader.store (HasHeader.of_mem_eq (h := (h.setNext t h.freelist).setPrevIf h.freelist t)
    ?_ rfl) hprev
  have hb : (h.setNext t h.freelist).HasHeader b w p q := hb.store hnext
  simp only [ne_eq, ht0, not_false_eq_true, true_and]
  unfold setPrevIf
  split
  · next hf0 => exact hb.setPrev hf0 hfirst
  · next hf0 => rwa [if_neg fun heq => hf0 fun h0 => hb0 (heq.symm.trans h0)]

/-- The size words of another block. -/
theorem stamp {c : Block} (hb : h.HasHeader b w p q) (haddr : OffHeader c.addr b)
    (htrailer : OffHeader c.trailer b) : (h.stamp c).HasHeader b w p q := by
  refine HasHeader.of_mem_eq (h := (h.store c.addr c.size).store c.trailer c.size) ?_
    (mem_stamp h c)
  exact (hb.store haddr).store htrailer

end HasHeader

/-- The size words of the block itself. -/
theorem HasHeader.stamp_self {c : Block} (hb : h.HasHeader c.addr w p q)
    (htrailer : c.trailer = c.addr ∨ OffHeader c.trailer c.addr) :
    (h.stamp c).HasHeader c.addr c.size p q := by
  have hstore : (h.store c.addr c.size).HasHeader c.addr c.size p q :=
    ⟨Mem.read32_write32 .., (Mem.read32_write32_of_apart ⟨by bv_omega, by bv_omega⟩).trans hb.prev,
      (Mem.read32_write32_of_apart ⟨by bv_omega, by bv_omega⟩).trans hb.next⟩
  refine HasHeader.of_mem_eq (h := (h.store c.addr c.size).store c.trailer c.size) ?_
    (mem_stamp h c)
  rcases htrailer with heq | hoff
  · rw [heq]
    refine hstore.of_mem_eq ?_
    exact Mem.write32_write32 ..
  · exact hstore.store hoff

theorem freelist_remove {wx px qx : U32} (hx : h.HasHeader x wx px qx) (hx0 : x ≠ 0) :
    (h.removeNodeFromFreelist x).freelist = if px = 0 then qx else h.freelist := by
  unfold removeNodeFromFreelist
  rw [if_neg hx0, hx.prev, hx.next]
  dsimp only
  by_cases hp0 : px = 0
  · rw [if_neg (not_not.mpr hp0), if_pos hp0]
    split <;> rfl
  · rw [if_pos hp0, if_neg hp0]
    split <;> rfl

/-! ## Where the size words go -/

variable {size : U32}

theorem trailer_eq_add (a w : U32) : (Block.mk a w).trailer = a + 4 * (getRealSize w + 12) := by
  unfold Block.trailer wordsAfter sizeofBlock
  bv_omega

/-- The size word behind a block of even size. -/
theorem trailer_whole (hne : 4 * (getRealSize w + 12) ≠ 8) :
    (Block.mk b (mark (getRealSize w) false)).trailer = b ∨
      OffHeader (Block.mk b (mark (getRealSize w) false)).trailer b := by
  have heven := getRealSize_toNat w
  rw [trailer_eq_add, getRealSize_mark, getRealSize_getRealSize]
  unfold OffHeader
  bv_omega

/-- The size word behind a block of a size that `malloc` rounds to. -/
theorem offHeader_trailer (b size : U32) :
    OffHeader (Block.mk b (mark (roundedSize size) false)).trailer b := by
  have hround := roundedSize_toNat size
  rw [trailer_eq_add, getRealSize_mark, getRealSize_roundedSize]
  unfold OffHeader
  bv_omega

/-- The header of the rest. -/
theorem offHeader_restAddr (b size : U32) : OffHeader (restAddr b size) b ∧
    OffHeader (restAddr b size + 4) b ∧ OffHeader (restAddr b size + 8) b := by
  have hround := roundedSize_toNat size
  unfold OffHeader restAddr blockSize wordsBefore wordsAfter overhead sizeofBlock
  bv_omega

/-- A word behind a number of words that is even and not 0. -/
theorem offHeader_of_even {y : U32} (hne : 4 * y ≠ 0) (heven : y.toNat % 2 = 0) :
    OffHeader (b + 4 * y + 4) b := by
  have hmul : (4 * y).toNat = 4 * y.toNat % 2 ^ 32 := BitVec.toNat_mul ..
  have hpos : (4 * y).toNat ≠ 0 := fun h0 => hne (BitVec.eq_of_toNat_eq h0)
  generalize 4 * y = z at hmul hpos
  unfold OffHeader
  bv_omega

theorem restAddr_eq_add (b size : U32) : restAddr b size = b + 4 * (roundedSize size + 13) := by
  unfold restAddr blockSize wordsBefore wordsAfter overhead sizeofBlock
  generalize roundedSize size = n
  bv_omega

/-- The size word behind the rest, whose size has become `x`. -/
theorem offHeader_restTrailer {x : U32} (heven : x.toNat % 2 = 0)
    (hne : 4 * (roundedSize size + x + 24) ≠ 0) :
    OffHeader (Block.mk (restAddr b size) (mark x true)).trailer b := by
  have hround := roundedSize_toNat size
  have hreal : getRealSize x = x := BitVec.eq_of_toNat_eq (by rw [getRealSize_toNat]; omega)
  rw [trailer_eq_add, getRealSize_mark, hreal, restAddr_eq_add]
  have hsum : (roundedSize size + x + 24).toNat % 2 = 0 := by
    rw [BitVec.toNat_add, BitVec.toNat_add, show (24 : U32).toNat = 24 from rfl]
    omega
  have hoff := offHeader_of_even (b := b) hne hsum
  convert hoff using 1
  generalize roundedSize size = n
  clear hround hne hsum hoff heven hreal
  bv_omega

theorem getRealSize_even (x : U32) : (getRealSize x).toNat % 2 = 0 := by
  rw [getRealSize_toNat]
  omega

theorem roundedSize_even (size : U32) : (roundedSize size).toNat % 2 = 0 := by
  rw [roundedSize_toNat]
  omega

theorem sub_even {x y : U32} (hx : x.toNat % 2 = 0) (hy : y.toNat % 2 = 0) :
    (x - y).toNat % 2 = 0 := by
  rw [BitVec.toNat_sub]
  omega

theorem add_even {x y : U32} (hx : x.toNat % 2 = 0) (hy : y.toNat % 2 = 0) :
    (x + y).toNat % 2 = 0 := by
  rw [BitVec.toNat_add]
  omega

/-- The size word behind what is left of `b`. -/
theorem offHeader_left (hne : 4 * (getRealSize w + 8) ≠ 0) :
    OffHeader (Block.mk (restAddr b size)
      (mark (getRealSize w + overhead - blockSize size - overhead) true)).trailer b := by
  have hleft : getRealSize w + overhead - blockSize size - overhead =
      getRealSize w - roundedSize size - 16 := by
    unfold blockSize overhead sizeofBlock
    generalize getRealSize w = r, roundedSize size = n
    bv_omega
  rw [hleft]
  refine offHeader_restTrailer
    (sub_even (sub_even (getRealSize_even w) (roundedSize_even size)) rfl) ?_
  convert hne using 2
  generalize getRealSize w = r, roundedSize size = n
  bv_omega

/-- The size word behind what is left of `b` and a block behind it. -/
theorem offHeader_joined {x : U32} (hne : 4 * (getRealSize w + getRealSize x + 24) ≠ 0) :
    OffHeader (Block.mk (restAddr b size) (mark (getRealSize w + overhead - blockSize size -
      overhead + getRealSize x + overhead) true)).trailer b := by
  have hleft : getRealSize w + overhead - blockSize size - overhead + getRealSize x + overhead =
      getRealSize w - roundedSize size + getRealSize x := by
    unfold blockSize overhead sizeofBlock
    generalize getRealSize w = r, roundedSize size = n, getRealSize x = m
    bv_omega
  rw [hleft]
  refine offHeader_restTrailer (add_even
    (sub_even (getRealSize_even w) (roundedSize_even size)) (getRealSize_even x)) ?_
  convert hne using 2
  generalize getRealSize w = r, roundedSize size = n, getRealSize x = m
  bv_omega

/-! ## The stores of a call -/

section

variable (hb0 : b ≠ 0)

include hb0

/-- The rest goes to the front of the free list, and the block is taken out. -/
theorem size_of_rest {t : U32} {k : Heap} {l : List U32} (hk : k.HasHeader b w p q)
    (ht : OffHeader t b ∧ OffHeader (t + 4) b ∧ OffHeader (t + 8) b)
    (hfirst : PrevOff k.freelist b) (hprev : (t ≠ 0 → k.freelist ≠ b) → NextOff p b)
    (hnext : PrevOff q b) :
    (removeNodeFromFreelist { k.addNodeToFreelist t with blocks := l } b).size b = w := by
  have hadd := hk.add hb0 ht.2.2 ht.2.1 hfirst
  have hadd : { k.addNodeToFreelist t with blocks := l }.HasHeader b w
    (if t ≠ 0 ∧ k.freelist = b then t else p) q := hadd.of_mem_eq rfl
  have hlink : NextOff (if t ≠ 0 ∧ k.freelist = b then t else p) b := by
    split
    · exact fun _ _ => ht.2.2
    · next hne => exact hprev fun ht0 hf => hne ⟨ht0, hf⟩
  exact (hadd.remove hb0 hadd hb0 hlink hnext hlink).size

/-- The block is handed out whole. -/
theorem size_mallocBest_whole (hk : KeepsWhole h b)
    (hrest : getRealSize (h.size b) + overhead - blockSize size < 8 + overhead) :
    (h.mallocBest b (blockSize size)).1.size b = mark (getRealSize (h.size b)) false := by
  have hstamp := (hasHeader_self h b).stamp_self (c := ⟨b, mark (getRealSize (h.size b)) false⟩)
    (trailer_whole hk.trailer)
  rw [mallocBest_whole (b := ⟨b, h.size b⟩) rfl hrest]
  exact (hstamp.remove hb0 hstamp hb0 hk.prev hk.next hk.prev).size

/-- What is left becomes a block of its own. -/
theorem size_splitRest {g : Heap} {n : U32} (hg : g.HasHeader b w (h.prev b) (h.next b))
    (hlist : g.freelist = h.freelist) (hfree : g.isFree n = false) (hk : KeepsRest h b size) :
    ((g.splitRest b (restAddr b size) (getRealSize (h.size b) + overhead - blockSize size)
      n).removeNodeFromFreelist b).size b = w := by
  have hcond : ¬ (decide (b ≠ g.tail) && g.isFree n) = true := by simp [hfree]
  obtain ⟨k, l, heq, hmem, hkl, -⟩ := splitRest_of_not_free
    (restAddr b size) (getRealSize (h.size b) + overhead - blockSize size) hcond
  have ht := offHeader_restAddr b size
  have hstamp := hg.stamp (c := ⟨restAddr b size,
    mark (getRealSize (h.size b) + overhead - blockSize size - overhead) true⟩) ht.1
    (offHeader_left hk.trailer)
  have hk' : k.HasHeader b w (h.prev b) (h.next b) := hstamp.of_mem_eq hmem
  rw [heq]
  rw [hlist] at hkl
  exact size_of_rest hb0 hk' ht (hkl ▸ hk.first) (hkl ▸ hk.prev) hk.next

/-- The free block behind becomes part of the rest. -/
theorem size_splitRest_joined {g : Heap} {n : U32} (hg : g.HasHeader b w (h.prev b) (h.next b))
    (hgn : g.HasHeader n (h.size n) (h.prev n) (h.next n)) (hlist : g.freelist = h.freelist)
    (hn0 : n ≠ 0) (htail : b ≠ g.tail) (hfree : g.isFree n = true) (hk : KeepsJoined h b size n) :
    ((g.splitRest b (restAddr b size) (getRealSize (h.size b) + overhead - blockSize size)
      n).removeNodeFromFreelist b).size b = w := by
  have hcond : (decide (b ≠ g.tail) && g.isFree n) = true := by simp [htail, hfree]
  obtain ⟨k, l, heq, hmem, hkl, -⟩ := splitRest_of_free
    (restAddr b size) (getRealSize (h.size b) + overhead - blockSize size) hcond
  have hremove := hg.remove hb0 hgn hn0 hk.prevBehind.1 hk.nextBehind.1 hk.prevBehind.2
  have hbehind := (hgn.remove hn0 hgn hn0 hk.prevBehind.2 hk.nextBehind.2 hk.prevBehind.2).size
  have ht := offHeader_restAddr b size
  rw [hbehind] at hmem
  have hstamp := hremove.stamp (c := ⟨restAddr b size, mark (getRealSize (h.size b) + overhead -
    blockSize size - overhead + getRealSize (h.size n) + overhead) true⟩) ht.1
    (offHeader_joined hk.trailer)
  have hk' := hstamp.of_mem_eq hmem
  rw [freelist_remove hgn hn0, hlist] at hkl
  have hkl : k.freelist = h.freelistWithout n := hkl
  rw [heq]
  refine size_of_rest hb0 hk' ht (hkl ▸ hk.first) (fun hnot => ?_) ?_
  · split
    · exact hk.prevBehind.1
    · next hnb => exact hk.prev (hkl ▸ hnot) hnb
  · split
    · exact hk.nextBehind.1
    · next hpb => exact hk.next hpb

/-- What is left is split off. -/
theorem size_mallocBest_split (hk : KeepsHeader h b size)
    (hrest : ¬ getRealSize (h.size b) + overhead - blockSize size < 8 + overhead) :
    (h.mallocBest b (blockSize size)).1.size b = mark (roundedSize size) false := by
  rw [mallocBest_split (b := ⟨b, h.size b⟩) rfl hrest]
  have hstamp := (hasHeader_self h b).stamp_self (c := ⟨b, mark (roundedSize size) false⟩)
    (Or.inr (offHeader_trailer b size))
  by_cases hn0 : h.getNextBlock b = 0
  · have hfree : ∀ g : Heap, g.isFree (h.getNextBlock b) = false := fun g => by simp [hn0, isFree]
    exact size_splitRest hb0 hstamp rfl (hfree _) (hk.rest hrest (hfree h))
  have htrailer : (Block.mk b (mark (roundedSize size) false)).trailer =
      b + 4 * (roundedSize size + 12) := by
    rw [trailer_eq_add, getRealSize_mark, getRealSize_roundedSize]
  have hfree : (h.stamp ⟨b, mark (roundedSize size) false⟩).isFree (h.getNextBlock b) =
      h.isFree (h.getNextBlock b) := by
    obtain ⟨hsize, htag⟩ := hk.behind hrest hn0
    have hword : (h.stamp ⟨b, mark (roundedSize size) false⟩).size (h.getNextBlock b) =
        h.size (h.getNextBlock b) := by
      unfold Heap.size
      rw [mem_stamp, htrailer, Mem.read32_write32_of_apart htag,
        Mem.read32_write32_of_apart hsize]
    unfold isFree
    rw [hword]
  cases hc : h.isFree (h.getNextBlock b) with
  | false => exact size_splitRest hb0 hstamp rfl (hfree.trans hc) (hk.rest hrest hc)
  | true =>
    have htail : b ≠ h.tail := by
      rintro rfl
      exact hn0 (if_pos rfl)
    have hjoined := hk.joined hrest hc
    have hbehind := (hasHeader_self h (h.getNextBlock b)).stamp
      (c := ⟨b, mark (roundedSize size) false⟩) hjoined.tags.1 (htrailer ▸ hjoined.tags.2)
    exact size_splitRest_joined hb0 hstamp hbehind rfl hn0 htail (hfree.trans hc) hjoined

/-- The size word of a block that `malloc` takes from the free list. -/
theorem size_mallocBest (hfit : (roundedSize size).toNat ≤ (getRealSize (h.size b)).toNat)
    (hk : KeepsHeader h b size) :
    (roundedSize size).toNat ≤ ((h.mallocBest b (blockSize size)).1.size b).toNat ∧
      ((h.mallocBest b (blockSize size)).1.size b).toNat < (roundedSize size).toNat + 24 := by
  have hreal := getRealSize_toNat (h.size b)
  have hround := roundedSize_toNat size
  by_cases hrest : getRealSize (h.size b) + overhead - blockSize size < 8 + overhead
  · have hlt := (rest_lt_iff (b := ⟨b, h.size b⟩) hfit).mp hrest
    have hlt : (getRealSize (h.size b)).toNat < (roundedSize size).toNat + 24 := hlt
    rw [size_mallocBest_whole hb0 (hk.whole hrest) hrest, toNat_mark]
    simp
    omega
  · rw [size_mallocBest_split hb0 hk hrest, toNat_mark]
    simp
    omega

end

/-! ## A free list that is in order -/

theorem Spaced.nextOff {L : List U32} (hL : Spaced L) (hb : b ∈ L) (hy : y ∈ L ∨ y = 0) :
    NextOff y b := by
  intro h0 hne
  have h1 := hL y (hy.resolve_right h0) b hb hne
  have h2 := hL b hb y (hy.resolve_right h0) (Ne.symm hne)
  exact ⟨by bv_omega, by bv_omega⟩

theorem Spaced.prevOff {L : List U32} (hL : Spaced L) (hb : b ∈ L) (hy : y ∈ L ∨ y = 0) :
    PrevOff y b := by
  intro h0 hne
  have h1 := hL y (hy.resolve_right h0) b hb hne
  have h2 := hL b hb y (hy.resolve_right h0) (Ne.symm hne)
  exact ⟨by bv_omega, by bv_omega⟩

/-- Blocks that are linked as they should be and do not overlap. -/
theorem FreeBlocks.keepsHeader {L : List U32} (hF : FreeBlocks h L) (hb : b ∈ L)
    (hfit : (roundedSize size).toNat ≤ (getRealSize (h.size b)).toNat) : KeepsHeader h b size := by
  have hsp := hF.spaced
  have hreal := getRealSize_toNat (h.size b)
  have hstop : b.toNat + 4 * ((getRealSize (h.size b)).toNat + 16) ≤ 2 ^ 32 := hF.stop_le b hb
  have hprev := hF.list.prev_mem_or hb
  have hnext := hF.list.next_mem_or hb
  have hb0 : b ≠ 0 := ne_of_mem_of_not_mem hb hF.list.zero
  have hbehind (hn0 : h.getNextBlock b ≠ 0) : b ≠ h.tail ∧
      h.getNextBlock b = b + 4 * (getRealSize (h.size b) + 16) ∧
      b.toNat + 4 * ((getRealSize (h.size b)).toNat + 16) + 4 ≤ 2 ^ 32 := by
    have htail : b ≠ h.tail := fun heq => hn0 (if_pos heq)
    refine ⟨htail, ?_, (hF.behind b hb htail).1⟩
    unfold getNextBlock wordsAfter overhead sizeofBlock
    rw [if_neg htail]
    bv_omega
  refine ⟨fun _ => ⟨by bv_omega, hsp.nextOff hb hprev, hsp.prevOff hb hnext⟩, fun hrest hn0 => ?_,
    fun _ _ => ⟨by bv_omega, hsp.prevOff hb hF.list.freelist_mem_or, fun _ => hsp.nextOff hb hprev,
      hsp.prevOff hb hnext⟩, fun hrest hfree => ?_⟩
  · obtain ⟨-, hn, hend⟩ := hbehind hn0
    rw [hn]
    exact ⟨⟨by bv_omega, by bv_omega⟩, ⟨by bv_omega, by bv_omega⟩⟩
  · have hn0 : h.getNextBlock b ≠ 0 := by
      intro heq
      rw [heq] at hfree
      exact absurd hfree (by simp [isFree])
    obtain ⟨htail, hn, hend⟩ := hbehind hn0
    have hnL := (hF.behind b hb htail).2 hfree
    have hnstop : (h.getNextBlock b).toNat +
        4 * ((getRealSize (h.size (h.getNextBlock b))).toNat + 16) ≤ 2 ^ 32 := hF.stop_le _ hnL
    have hnprev := hF.list.prev_mem_or hnL
    have hnnext := hF.list.next_mem_or hnL
    refine ⟨?_, ?_, ⟨hsp.nextOff hb hnprev, hsp.nextOff hnL hnprev⟩,
      ⟨hsp.prevOff hb hnnext, hsp.prevOff hnL hnnext⟩, hsp.prevOff hb ?_,
      fun _ _ => hsp.nextOff hb hprev, fun _ => hsp.prevOff hb hnext⟩
    · rw [hn] at hnstop ⊢
      exact ⟨⟨by bv_omega, by bv_omega⟩, ⟨by bv_omega, by bv_omega⟩⟩
    · generalize getRealSize (h.size (h.getNextBlock b)) = rn at hnstop ⊢
      rw [hn] at hnstop
      bv_omega
    · unfold freelistWithout
      split
      · exact hnnext
      · exact hF.list.freelist_mem_or

end

end Heap

end PiggyOS
