import PiggyOS.Kheap.Bestfit
import PiggyOS.Kheap.Coalesce

/-!
# Serving a request from the free list

`malloc` hands out the whole block that `bestfit` has found, or splits off what is left when that
is enough for a block. The rest gets its header right behind the second size word of the block
handed out; the blocks behind are looked for 12 bytes further.

* `Layout.taken_whole` — a block that is handed out whole
* `Layout.freelist_mallocBest` — the header of a rest lies in the block before it
* `served_iff` — so the heap stays laid out exactly when there is nothing to split off
-/

namespace PiggyOS

open Infra

namespace Heap

variable {h : Heap} {bs pre post : List Block} {L : List U32} {b c n : Block} {a w : U32}

/-! ## The block handed out -/

/-- The size words of the block handed out. -/
theorem stamp_eq_store (h : Heap) (a : U32) (heven : getRealSize (w - overhead) = w - overhead) :
    ((h.setSize a (w - overhead)).setFree a false).store (wordsBefore (wordsAfter a w) 4)
      (((h.setSize a (w - overhead)).setFree a false).size a) =
      h.stamp ⟨a, mark (w - overhead) false⟩ := by
  have hplace : wordsBefore (wordsAfter a w) 4 =
      wordsAfter (wordsAfter a sizeofBlock) (getRealSize (mark (w - overhead) false)) := by
    rw [getRealSize_mark, heven]
    unfold wordsBefore wordsAfter overhead sizeofBlock
    bv_omega
  rw [setFree_setSize, hplace]
  unfold stamp setTrailer
  rw [show (h.setSize a (mark (w - overhead) false)).size a = mark (w - overhead) false from
    size_store_self h _ _]

theorem getRealSize_getRealSize (v : U32) : getRealSize (getRealSize v) = getRealSize v := by
  apply BitVec.eq_of_toNat_eq
  rw [getRealSize_toNat, getRealSize_toNat]
  omega

/-- `malloc` when the rest is too small for a block. -/
theorem mallocBest_whole {size : U32} (hb : h.size b.addr = b.size)
    (hrest : getRealSize b.size + overhead - blockSize size < 8 + overhead) :
    h.mallocBest b.addr (blockSize size) =
      ((h.stamp ⟨b.addr, mark (getRealSize b.size) false⟩).removeNodeFromFreelist b.addr,
        ⟨wordsAfter b.addr sizeofBlock, b.addr⟩) := by
  have hback : getRealSize b.size + overhead - overhead = getRealSize b.size :=
    BitVec.add_sub_cancel ..
  have hstamp := stamp_eq_store h b.addr (w := getRealSize b.size + overhead)
    (by rw [hback, getRealSize_getRealSize])
  rw [hback] at hstamp
  unfold mallocBest
  dsimp only
  rw [hb, if_pos hrest, if_pos hrest, hback, hstamp]

/-- The rest behind a block, as `malloc` computes it. -/
def restAddr (a size : U32) : U32 := wordsAfter (wordsBefore (wordsAfter a (blockSize size)) 4) 1

/-- `malloc` when it splits the block. -/
theorem mallocBest_split {size : U32} (hb : h.size b.addr = b.size)
    (hrest : ¬ getRealSize b.size + overhead - blockSize size < 8 + overhead) :
    (h.mallocBest b.addr (blockSize size)).1 =
      ((h.stamp ⟨b.addr, mark (roundedSize size) false⟩).splitRest b.addr (restAddr b.addr size)
        (getRealSize b.size + overhead - blockSize size)
        (h.getNextBlock b.addr)).removeNodeFromFreelist b.addr := by
  have hback : blockSize size - overhead = roundedSize size := BitVec.add_sub_cancel ..
  have hstamp := stamp_eq_store h b.addr (w := blockSize size)
    (by rw [hback, getRealSize_roundedSize])
  rw [hback] at hstamp
  unfold mallocBest
  dsimp only
  rw [hb, if_neg hrest, if_neg hrest, hback, hstamp]
  rfl

/-! ## The blocks on the free list -/

/-- The block at a header. -/
def blockAt (h : Heap) (a : U32) : Block := ⟨a, h.size a⟩

/-- The blocks on the free list do not overlap. Behind one that is not the last there is the header
of another, and if that is free, it is on the list too. -/
structure FreeBlocks (h : Heap) (L : List U32) : Prop where
  list : FreeList h L
  stop_le : ∀ a ∈ L, (h.blockAt a).stop ≤ 2 ^ 32
  apart : ∀ a ∈ L, ∀ b ∈ L, a = b ∨ (h.blockAt a).stop ≤ b.toNat ∨ (h.blockAt b).stop ≤ a.toNat
  behind : ∀ a ∈ L, a ≠ h.tail → (h.blockAt a).stop + 4 ≤ 2 ^ 32 ∧
    (h.isFree (h.getNextBlock a) = true → h.getNextBlock a ∈ L)

theorem blockAt_eq (hb : h.size b.addr = b.size) : h.blockAt b.addr = b := by
  unfold blockAt
  rw [hb]

/-- The free blocks of a laid-out heap. -/
theorem Layout.freeBlocks (hl : Layout h bs L) : FreeBlocks h L := by
  have hat : ∀ a ∈ L, h.blockAt a ∈ bs := by
    intro a ha
    obtain ⟨b, hb, -, rfl⟩ := hl.mem_list_iff.mp ha
    rwa [blockAt_eq (hl.size b hb)]
  refine ⟨hl.freeList, fun a ha => hl.stop_le (hat a ha), fun a ha a' ha' => ?_,
    fun a ha hne => ?_⟩
  · obtain ⟨e, -, htiles⟩ := hl.tiles
    exact (htiles.trichotomy (hat a ha) (hat a' ha')).imp_left (congrArg Block.addr)
  · obtain ⟨b, hb, -, rfl⟩ := hl.mem_list_iff.mp ha
    obtain ⟨pre, post, rfl⟩ := List.append_of_mem hb
    cases post with
    | nil => exact absurd hl.tail_eq.symm hne
    | cons n post =>
      have hn : n ∈ pre ++ b :: n :: post := by simp
      obtain ⟨-, hlen, hstop⟩ := hl.bounds hn
      have hadj := hl.start_next
      rw [blockAt_eq (hl.size b hb), hl.getNextBlock_eq, hl.isFree_eq hn]
      exact ⟨by omega, hl.mem_list hn⟩

namespace FreeBlocks

theorem spaced (hF : FreeBlocks h L) : Spaced L := by
  intro a ha b hb hne
  have h1 := hF.stop_le a ha
  have h2 := hF.stop_le b hb
  have h3 := hF.apart a ha b hb
  unfold Block.stop Block.start blockAt at *
  bv_omega

variable (hF : FreeBlocks h L) (hb : b.addr ∈ L) (hbs : h.size b.addr = b.size)

include hF hb hbs

theorem stop_le_of_mem : b.stop ≤ 2 ^ 32 := by
  have hstop := hF.stop_le b.addr hb
  rwa [blockAt_eq hbs] at hstop

/-- The bytes of a free block that are not its links are clear of the free list. -/
theorem not_mem_links {x : U32} (hx : x ∈ b.span)
    (hout : x.toNat < b.start + 4 ∨ b.start + 12 ≤ x.toNat) : x ∉ links L := by
  rintro ⟨a, ha, hxa⟩
  obtain ⟨h1, h2, ⟨-, h3⟩, -⟩ := Block.mem_link_bytes (b := h.blockAt a) (hF.stop_le a ha) hxa
  obtain ⟨h4, h5⟩ := hx
  have hapart := hF.apart a ha b.addr hb
  rw [blockAt_eq hbs] at hapart
  have hstart : (h.blockAt a).start = a.toNat := rfl
  rcases hapart with rfl | hle | hle
  · have hstart' : (h.blockAt b.addr).start = b.start := rfl
    omega
  · have hstart' : b.start = b.addr.toNat := rfl
    omega
  · omega

theorem header_not_mem_links : ∀ x ∈ bytes b.addr 4, x ∉ links L := by
  intro x hx
  have hstop := hF.stop_le_of_mem hb hbs
  have hlen : b.start + 64 ≤ b.stop := by unfold Block.stop; omega
  have hstart : b.start = b.addr.toNat := rfl
  rw [mem_bytes_iff (by omega)] at hx
  exact hF.not_mem_links hb hbs ⟨by omega, by omega⟩ (by omega)

end FreeBlocks

/-! ## The rest -/

/-- The block behind becomes part of the rest. -/
theorem splitRest_of_free {g : Heap} {base nb : U32} (ptr rest : U32)
    (hcond : (decide (base ≠ g.tail) && g.isFree nb) = true) :
    ∃ k l, g.splitRest base ptr rest nb = { addNodeToFreelist k ptr with blocks := l } ∧
      k.mem = ((g.removeNodeFromFreelist nb).stamp ⟨ptr, mark (rest - overhead +
        getRealSize ((g.removeNodeFromFreelist nb).size nb) + overhead) true⟩).mem ∧
      k.freelist = (g.removeNodeFromFreelist nb).freelist ∧
      k.ends = (g.head, if nb = g.tail then ptr else g.tail) := by
  obtain ⟨hhead, htail⟩ := Prod.ext_iff.mp (ends_removeNodeFromFreelist (h := g) nb)
  dsimp only [ends] at hhead htail
  unfold splitRest
  rw [if_pos hcond]
  dsimp only
  rw [setFree_setSize]
  refine ⟨_, _, rfl, by split <;> rfl, by split <;> rfl, ?_⟩
  rw [← hhead, ← htail]
  split
  · next hc => exact (congrArg (Prod.mk _) (if_pos hc)).symm
  · next hc => exact (congrArg (Prod.mk _) (if_neg hc)).symm

theorem splitRest_of_not_free {g : Heap} {base nb : U32} (ptr rest : U32)
    (hcond : ¬ (decide (base ≠ g.tail) && g.isFree nb) = true) :
    ∃ k l, g.splitRest base ptr rest nb = { addNodeToFreelist k ptr with blocks := l } ∧
      k.mem = (g.stamp ⟨ptr, mark (rest - overhead) true⟩).mem ∧ k.freelist = g.freelist ∧
      k.ends = (g.head, if base = g.tail then ptr else g.tail) := by
  unfold splitRest
  rw [if_neg hcond]
  dsimp only
  rw [setFree_setSize]
  refine ⟨_, _, rfl, by split <;> rfl, by split <;> rfl, ?_⟩
  split
  · next hc => exact (congrArg (Prod.mk _) (if_pos hc)).symm
  · next hc => exact (congrArg (Prod.mk _) (if_neg hc)).symm

section

variable {size : U32} (hfit : (roundedSize size).toNat ≤ b.real)

include hfit

theorem restAddr_toNat (hstop : b.stop ≤ 2 ^ 32) : (restAddr b.addr size).toNat =
    b.start + 4 * (roundedSize size).toNat + 52 := by
  unfold Block.stop Block.start at *
  unfold restAddr blockSize wordsBefore wordsAfter overhead sizeofBlock
  bv_omega

theorem rest_toNat : (getRealSize b.size + overhead - blockSize size).toNat =
    b.real - (roundedSize size).toNat := by
  unfold Block.real at *
  unfold blockSize overhead sizeofBlock
  bv_omega

/-- A block that is split when more than 23 bytes are left. -/
theorem rest_lt_iff : getRealSize b.size + overhead - blockSize size < 8 + overhead ↔
    b.real < (roundedSize size).toNat + 24 := by
  rw [BitVec.lt_def, rest_toNat hfit]
  show _ < 24 ↔ _
  omega

end

/-- The header of the rest stays clear of those that do not lie in the block. -/
theorem spaced_restAddr {as : List U32} {size : U32} (has : Spaced as) (hstop : b.stop ≤ 2 ^ 32)
    (hfit : (roundedSize size).toNat ≤ b.real)
    (hout : ∀ a ∈ as, a = b.addr ∨ a.toNat + 12 ≤ b.start ∨ b.stop ≤ a.toNat) :
    Spaced (restAddr b.addr size :: as) ∧ restAddr b.addr size ∉ as ∧
      restAddr b.addr size ≠ 0 := by
  have hrest := restAddr_toNat hfit hstop
  have hfar : ∀ a ∈ as, 12 ≤ (restAddr b.addr size - a).toNat ∧
      12 ≤ (a - restAddr b.addr size).toNat := by
    intro a ha
    have hout := hout a ha
    unfold Block.stop Block.start at *
    rcases hout with rfl | hle | hle
    · constructor <;> bv_omega
    · constructor <;> bv_omega
    · constructor <;> bv_omega
  refine ⟨fun a ha a' ha' hne => ?_, fun hm => ?_, ?_⟩
  · rcases List.mem_cons.mp ha with rfl | ha
    · rcases List.mem_cons.mp ha' with rfl | ha'
      · exact absurd rfl hne
      · exact (hfar a' ha').1
    · rcases List.mem_cons.mp ha' with rfl | ha'
      · exact (hfar a ha).2
      · exact has a ha a' ha' hne
  · have hself := (hfar _ hm).1
    rw [BitVec.sub_self] at hself
    exact absurd hself (by decide)
  · unfold Block.start at hrest
    bv_omega

/-- The size words of a part of the block lie in it, outside of its links. -/
theorem mem_span_of_tags (hstop : b.stop ≤ 2 ^ 32) (haddr : c.addr = b.addr)
    (hreal : c.real ≤ b.real) :
    ∀ x ∈ c.tags, x ∈ b.span ∧ (x.toNat < b.start + 4 ∨ b.start + 12 ≤ x.toNat) := by
  have hstart : c.start = b.start := congrArg BitVec.toNat haddr
  intro x hx
  unfold Block.stop at hstop
  rw [Block.mem_tags (by unfold Block.stop; omega), Block.stop, hstart] at hx
  exact ⟨⟨by omega, by unfold Block.stop; omega⟩, by omega⟩

/-- In `h'`, the rest `t` of the block `b` of `h` has been put in front of the free list. Its second
size word lies 12 bytes before the end of `m`, which is `b`, or the free block behind it when that
has become part of the rest. -/
structure RestOf (h h' : Heap) (L : List U32) (b : Block) (size : U32) (t m : Block)
    (L₁ : List U32) : Prop where
  addr : t.addr = restAddr b.addr size
  last : m = b ∨ (m = h.blockAt (h.getNextBlock b.addr) ∧ m.addr ∈ L)
  stop : t.stop + 12 = m.stop
  sub : L₁ ⊆ L
  kept : ∀ a ∈ L, a ≠ b.addr → a ≠ m.addr → a ∈ L₁
  list : FreeList h' (t.addr :: L₁)
  within : Mem.Within (b.span ∪ t.tags ∪ links L) h.mem h'.mem
  ends : h'.ends = (h.head, if m.addr = h.tail then t.addr else h.tail)
  word : h'.size b.addr = mark (roundedSize size) false

theorem mem_last {m : Block} (hb : b.addr ∈ L) (hbs : h.size b.addr = b.size)
    (hlast : m = b ∨ (m = h.blockAt (h.getNextBlock b.addr) ∧ m.addr ∈ L)) :
    m.addr ∈ L ∧ h.size m.addr = m.size := by
  rcases hlast with rfl | ⟨rfl, hm⟩
  · exact ⟨hb, hbs⟩
  · exact ⟨hm, rfl⟩

namespace FreeBlocks

section

variable {size : U32} (hF : FreeBlocks h L) (hb : b.addr ∈ L) (hbs : h.size b.addr = b.size)
  (hrest : (roundedSize size).toNat + 24 ≤ b.real)

include hF hb hbs hrest

theorem spaced_restAddr : Spaced (restAddr b.addr size :: L) ∧ restAddr b.addr size ∉ L ∧
    restAddr b.addr size ≠ 0 := by
  refine Heap.spaced_restAddr hF.spaced (hF.stop_le_of_mem hb hbs) (by omega) fun a ha => ?_
  have hapart := hF.apart a ha b.addr hb
  rw [blockAt_eq hbs] at hapart
  refine hapart.imp_right (Or.imp_left fun hle => ?_)
  unfold Block.stop Block.start blockAt at *
  dsimp only at hle
  omega

/-- The links of the rest lie in the block. -/
theorem links_restAddr {L₁ : List U32} (hsub : L₁ ⊆ L) :
    links (restAddr b.addr size :: L₁) ⊆ b.span ∪ links L := by
  have hstop := hF.stop_le_of_mem hb hbs
  have hstart := restAddr_toNat (show (roundedSize size).toNat ≤ b.real by omega) hstop
  unfold Block.stop at hstop
  intro x hx
  rcases links_cons_iff.mp hx with hx | hx
  · have h4 : (restAddr b.addr size + 4).toNat = (restAddr b.addr size).toNat + 4 :=
      BitVec.toNat_add_of_lt (by rw [hstart]; show _ + 4 < _; omega)
    rw [mem_bytes_iff (by omega)] at hx
    exact Or.inl ⟨by omega, by unfold Block.stop; omega⟩
  · exact Or.inr (links_mono hsub hx)

theorem start_rest {t : Block} (ht : t.addr = restAddr b.addr size) :
    t.start = b.start + 4 * (roundedSize size).toNat + 52 := by
  rw [← restAddr_toNat (show (roundedSize size).toNat ≤ b.real by omega)
    (hF.stop_le_of_mem hb hbs), ← ht]
  rfl

theorem not_mem_links_restTags {t m : Block} (ht : t.addr = restAddr b.addr size)
    (hm : m.addr ∈ L) (hms : h.size m.addr = m.size) (hstop : t.stop + 12 = m.stop) :
    ∀ x ∈ links L, x ∉ t.tags := by
  have hbstop := hF.stop_le_of_mem hb hbs
  have hmstop := hF.stop_le_of_mem hm hms
  have hts := hF.start_rest hb hbs hrest ht
  have hlen : t.start + 64 ≤ t.stop := by unfold Block.stop; omega
  have hmlen : m.start + 64 ≤ m.stop := by unfold Block.stop; omega
  intro x hlinks hx
  rw [Block.mem_tags (by omega), hts] at hx
  unfold Block.stop at hbstop
  rcases hx with hx | hx
  · refine hF.not_mem_links hb hbs ⟨by omega, ?_⟩ (by omega) hlinks
    unfold Block.stop
    omega
  · exact hF.not_mem_links hm hms ⟨by omega, by omega⟩ (by omega) hlinks

/-- The size word of the part handed out is clear of what is written for the rest. -/
theorem header_restOf {t m : Block} {L₁ : List U32} (ht : t.addr = restAddr b.addr size)
    (hm : m.addr ∈ L) (hms : h.size m.addr = m.size) (hstop : t.stop + 12 = m.stop)
    (hsub : L₁ ⊆ L) : ∀ x ∈ bytes b.addr 4, x ∉ t.tags ∧ x ∉ links (t.addr :: L₁) := by
  have hbstop := hF.stop_le_of_mem hb hbs
  have hmstop := hF.stop_le_of_mem hm hms
  have hts := hF.start_rest hb hbs hrest ht
  have hlen : t.start + 64 ≤ t.stop := by unfold Block.stop; omega
  have hblen : b.start + 64 ≤ b.stop := by unfold Block.stop; omega
  have hapart := hF.apart b.addr hb m.addr hm
  rw [blockAt_eq hbs, blockAt_eq hms] at hapart
  intro x hxb
  have hx := (mem_bytes_iff (by unfold Block.start at hblen; omega)).mp hxb
  have hbx : b.start = b.addr.toNat := rfl
  have hmx : m.start = m.addr.toNat := rfl
  refine ⟨fun hxt => ?_, fun hxl => ?_⟩
  · rw [Block.mem_tags (by omega)] at hxt
    rcases hapart with he | hle | hle
    · have hsame : m.stop = b.stop := by rw [← blockAt_eq hms, ← he, blockAt_eq hbs]
      omega
    · have hmlen : m.start + 64 ≤ m.stop := by unfold Block.stop; omega
      omega
    · omega
  · rcases links_cons_iff.mp hxl with hxt | hxL
    · obtain ⟨h1, -, -, -⟩ := Block.mem_link_bytes (by omega) hxt
      omega
    · exact hF.header_not_mem_links hb hbs x hxb (links_mono hsub hxL)

/-- The rest on the free list. -/
theorem restOf {g k h' : Heap} {t m : Block} {L₁ : List U32} (hg : FreeList g L₁)
    (hgmem : Mem.Within (b.span ∪ links L) h.mem g.mem) (hgends : g.ends = h.ends)
    (hgword : g.size b.addr = mark (roundedSize size) false) (hsub : L₁ ⊆ L)
    (hkept : ∀ a ∈ L, a ≠ b.addr → a ≠ m.addr → a ∈ L₁) (ht : t.addr = restAddr b.addr size)
    (hlast : m = b ∨ (m = h.blockAt (h.getNextBlock b.addr) ∧ m.addr ∈ L))
    (hstop : t.stop + 12 = m.stop) (hmem : k.mem = (g.stamp t).mem)
    (hlist : k.freelist = g.freelist)
    (hends : k.ends = (g.head, if m.addr = g.tail then restAddr b.addr size else g.tail))
    (hmem' : h'.mem = (k.addNodeToFreelist (restAddr b.addr size)).mem)
    (hlist' : h'.freelist = (k.addNodeToFreelist (restAddr b.addr size)).freelist)
    (hends' : h'.ends = (k.addNodeToFreelist (restAddr b.addr size)).ends) :
    RestOf h h' L b size t m L₁ := by
  obtain ⟨hm, hms⟩ := mem_last hb hbs hlast
  obtain ⟨hsp, hnot, hne⟩ := hF.spaced_restAddr hb hbs hrest
  have hclear := hF.not_mem_links_restTags hb hbs hrest ht hm hms hstop
  have hstamp : Mem.Within t.tags g.mem k.mem := by
    rw [hmem]
    exact within_stamp g t
  have hk : FreeList k L₁ := hg.congr hlist hstamp fun x hx => hclear x (links_mono hsub hx)
  obtain ⟨hghead, hgtail⟩ := Prod.ext_iff.mp hgends
  dsimp only [ends] at hghead hgtail
  have hadd := hk.add (hsp.mono (List.cons_subset_cons _ hsub)) (fun hm => hnot (hsub hm)) hne
  have hword := hF.header_restOf hb hbs hrest ht hm hms hstop hsub
  rw [ht] at hword
  refine ⟨ht, hlast, hstop, hsub, hkept, ?_, ?_, ?_, ?_⟩
  · rw [ht]
    exact hadd.of_mem_eq hlist' hmem'
  · rw [hmem']
    refine ((hgmem.mono ?_).trans (hstamp.mono ?_)).trans ((hk.within_add hne).mono ?_)
    · exact Set.union_subset_union_left _ Set.subset_union_left
    · exact Set.subset_union_right.trans Set.subset_union_left
    · exact (hF.links_restAddr hb hbs hrest hsub).trans
        (Set.union_subset_union_left _ Set.subset_union_left)
  · rw [ht, ← hghead, ← hgtail, hends', ends_addNodeToFreelist, hends]
  · rw [← hgword]
    unfold Heap.size
    rw [hmem', (hk.within_add hne).read32 fun x hx => (hword x hx).2,
      hstamp.read32 fun x hx => (hword x hx).1]

/-- The size words of the part that is handed out. -/
theorem stamp_split (haddr : c.addr = b.addr) (hsize : c.size = mark (roundedSize size) false) :
    (∀ x ∈ c.tags, x ∈ b.span ∧ (x.toNat < b.start + 4 ∨ b.start + 12 ≤ x.toNat)) ∧
      FreeList (h.stamp c) L ∧ (h.stamp c).size b.addr = mark (roundedSize size) false := by
  have hreal : c.real = (roundedSize size).toNat := by
    unfold Block.real
    rw [hsize, getRealSize_mark, getRealSize_roundedSize]
  have hbstop := hF.stop_le_of_mem hb hbs
  have htags := mem_span_of_tags hbstop haddr (by omega)
  refine ⟨htags, ?_, ?_⟩
  · exact hF.list.congr rfl (within_stamp h c) fun x hx ht =>
      hF.not_mem_links hb hbs (htags x ht).1 (htags x ht).2 hx
  · rw [← haddr, ← hsize]
    refine size_stamp h ?_
    have hcs : c.start = b.start := congrArg BitVec.toNat haddr
    unfold Block.stop at *
    omega

/-- The trailing size of a rest of this size. -/
theorem stop_rest (v : U32) : (Block.mk (restAddr b.addr size) (mark v true)).stop =
    b.start + 4 * (roundedSize size).toNat + 52 + 4 * (v.toNat / 2 * 2 + 16) := by
  have hstart := restAddr_toNat (show (roundedSize size).toNat ≤ b.real by omega)
    (hF.stop_le_of_mem hb hbs)
  unfold Block.stop
  rw [Block.real_mk_mark, ← hstart]
  rfl

/-- The free block behind the one that is split: it is on the list, and the size words of the part
handed out do not touch it. -/
theorem next_free (haddr : c.addr = b.addr) (hsize : c.size = mark (roundedSize size) false)
    (hne : b.addr ≠ h.tail) (hfree : (h.stamp c).isFree (h.getNextBlock b.addr) = true) :
    h.getNextBlock b.addr ∈ L ∧ (h.getNextBlock b.addr).toNat = b.stop ∧
      ((h.stamp c).removeNodeFromFreelist (h.getNextBlock b.addr)).size (h.getNextBlock b.addr) =
        h.size (h.getNextBlock b.addr) := by
  obtain ⟨htags, hg, -⟩ := hF.stamp_split hb hbs hrest haddr hsize
  obtain ⟨hroom, hbehind⟩ := hF.behind b.addr hb hne
  rw [blockAt_eq hbs] at hroom
  have hbstop := hF.stop_le_of_mem hb hbs
  have hnext : (h.getNextBlock b.addr).toNat = b.stop := by
    unfold getNextBlock
    rw [if_neg hne, hbs]
    unfold Block.stop Block.start Block.real at *
    unfold wordsAfter overhead sizeofBlock
    bv_omega
  have hns : (h.stamp c).size (h.getNextBlock b.addr) = h.size (h.getNextBlock b.addr) :=
    (within_stamp h c).read32 fun x hx ht => by
      have hlt := (htags x ht).1.2
      rw [mem_bytes_iff (by omega)] at hx
      omega
  have hnL : h.getNextBlock b.addr ∈ L := by
    refine hbehind ?_
    rw [← hfree]
    unfold isFree
    rw [hns]
  refine ⟨hnL, hnext, ?_⟩
  refine ((hg.within_remove hF.spaced hnL).read32 fun x hx hlinks => ?_).trans hns
  have hnstop := hF.stop_le _ hnL
  have hlen : (h.blockAt (h.getNextBlock b.addr)).start + 64 ≤
      (h.blockAt (h.getNextBlock b.addr)).stop := by unfold Block.stop; omega
  have hnstart : (h.blockAt (h.getNextBlock b.addr)).start =
      (h.getNextBlock b.addr).toNat := rfl
  rw [mem_bytes_iff (by omega)] at hx
  exact hF.not_mem_links (b := h.blockAt (h.getNextBlock b.addr)) hnL rfl
    ⟨by omega, by omega⟩ (by omega) hlinks

/-- A rest that the free block behind becomes part of. -/
theorem restOf_splitRest_of_free (haddr : c.addr = b.addr)
    (hsize : c.size = mark (roundedSize size) false)
    (hcond : (decide (b.addr ≠ (h.stamp c).tail) &&
      (h.stamp c).isFree (h.getNextBlock b.addr)) = true) : ∃ t m L₁, b.addr ∈ L₁ ∧
      RestOf h ((h.stamp c).splitRest b.addr (restAddr b.addr size)
        (getRealSize b.size + overhead - blockSize size) (h.getNextBlock b.addr)) L b size
        t m L₁ := by
  obtain ⟨htags, hg, hword⟩ := hF.stamp_split hb hbs hrest haddr hsize
  obtain ⟨k, l, hk, hmem, hlist, hends⟩ := splitRest_of_free (restAddr b.addr size)
    (getRealSize b.size + overhead - blockSize size) hcond
  rw [Bool.and_eq_true, decide_eq_true_eq] at hcond
  obtain ⟨hne, hfree⟩ := hcond
  obtain ⟨hnL, hnext, hns⟩ := hF.next_free hb hbs hrest haddr hsize hne hfree
  have hstamp : Mem.Within (b.span ∪ links L) h.mem (h.stamp c).mem :=
    (within_stamp h c).mono fun x hx => Or.inl (htags x hx).1
  have hremove := hg.within_remove hF.spaced hnL
  have hnb : b.addr ≠ h.getNextBlock b.addr := by
    intro he
    have hlt := b.start_lt_stop
    rw [← he] at hnext
    exact absurd hnext (by unfold Block.start at hlt; omega)
  rw [hns] at hmem
  rw [hk]
  refine ⟨_, h.blockAt (h.getNextBlock b.addr), L.erase (h.getNextBlock b.addr),
    (List.mem_erase_of_ne hnb).mpr hb, hF.restOf hb hbs hrest (hg.remove hF.spaced hnL)
      (hstamp.trans (hremove.mono Set.subset_union_right))
      ((ends_removeNodeFromFreelist _).trans (ends_stamp h c)) ?_
      List.erase_subset (fun a ha _ hne => (List.mem_erase_of_ne hne).mpr ha) rfl
      (Or.inr ⟨rfl, hnL⟩) ?_ hmem hlist ?_ rfl rfl (ends_setBlocks l)⟩
  · exact (hremove.read32 (hF.header_not_mem_links hb hbs)).trans hword
  · -- the trailing size of the rest ends 12 bytes before the block that it is part of
    have hnstop := hF.stop_le _ hnL
    have hnstop' : (h.blockAt (h.getNextBlock b.addr)).stop = b.stop +
        4 * ((getRealSize (h.size (h.getNextBlock b.addr))).toNat + 16) := by
      unfold Block.stop Block.start
      exact congrArg (· + _) hnext
    have hneven := getRealSize_toNat (h.size (h.getNextBlock b.addr))
    have heven := b.real_eq
    have hround := roundedSize_toNat size
    have hrestn := rest_toNat (show (roundedSize size).toNat ≤ b.real by omega)
    have hbspan : b.stop = b.start + 4 * (b.real + 16) := rfl
    rw [hnstop'] at hnstop
    have hv : (getRealSize b.size + overhead - blockSize size - overhead +
        getRealSize (h.size (h.getNextBlock b.addr)) + overhead).toNat =
          b.real - (roundedSize size).toNat +
            (getRealSize (h.size (h.getNextBlock b.addr))).toNat := by
      unfold overhead sizeofBlock at *
      bv_omega
    rw [hF.stop_rest hb hbs hrest, hv, hnstop']
    unfold Block.stop at *
    omega
  · obtain ⟨hhead, htail⟩ :=
      Prod.ext_iff.mp (ends_removeNodeFromFreelist (h := h.stamp c) (h.getNextBlock b.addr))
    dsimp only [ends] at hhead htail
    rw [hends, hhead, htail]
    rfl

/-- What splitting off a rest does. -/
theorem restOf_splitRest (haddr : c.addr = b.addr)
    (hsize : c.size = mark (roundedSize size) false) : ∃ t m L₁, b.addr ∈ L₁ ∧
      RestOf h ((h.stamp c).splitRest b.addr (restAddr b.addr size)
        (getRealSize b.size + overhead - blockSize size) (h.getNextBlock b.addr)) L b size
        t m L₁ := by
  by_cases hcond : (decide (b.addr ≠ (h.stamp c).tail) &&
      (h.stamp c).isFree (h.getNextBlock b.addr)) = true
  · exact hF.restOf_splitRest_of_free hb hbs hrest haddr hsize hcond
  · obtain ⟨htags, hg, hword⟩ := hF.stamp_split hb hbs hrest haddr hsize
    obtain ⟨k, l, hk, hmem, hlist, hends⟩ := splitRest_of_not_free (restAddr b.addr size)
      (getRealSize b.size + overhead - blockSize size) hcond
    have hstamp : Mem.Within (b.span ∪ links L) h.mem (h.stamp c).mem :=
      (within_stamp h c).mono fun x hx => Or.inl (htags x hx).1
    rw [hk]
    refine ⟨_, b, L, hb, hF.restOf hb hbs hrest hg hstamp (ends_stamp h c) hword
      (List.Subset.refl L) (fun a ha _ _ => ha) rfl (Or.inl rfl) ?_ hmem hlist hends rfl rfl
      (ends_setBlocks l)⟩
    have hbstop := hF.stop_le_of_mem hb hbs
    have hrestn := rest_toNat (show (roundedSize size).toNat ≤ b.real by omega)
    have heven := b.real_eq
    have hround := roundedSize_toNat size
    have hv : (getRealSize b.size + overhead - blockSize size - overhead).toNat =
        b.real - (roundedSize size).toNat - 16 := by
      unfold Block.stop Block.real at *
      unfold overhead sizeofBlock at *
      bv_omega
    rw [hF.stop_rest hb hbs hrest, hv]
    unfold Block.stop at *
    omega

/-- **What `malloc` does when it splits a block.** -/
theorem restOf_mallocBest : ∃ t m L₁,
    RestOf h (h.mallocBest b.addr (blockSize size)).1 L b size t m L₁ := by
  have hsplit : ¬ getRealSize b.size + overhead - blockSize size < 8 + overhead := by
    rw [rest_lt_iff (by omega)]
    omega
  obtain ⟨t, m, L₁, hmem, hrestOf⟩ :=
    hF.restOf_splitRest (c := ⟨b.addr, mark (roundedSize size) false⟩) hb hbs hrest rfl rfl
  obtain ⟨hsp, hnot, -⟩ := hF.spaced_restAddr hb hbs hrest
  have hbL := List.mem_cons_of_mem t.addr hmem
  rw [← hrestOf.addr] at hsp hnot
  have hne : t.addr ≠ b.addr := fun he => hnot (he ▸ hb)
  have hspaced := hsp.mono (List.cons_subset_cons t.addr hrestOf.sub)
  have hremove := hrestOf.list.remove hspaced hbL
  rw [List.erase_cons_tail (by simpa using hne)] at hremove
  rw [mallocBest_split hbs hsplit]
  refine ⟨t, m, L₁.erase b.addr, hrestOf.addr, hrestOf.last, hrestOf.stop,
    List.Subset.trans List.erase_subset hrestOf.sub, fun a ha h1 h2 => ?_, hremove, ?_, ?_, ?_⟩
  · exact (List.mem_erase_of_ne h1).mpr (hrestOf.kept a ha h1 h2)
  · refine hrestOf.within.trans ((hrestOf.list.within_remove hspaced hbL).mono ?_)
    rw [hrestOf.addr]
    exact (hF.links_restAddr hb hbs hrest hrestOf.sub).trans
      (Set.union_subset_union_left _ Set.subset_union_left)
  · rw [ends_removeNodeFromFreelist, hrestOf.ends]
  · obtain ⟨hm, hms⟩ := mem_last hb hbs hrestOf.last
    have hclear := hF.header_restOf hb hbs hrest hrestOf.addr hm hms hrestOf.stop hrestOf.sub
    have hread := (hrestOf.list.within_remove hspaced hbL).read32 fun x hx => (hclear x hx).2
    exact hread.trans hrestOf.word

end

end FreeBlocks

/-- **The header of the rest.** After a split it is the first one on the free list, 12 bytes before
the end of the block handed out. -/
theorem Layout.freelist_mallocBest {size : U32} (hl : Layout h bs L) (hb : b ∈ bs)
    (hf : b.free = true) (hrest : (roundedSize size).toNat + 24 ≤ b.real) :
    (h.mallocBest b.addr (blockSize size)).1.freelist = restAddr b.addr size := by
  obtain ⟨t, m, L₁, hrestOf⟩ :=
    hl.freeBlocks.restOf_mallocBest (hl.mem_list hb hf) (hl.size b hb) hrest
  rw [hrestOf.list.head, ← hrestOf.addr]
  rfl

/-! ## Requests -/

/-- All sizes are multiples of 16. -/
def Rounded (bs : List Block) : Prop := ∀ b ∈ bs, b.real % 16 = 0

/-- `h'` is the heap `h` with the free block at `best` handed out for `size` bytes. What is split
off is one free block behind it, together with free blocks that were there already. -/
def Served (h h' : Heap) (bs : List Block) (size best : U32) : Prop :=
  ∃ pre b gone post c rest L', bs = pre ++ b :: (gone ++ post) ∧ b.addr = best ∧ b.free = true ∧
    c.addr = best ∧ c.free = false ∧ size.toNat ≤ c.real ∧ (∀ n ∈ gone ++ rest, n.free = true) ∧
    rest.length ≤ 1 ∧ (rest = [] → gone = []) ∧ Layout h' (pre ++ c :: (rest ++ post)) L' ∧
    Rounded (pre ++ c :: (rest ++ post)) ∧ ∀ d ∈ pre ++ post, Keeps h h' d

theorem toNat_roundedSize_of_le {size : U32} (hmax : size.toNat ≤ 2 ^ 32 - 16) :
    (roundedSize size).toNat = (size.toNat + 15) / 16 * 16 := by
  rw [roundedSize_toNat, Nat.mod_eq_of_lt (by omega)]

/-- The block, when it is handed out whole. -/
def taken (b : Block) : Block := ⟨b.addr, mark (getRealSize b.size) false⟩

theorem free_taken (b : Block) : (taken b).free = false := Block.free_mk_mark ..

theorem real_taken (b : Block) : (taken b).real = b.real := by
  unfold taken Block.real
  rw [getRealSize_mark, getRealSize_getRealSize]

theorem stop_taken (b : Block) : (taken b).stop = b.stop := by
  unfold Block.stop
  rw [real_taken]
  rfl

theorem tags_taken (b : Block) : (taken b).tags = b.tags := by
  unfold taken Block.tags Block.trailer
  rw [getRealSize_mark, getRealSize_getRealSize]

/-- **A block that is handed out whole** leaves the free list, and its size words change. -/
theorem Layout.taken_whole {size : U32} (hl : Layout h (pre ++ b :: post) L) (hf : b.free = true)
    (hfit : (roundedSize size).toNat ≤ b.real) (hrest : b.real < (roundedSize size).toNat + 24) :
    Layout (h.mallocBest b.addr (blockSize size)).1 (pre ++ taken b :: post) (L.erase b.addr) ∧
      (∀ d ∈ pre ++ post, Keeps h (h.mallocBest b.addr (blockSize size)).1 d) ∧
      Mem.Within (b.tags ∪ links L) h.mem (h.mallocBest b.addr (blockSize size)).1.mem ∧
      (h.mallocBest b.addr (blockSize size)).1.ends = h.ends := by
  have hb : b ∈ pre ++ b :: post := by simp
  have hcut : Layout h (pre ++ [b] ++ post) L := by simpa using hl
  have hm : Covers (taken b) [b] := covers_self (by
    unfold taken
    rw [getRealSize_mark, getRealSize_getRealSize]) rfl
  have hclear := hcut.not_mem_tags hm
  have hbL := hl.mem_list hb hf
  have hlist := hl.freeList.absorb (List.Subset.refl L) hclear b.addr
  have hremove := hlist.within_remove hl.spaced hbL
  have hperm := hl.perm
  rw [mallocBest_whole (hl.size b hb) ((rest_lt_iff hfit).mpr hrest),
    ← absorb_self h ⟨b.addr, mark (getRealSize b.size) false⟩]
  obtain ⟨hl', hkeep⟩ := hcut.of_absorb hm hl.tail_eq_iff (Mem.Within.refl _ _) rfl hremove
    (ends_removeNodeFromFreelist _) Set.subset_union_right hclear (hlist.remove hl.spaced hbL) (by
      rw [freeAddrs_append, freeAddrs_cons, hf] at hperm
      rw [freeAddrs_append, freeAddrs_cons, free_taken]
      exact perm_erase hperm)
  refine ⟨hl', hkeep, ?_, ?_⟩
  · have hstamp : Mem.Within b.tags h.mem (h.absorb (taken b) b.addr).mem := by
      rw [mem_absorb, ← tags_taken]
      exact within_stamp h _
    exact (hstamp.mono Set.subset_union_left).trans (hremove.mono Set.subset_union_right)
  · refine (ends_removeNodeFromFreelist _).trans ?_
    rw [absorb_self]
    rfl

/-- That keeps the heap laid out. -/
theorem Layout.served_whole {size : U32} (hl : Layout h (pre ++ b :: post) L)
    (hround : Rounded (pre ++ b :: post)) (hf : b.free = true) (hmax : size.toNat ≤ 2 ^ 32 - 16)
    (hfit : (roundedSize size).toNat ≤ b.real) (hrest : b.real < (roundedSize size).toNat + 24) :
    Served h (h.mallocBest b.addr (blockSize size)).1 (pre ++ b :: post) size b.addr := by
  obtain ⟨hl', hkeep, -, -⟩ := hl.taken_whole hf hfit hrest
  refine ⟨pre, b, [], post, taken b, [], _, rfl, rfl, hf, rfl, free_taken b, ?_, by simp, by simp,
    fun _ => rfl, hl', fun d hd => ?_, hkeep⟩
  · rw [real_taken]
    rw [toNat_roundedSize_of_le hmax] at hfit
    omega
  · rcases List.mem_append.mp hd with hd | hd
    · exact hround d (List.mem_append_left _ hd)
    · rcases List.mem_cons.mp hd with rfl | hd
      · rw [real_taken]
        exact hround b (by simp)
      · exact hround d (List.mem_append_right _ (List.mem_cons_of_mem b hd))

/-- A header inside of the block handed out is none of a laid-out heap. -/
theorem not_served_of_freelist {h' : Heap} {size best : U32} (hmax : size.toNat ≤ 2 ^ 32 - 16)
    (hlist : h'.freelist = restAddr best size) (hstart : (restAddr best size).toNat =
      best.toNat + 4 * (roundedSize size).toNat + 52) : ¬ Served h h' bs size best := by
  rintro ⟨pre, b, gone, post, c, rest, L', -, -, -, rfl, -, hsize, -, -, -, hl', hround, -⟩
  have hc : c ∈ pre ++ c :: (rest ++ post) := by simp
  have hsixteen := hround c hc
  rw [toNat_roundedSize_of_le hmax, ← hlist] at hstart
  have hstop := hl'.freelist_not_inside hc (by unfold Block.start; omega)
  unfold Block.stop Block.start at hstop
  omega

end Heap

namespace Kernel

variable {k : Kernel} {bs : List Block} {L : List U32} {n : Nat} {size best : U32}

/-- `malloc` takes the block that `bestfit` has found. -/
theorem malloc_of_best (hsize : size ≠ 0) (hbest : k.heap.bestfit (roundedSize size) = some best)
    (hne : best ≠ 0) : k.malloc n size =
      some ({ k with heap := (k.heap.mallocBest best (blockSize size)).1 },
        (k.heap.mallocBest best (blockSize size)).2) := by
  unfold malloc mallocWith
  rw [if_neg hsize, hbest, Option.bind_some, if_pos hne]

/--
**Serving a request from the free list.** In every laid-out heap whose sizes are multiples of 16,
a request that `bestfit` can serve leaves such a heap exactly when some free block is large enough
for it and not more than 23 bytes larger.
-/
theorem served_iff (hl : k.heap.Layout bs L) (hround : Heap.Rounded bs) (hsize : size ≠ 0)
    (hmax : size.toNat ≤ 2 ^ 32 - 16) (hbest : k.heap.bestfit (roundedSize size) = some best)
    (hne : best ≠ 0) :
    (∃ k' r, k.malloc n size = some (k', r) ∧ Heap.Served k.heap k'.heap bs size r.block) ↔
      ∃ b ∈ bs, b.free = true ∧ (roundedSize size).toNat ≤ b.real ∧
        b.real < (roundedSize size).toNat + 24 := by
  obtain ⟨b, hb, rfl, hf, hfit, hleast⟩ := hl.bestfit_spec hbest hne
  rw [getRealSize_roundedSize] at hfit hleast
  have hrun := malloc_of_best (n := n) hsize hbest hne
  obtain ⟨pre, post, rfl⟩ := List.append_of_mem hb
  constructor
  · rintro ⟨k', r, hm, hserved⟩
    rw [hrun] at hm
    cases hm
    refine ⟨b, hb, hf, hfit, ?_⟩
    by_contra hrest
    exact Heap.not_served_of_freelist hmax (hl.freelist_mallocBest hb hf (by omega))
      (Heap.restAddr_toNat hfit (hl.stop_le hb)) hserved
  · rintro ⟨c, hc, hcf, hcfit, hclt⟩
    have hle := hleast c hc hcf hcfit
    exact ⟨_, _, hrun, hl.served_whole hround hf hmax hfit (by omega)⟩

theorem bestfit_threeHeap : Heap.threeHeap.bestfit 16 = some 0x1000 := by decide +kernel

/-- The first of the three blocks serves 16 bytes and 32. -/
theorem served_iff_threeHeap :
    (∃ k' r, malloc 0 ⟨bare.vmm, Heap.threeHeap⟩ 16 = some (k', r) ∧
      Heap.Served Heap.threeHeap k'.heap Heap.threeBlocks 16 r.block) ↔
      ∃ b ∈ Heap.threeBlocks, b.free = true ∧ (roundedSize 16).toNat ≤ b.real ∧
        b.real < (roundedSize 16).toNat + 24 :=
  served_iff (k := ⟨bare.vmm, Heap.threeHeap⟩) Heap.layout_threeHeap
    (by unfold Heap.Rounded; decide) (by decide) (by decide)
    (show Heap.threeHeap.bestfit 16 = some 0x1000 from bestfit_threeHeap) (by decide)

/-- A heap of one free block of 64. -/
def oneHeap : Heap :=
  { bare.heap.stamp ⟨0x1000, 65⟩ with head := 0x1000, tail := 0x1000, freelist := 0x1000 }

theorem layout_oneHeap : oneHeap.Layout [⟨0x1000, 65⟩] [0x1000] where
  ne := by decide
  head_ne := by decide
  tiles := ⟨0x1140, by decide, rfl, by decide, rfl⟩
  tail := rfl
  size := by decide +kernel
  trailer := by decide +kernel
  freeList := ⟨rfl, ⟨by decide +kernel, by decide +kernel, trivial⟩, by decide, by decide⟩
  perm := List.Perm.refl _

/-- The rest behind 16 bytes gets its header at `0x1074`, and the block ends at `0x1080`. -/
theorem not_served_oneHeap : ¬ ∃ k' r, malloc 0 ⟨bare.vmm, oneHeap⟩ 16 = some (k', r) ∧
    Heap.Served oneHeap k'.heap [⟨0x1000, 65⟩] 16 r.block := by
  rintro ⟨k', r, hm, hserved⟩
  have hbest : oneHeap.bestfit (roundedSize 16) = some 0x1000 := by decide +kernel
  have hl : oneHeap.Layout ([] ++ ⟨0x1000, 65⟩ :: []) [0x1000] := layout_oneHeap
  rw [malloc_of_best (k := ⟨bare.vmm, oneHeap⟩) (by decide) hbest (by decide)] at hm
  cases hm
  exact Heap.not_served_of_freelist (by decide)
    (hl.freelist_mallocBest (b := ⟨0x1000, 65⟩) (by simp) (by decide) (by decide))
    (Heap.restAddr_toNat (b := ⟨0x1000, 65⟩) (by decide) (by decide)) hserved

end Kernel

end PiggyOS
