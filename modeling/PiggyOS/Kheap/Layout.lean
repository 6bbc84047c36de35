import PiggyOS.Infra.Tiling
import PiggyOS.Kheap.Freelist
import PiggyOS.Kheap.Walk

/-!
# Laid-out heaps

A heap is laid out as the blocks `bs` when they lie one behind the other from `head` to `tail`,
each as long as `getNextBlock` takes it to be, with its size word at both ends, and when the free
list holds the free ones.

* `Layout.getNextBlock_eq`, `Layout.getPrevBlock_eq` — the neighbours found in memory are those in
  the list
* `Layout.replace` — other blocks in place of some
-/

namespace PiggyOS

open Infra

/-! ## Size words -/

/-- A size word with the mark `setFree` leaves in bit 0. -/
def mark (v : U32) (x : Bool) : U32 := if x then v ||| 1 else v &&& 0xFFFFFFFE

theorem and_one_ne_zero_iff (v : U32) : v &&& 1 ≠ 0 ↔ v.toNat % 2 = 1 := by
  rw [Ne, ← BitVec.toNat_inj, BitVec.toNat_and]
  show ¬ v.toNat &&& 1 = 0 ↔ _
  rw [Nat.and_one_is_mod]
  omega

theorem toNat_mark (v : U32) (x : Bool) :
    (mark v x).toNat = v.toNat / 2 * 2 + (if x then 1 else 0) := by
  cases x with
  | false => exact (congrArg BitVec.toNat (getRealSize_eq v).symm).trans (getRealSize_toNat v)
  | true =>
    show (v ||| 1).toNat = _
    rw [BitVec.toNat_or]
    show v.toNat ||| 1 = v.toNat / 2 * 2 + 1
    have hdiv := Nat.or_div_two (a := v.toNat) (b := 1)
    rw [show 1 / 2 = 0 from rfl, Nat.or_zero] at hdiv
    have hmod := Nat.or_mod_two_eq_one (a := v.toNat) (b := 1)
    omega

theorem getRealSize_mark (v : U32) (x : Bool) : getRealSize (mark v x) = getRealSize v := by
  apply BitVec.eq_of_toNat_eq
  rw [getRealSize_toNat, getRealSize_toNat, toNat_mark]
  split <;> omega

/-! ## Blocks -/

/-- A block of a heap: the address of its header and its size word. -/
structure Block where
  addr : U32
  size : U32
  deriving DecidableEq, Repr

namespace Block

variable (b c : Block)

/-- Bit 0 of the size word. -/
def free : Bool := b.size &&& 1 ≠ 0

/-- The size word without bit 0. -/
def real : Nat := (getRealSize b.size).toNat

/-- The first byte. -/
def start : Nat := b.addr.toNat

/-- The first byte behind it: `OVERHEAD` and the real size are counted in words. -/
def stop : Nat := b.start + 4 * (b.real + 16)

/-- The address of the second size word. -/
def trailer : U32 := wordsAfter (wordsAfter b.addr sizeofBlock) (getRealSize b.size)

/-- The bytes of the block. -/
def span : Set U32 := {x | b.start ≤ x.toNat ∧ x.toNat < b.stop}

/-- The bytes of the two size words. -/
def tags : Set U32 := bytes b.addr 4 ∪ bytes b.trailer 4

theorem real_eq : b.real = b.size.toNat / 2 * 2 := getRealSize_toNat _

theorem free_iff : b.free = true ↔ b.size.toNat % 2 = 1 := by
  unfold free
  rw [decide_eq_true_eq]
  exact and_one_ne_zero_iff _

theorem size_toNat : b.size.toNat = b.real + (if b.free then 1 else 0) := by
  have := b.free_iff
  rw [real_eq]
  split
  · next h => have := this.mp h; omega
  · next h => have := mt this.mpr h; omega

theorem free_mk_mark (a v : U32) (x : Bool) : (Block.mk a (mark v x)).free = x := by
  have h := free_iff ⟨a, mark v x⟩
  dsimp only at h
  rw [toNat_mark] at h
  cases x with
  | false => simpa using h
  | true => exact h.mpr (by simp)

theorem real_mk_mark (a v : U32) (x : Bool) :
    (Block.mk a (mark v x)).real = v.toNat / 2 * 2 := by
  unfold real
  rw [getRealSize_mark, getRealSize_toNat]

theorem start_lt_stop : b.start < b.stop := by
  unfold stop
  omega

variable {b c}

theorem trailer_toNat (hb : b.stop ≤ 2 ^ 32) : b.trailer.toNat + 16 = b.stop := by
  unfold stop start real at *
  unfold trailer wordsAfter sizeofBlock
  bv_omega

theorem mem_tags (hb : b.stop ≤ 2 ^ 32) {x : U32} : x ∈ b.tags ↔
    (b.start ≤ x.toNat ∧ x.toNat < b.start + 4) ∨
      (b.stop ≤ x.toNat + 16 ∧ x.toNat + 12 < b.stop) := by
  have ht := trailer_toNat hb
  have hlt : b.start + 64 ≤ b.stop := by unfold stop; omega
  unfold tags
  rw [Set.mem_union, mem_bytes_iff (show b.start + 4 ≤ 2 ^ 32 by omega),
    mem_bytes_iff (by omega)]
  unfold start
  omega

theorem tags_subset_span (hb : b.stop ≤ 2 ^ 32) : b.tags ⊆ b.span := by
  intro x hx
  have hlt : b.start + 64 ≤ b.stop := by unfold stop; omega
  rw [mem_tags hb] at hx
  show b.start ≤ x.toNat ∧ x.toNat < b.stop
  omega

/-- The links of a block are clear of its size words. -/
theorem mem_link_bytes (hb : b.stop ≤ 2 ^ 32) {x : U32} (hx : x ∈ bytes (b.addr + 4) 8) :
    b.start + 4 ≤ x.toNat ∧ x.toNat < b.start + 12 ∧ x ∈ b.span ∧ x ∉ b.tags := by
  have hlt : b.start + 64 ≤ b.stop := by unfold stop; omega
  have h4 : (b.addr + 4).toNat = b.start + 4 := by
    unfold start at *
    bv_omega
  rw [mem_bytes_iff (by omega)] at hx
  rw [mem_tags hb]
  exact ⟨by omega, by omega, ⟨by omega, by omega⟩, by omega⟩

/-- The block over two neighbours. -/
def join (b c : Block) (x : Bool) : Block :=
  ⟨b.addr, mark (getRealSize b.size + overhead + getRealSize c.size) x⟩

@[simp] theorem addr_join (x : Bool) : (b.join c x).addr = b.addr := rfl

@[simp] theorem free_join (x : Bool) : (join b c x).free = x := free_mk_mark _ _ _

theorem real_join (x : Bool) (h : b.stop + 4 * (c.real + 16) ≤ 2 ^ 32) :
    (join b c x).real = b.real + 16 + c.real := by
  have hb := b.real_eq
  have hc := c.real_eq
  unfold join
  rw [real_mk_mark]
  unfold stop real overhead sizeofBlock at *
  bv_omega

theorem stop_join (x : Bool) (hbc : c.start = b.stop) (hc : c.stop ≤ 2 ^ 32) :
    (join b c x).stop = c.stop := by
  have hstart : (join b c x).start = b.start := rfl
  have hreal := real_join (b := b) (c := c) x (by unfold stop at *; omega)
  unfold stop at *
  omega

end Block

namespace Heap

/-! ## The layout -/

/-- The headers of the free blocks. -/
def freeAddrs (bs : List Block) : List U32 := (bs.filter Block.free).map Block.addr

/-- The heap consists of the blocks `bs`, with the free ones in the order `L` on the free list.
No block is at NULL. -/
structure Layout (h : Heap) (bs : List Block) (L : List U32) : Prop where
  ne : bs ≠ []
  head_ne : h.head ≠ 0
  tiles : ∃ e ≤ 2 ^ 32, Tiles Block.start Block.stop h.head.toNat bs e
  tail : h.tail = (bs.map Block.addr).getLastD 0
  size : ∀ b ∈ bs, h.size b.addr = b.size
  trailer : ∀ b ∈ bs, h.mem.read32 b.trailer = b.size
  freeList : FreeList h L
  perm : L.Perm (freeAddrs bs)

/-- The bytes of the blocks. -/
def span (bs : List Block) : Set U32 := {x | ∃ b ∈ bs, x ∈ b.span}

/-- The block `m` lies where the blocks `mid` lie together. -/
def Covers (m : Block) (mid : List Block) : Prop :=
  ∀ a e, e ≤ 2 ^ 32 → Tiles Block.start Block.stop a mid e → Tiles Block.start Block.stop a [m] e

/-- The block keeps its bytes, save for the links of a free one. -/
def Keeps (h h' : Heap) (b : Block) : Prop :=
  ∀ x ∈ b.span, (b.free = true → x ∉ bytes (b.addr + 4) 8) → h'.mem x = h.mem x

variable {h h' : Heap} {bs pre mid mid' post : List Block} {L L' : List U32} {b c q n : Block}
  {a x : U32}

theorem freeAddrs_append (bs cs : List Block) :
    freeAddrs (bs ++ cs) = freeAddrs bs ++ freeAddrs cs := by
  unfold freeAddrs
  rw [List.filter_append, List.map_append]

theorem freeAddrs_cons (b : Block) (bs : List Block) :
    freeAddrs (b :: bs) = if b.free then b.addr :: freeAddrs bs else freeAddrs bs := by
  unfold freeAddrs
  rw [List.filter_cons]
  split <;> rfl

theorem freeAddrs_nil : freeAddrs [] = [] := rfl

theorem mem_freeAddrs : a ∈ freeAddrs bs ↔ ∃ b ∈ bs, b.free = true ∧ b.addr = a := by
  unfold freeAddrs
  simp only [List.mem_map, List.mem_filter, and_assoc]

namespace Layout

theorem bounds (hl : Layout h bs L) (hb : b ∈ bs) :
    0 < b.start ∧ b.start + 64 ≤ b.stop ∧ b.stop ≤ 2 ^ 32 := by
  obtain ⟨e, he, htiles⟩ := hl.tiles
  obtain ⟨h1, -, h3⟩ := htiles.bounds_mem hb
  have hpos : h.head.toNat ≠ 0 := fun hc => hl.head_ne (BitVec.eq_of_toNat_eq hc)
  refine ⟨by omega, ?_, by omega⟩
  unfold Block.stop
  omega

theorem stop_le (hl : Layout h bs L) (hb : b ∈ bs) : b.stop ≤ 2 ^ 32 := (hl.bounds hb).2.2

/-- No two blocks share a byte. -/
theorem eq_of_mem_span (hl : Layout h bs L) (hb : b ∈ bs) (hc : c ∈ bs) (hxb : x ∈ b.span)
    (hxc : x ∈ c.span) : b = c := by
  obtain ⟨e, -, htiles⟩ := hl.tiles
  exact htiles.eq_of_mem hb hc hxb hxc

theorem eq_of_addr (hl : Layout h bs L) (hb : b ∈ bs) (hc : c ∈ bs) (he : b.addr = c.addr) :
    b = c := by
  obtain ⟨e, -, htiles⟩ := hl.tiles
  exact htiles.eq_of_start_eq hb hc (congrArg BitVec.toNat he)

theorem mem_list_iff (hl : Layout h bs L) :
    a ∈ L ↔ ∃ b ∈ bs, b.free = true ∧ b.addr = a := by
  rw [hl.perm.mem_iff, mem_freeAddrs]

theorem mem_list (hl : Layout h bs L) (hb : b ∈ bs) (hf : b.free = true) : b.addr ∈ L :=
  hl.mem_list_iff.mpr ⟨b, hb, hf, rfl⟩

theorem not_mem_list (hl : Layout h bs L) (hb : b ∈ bs) (hf : b.free = false) : b.addr ∉ L := by
  intro hm
  obtain ⟨c, hc, hcf, he⟩ := hl.mem_list_iff.mp hm
  rw [hl.eq_of_addr hc hb he, hf] at hcf
  cases hcf

/-- The first header on the free list does not lie inside of a block. -/
theorem freelist_not_inside (hl : Layout h bs L) (hb : b ∈ bs) (hlo : b.start < h.freelist.toNat) :
    b.stop ≤ h.freelist.toNat := by
  have hne : L ≠ [] := by
    rintro rfl
    rw [hl.freeList.head] at hlo
    exact absurd hlo (by simp)
  have hmem : h.freelist ∈ L := by
    rw [hl.freeList.head]
    exact headD_mem hne
  obtain ⟨d, hd, -, hda⟩ := hl.mem_list_iff.mp hmem
  obtain ⟨e, -, htiles⟩ := hl.tiles
  have hdlt := d.start_lt_stop
  have hds : d.start = h.freelist.toNat := congrArg BitVec.toNat hda
  rcases htiles.trichotomy hb hd with rfl | hle | hle
  · omega
  · omega
  · omega

/-- The headers of two blocks do not overlap. -/
theorem addr_sub (hl : Layout h bs L) (hb : b ∈ bs) (hc : c ∈ bs) (hne : b.addr ≠ c.addr) :
    12 ≤ (b.addr - c.addr).toNat := by
  obtain ⟨e, -, htiles⟩ := hl.tiles
  obtain ⟨-, h1, h2⟩ := hl.bounds hb
  obtain ⟨-, h3, h4⟩ := hl.bounds hc
  rcases htiles.trichotomy hb hc with rfl | hle | hle
  · exact absurd rfl hne
  · unfold Block.start at *
    bv_omega
  · unfold Block.start at *
    bv_omega

theorem spaced_map (hl : Layout h bs L) : Spaced (bs.map Block.addr) := by
  intro a ha a' ha' hne
  obtain ⟨b, hb, rfl⟩ := List.mem_map.mp ha
  obtain ⟨c, hc, rfl⟩ := List.mem_map.mp ha'
  exact hl.addr_sub hb hc hne

theorem list_subset (hl : Layout h bs L) : L ⊆ bs.map Block.addr := by
  intro a ha
  obtain ⟨b, hb, -, rfl⟩ := hl.mem_list_iff.mp ha
  exact List.mem_map_of_mem hb

theorem spaced (hl : Layout h bs L) : Spaced L := hl.spaced_map.mono hl.list_subset

/-- A block that is put on the free list. -/
theorem spaced_cons (hl : Layout h bs L) (hb : b ∈ bs) : Spaced (b.addr :: L) :=
  hl.spaced_map.mono (List.cons_subset.mpr ⟨List.mem_map_of_mem hb, hl.list_subset⟩)

/-- The links lie in the free blocks, behind the size word. -/
theorem mem_links (hl : Layout h bs L) (hx : x ∈ links L) :
    ∃ b ∈ bs, b.free = true ∧ x ∈ bytes (b.addr + 4) 8 ∧
      b.start + 4 ≤ x.toNat ∧ x.toNat < b.start + 12 := by
  obtain ⟨a, ha, hx⟩ := hx
  obtain ⟨b, hb, hf, rfl⟩ := hl.mem_list_iff.mp ha
  obtain ⟨h1, h2, -, -⟩ := Block.mem_link_bytes (hl.bounds hb).2.2 hx
  exact ⟨b, hb, hf, hx, h1, h2⟩

/-- A link in a block is one of a free block. -/
theorem link_of_mem_span (hl : Layout h bs L) (hb : b ∈ bs) (hx : x ∈ b.span)
    (hlink : x ∈ links L) :
    b.free = true ∧ x ∈ bytes (b.addr + 4) 8 ∧ b.start + 4 ≤ x.toNat ∧ x.toNat < b.start + 12 := by
  obtain ⟨d, hd, hf, hxd, h1, h2⟩ := hl.mem_links hlink
  obtain ⟨-, hlen, -⟩ := hl.bounds hd
  obtain rfl := hl.eq_of_mem_span hb hd hx ⟨by omega, by omega⟩
  exact ⟨hf, hxd, h1, h2⟩

/-- The part of the heap that the blocks `mid` take up. -/
theorem exists_tiles (hl : Layout h (pre ++ mid ++ post) L) : ∃ a e, e ≤ 2 ^ 32 ∧
    Tiles Block.start Block.stop a mid e ∧ (∀ b ∈ pre, b.stop ≤ a) ∧ ∀ b ∈ post, e ≤ b.start := by
  obtain ⟨z, hz, htiles⟩ := hl.tiles
  obtain ⟨e, htiles, hpost⟩ := tiles_append.mp htiles
  obtain ⟨a, hpre, hmid⟩ := tiles_append.mp htiles
  exact ⟨a, e, hpost.le.trans hz, hmid, fun b hb => (hpre.bounds_mem hb).2.2,
    fun b hb => (hpost.bounds_mem hb).1⟩

/-- A block that covers the blocks `mid` has the bytes they have. -/
theorem span_subset {m : Block} (hl : Layout h (pre ++ mid ++ post) L) (hm : Covers m mid) :
    m.stop ≤ 2 ^ 32 ∧ m.span ⊆ span mid := by
  obtain ⟨a, e, he, hmid, -, -⟩ := hl.exists_tiles
  obtain ⟨hstart, -, hstop⟩ := tiles_singleton.mp (hm a e he hmid)
  refine ⟨by omega, fun x hx => ?_⟩
  obtain ⟨hx1, hx2⟩ := hx
  exact hmid.exists_mem (by omega) (by omega)

/-- The size words of a block that covers the blocks `mid` are clear of the links. -/
theorem not_mem_tags {m : Block} (hl : Layout h (pre ++ mid ++ post) L) (hm : Covers m mid) :
    ∀ x ∈ links L, x ∉ m.tags := by
  intro x hx htag
  obtain ⟨a, e, he, hmid, hpre, hpost⟩ := hl.exists_tiles
  obtain ⟨hstart, -, hstop⟩ := tiles_singleton.mp (hm a e he hmid)
  obtain ⟨b, hb, -, -, h1, h2⟩ := hl.mem_links hx
  obtain ⟨-, hlen, -⟩ := hl.bounds hb
  have hlong : m.start + 64 ≤ m.stop := by unfold Block.stop; omega
  rw [Block.mem_tags (by omega), hstart, hstop] at htag
  simp only [List.mem_append] at hb
  rcases hb with (hb | hb) | hb
  · have := hpre b hb
    omega
  · have := hmid.bounds_mem hb
    omega
  · have := hpost b hb
    omega

/-! ## Neighbours -/

theorem addr_ne {xs ys : List Block} (hl : Layout h (xs ++ ys) L) (hb : b ∈ xs) (hc : c ∈ ys) :
    b.addr ≠ c.addr := by
  obtain ⟨e, -, htiles⟩ := hl.tiles
  have hle := htiles.stop_le_start hb hc
  have hlt := b.start_lt_stop
  intro he
  have hstart : b.start = c.start := congrArg BitVec.toNat he
  omega

theorem head_eq (hl : Layout h (b :: post) L) : h.head = b.addr := by
  obtain ⟨e, -, hstart, -⟩ := hl.tiles
  exact BitVec.eq_of_toNat_eq hstart.symm

theorem tail_eq (hl : Layout h (pre ++ [b]) L) : h.tail = b.addr := by
  rw [hl.tail, List.map_append, getLastD_append]
  rfl

theorem ne_head (hl : Layout h (pre ++ b :: post) L) (hpre : pre ≠ []) : b.addr ≠ h.head := by
  cases pre with
  | nil => exact absurd rfl hpre
  | cons q pre =>
    have hcut : Layout h ((q :: pre) ++ b :: post) L := hl
    rw [hl.head_eq]
    exact (hcut.addr_ne List.mem_cons_self List.mem_cons_self).symm

theorem ne_tail (hl : Layout h (pre ++ b :: post) L) (hpost : post ≠ []) : b.addr ≠ h.tail := by
  rcases List.eq_nil_or_concat post with rfl | ⟨init, n, rfl⟩
  · exact absurd rfl hpost
  · rw [List.concat_eq_append, ← List.cons_append, ← List.append_assoc] at hl
    rw [hl.tail_eq]
    exact hl.addr_ne (by simp) List.mem_cons_self

theorem start_next (hl : Layout h (pre ++ b :: n :: post) L) : n.start = b.stop := by
  obtain ⟨e, -, htiles⟩ := hl.tiles
  obtain ⟨m, -, -, -, hn, -⟩ := tiles_append.mp htiles
  exact hn

/-- `getNextBlock` finds the block behind. -/
theorem getNextBlock_eq (hl : Layout h (pre ++ b :: n :: post) L) :
    h.getNextBlock b.addr = n.addr := by
  unfold getNextBlock
  rw [if_neg (hl.ne_tail (List.cons_ne_nil n post)), hl.size b (by simp)]
  have hn := hl.start_next
  obtain ⟨-, -, hstop⟩ := hl.bounds (b := n) (by simp)
  unfold Block.stop Block.start Block.real wordsAfter overhead sizeofBlock at *
  bv_omega

theorem getNextBlock_last (hl : Layout h (pre ++ [b]) L) : h.getNextBlock b.addr = 0 := by
  unfold getNextBlock
  rw [if_pos hl.tail_eq.symm]

/-- The second size word of the block before lies four words before the header. -/
theorem trailer_eq (hl : Layout h (pre ++ q :: b :: post) L) :
    wordsBefore b.addr 4 = q.trailer := by
  have hb := hl.start_next
  have htrail := q.trailer_toNat (hl.stop_le (b := q) (by simp))
  unfold Block.start at hb
  unfold wordsBefore
  bv_omega

/-- `getPrevBlock` finds the block before, through its second size word. -/
theorem getPrevBlock_eq (hl : Layout h (pre ++ q :: b :: post) L) :
    h.getPrevBlock b.addr = q.addr := by
  have hl' : Layout h ((pre ++ [q]) ++ b :: post) L := by simpa using hl
  have hb := hl.start_next
  have hstop := hl.stop_le (b := q) (by simp)
  unfold getPrevBlock
  rw [if_neg (hl'.ne_head (by simp)), hl.trailer_eq, hl.trailer q (by simp)]
  unfold Block.stop Block.start Block.real wordsBefore overhead sizeofBlock at *
  bv_omega

theorem getPrevBlock_first (hl : Layout h (b :: post) L) : h.getPrevBlock b.addr = 0 := by
  unfold getPrevBlock
  rw [if_pos hl.head_eq.symm]

theorem addr_ne_zero (hl : Layout h bs L) (hb : b ∈ bs) : b.addr ≠ 0 := by
  obtain ⟨hpos, -, -⟩ := hl.bounds hb
  intro hc
  unfold Block.start at hpos
  rw [hc] at hpos
  exact absurd hpos (by decide)

theorem isFree_eq (hl : Layout h bs L) (hb : b ∈ bs) : h.isFree b.addr = b.free := by
  unfold isFree Block.free
  rw [hl.size b hb, decide_eq_true (hl.addr_ne_zero hb), Bool.true_and]

/-! ## Other blocks in place of some -/

theorem keeps (hl : Layout h (pre ++ mid ++ post) L)
    (hmem : Mem.Within (span mid ∪ links L) h.mem h'.mem) :
    ∀ b ∈ pre ++ post, Keeps h h' b := by
  intro b hb x hx hlink
  have hbs : b ∈ pre ++ mid ++ post := by
    simp only [List.mem_append] at hb ⊢
    tauto
  refine hmem ?_
  rintro (⟨c, hc, hxc⟩ | hlinks)
  · obtain rfl := hl.eq_of_mem_span hbs (by simp [hc]) hx hxc
    obtain ⟨e, -, htiles⟩ := hl.tiles
    rcases List.mem_append.mp hb with hb | hb
    · rw [List.append_assoc] at hl
      exact hl.addr_ne hb (List.mem_append_left _ hc) rfl
    · exact hl.addr_ne (List.mem_append_right _ hc) hb rfl
  · obtain ⟨hf, hxd, -, -⟩ := hl.link_of_mem_span hbs hx hlinks
    exact hlink hf hxd

end Layout

theorem Keeps.size (hk : Keeps h h' b) (hb : b.stop ≤ 2 ^ 32) : h'.size b.addr = h.size b.addr := by
  have hspan := b.tags_subset_span hb
  have hmem : Mem.Within {x | ¬ x ∈ bytes b.addr 4} h.mem h'.mem := by
    intro x hx
    simp only [Set.mem_compl_iff, Set.mem_ofPred_eq, not_not] at hx
    refine hk x (hspan (Or.inl hx)) fun _ hlink => ?_
    unfold bytes at *
    rw [Set.mem_ofPred_eq] at *
    bv_omega
  exact hmem.read32 fun x hx => not_not.mpr hx

theorem Keeps.trailer (hk : Keeps h h' b) (hb : b.stop ≤ 2 ^ 32) :
    h'.mem.read32 b.trailer = h.mem.read32 b.trailer := by
  have hspan := b.tags_subset_span hb
  have htrail := b.trailer_toNat hb
  have hlt : b.start + 64 ≤ b.stop := by unfold Block.stop; omega
  have hmem : Mem.Within {x | ¬ x ∈ bytes b.trailer 4} h.mem h'.mem := by
    intro x hx
    simp only [Set.mem_compl_iff, Set.mem_ofPred_eq, not_not] at hx
    refine hk x (hspan (Or.inr hx)) fun _ hlink => ?_
    unfold bytes Block.start at *
    rw [Set.mem_ofPred_eq] at *
    bv_omega
  exact hmem.read32 fun x hx => not_not.mpr hx

/-- **One block in place of some**: what is left to show when an operation has changed the blocks
`mid`, written the size words of `m` and rearranged the free list. -/
theorem Layout.replace {m : Block} (hl : Layout h (pre ++ mid ++ post) L) (hm : Covers m mid)
    (hhead : h'.head = h.head) (htail : h'.tail = if post = [] then m.addr else h.tail)
    (hsize : h'.size m.addr = m.size) (htrailer : h'.mem.read32 m.trailer = m.size)
    (hmem : Mem.Within (span mid ∪ links L) h.mem h'.mem) (hlist : FreeList h' L')
    (hperm : L'.Perm (freeAddrs (pre ++ m :: post))) :
    Layout h' (pre ++ m :: post) L' ∧ ∀ b ∈ pre ++ post, Keeps h h' b := by
  have hkeep := hl.keeps hmem
  obtain ⟨e, he, ht⟩ := hl.tiles
  have hold : ∀ b ∈ pre ++ post, h'.size b.addr = b.size ∧ h'.mem.read32 b.trailer = b.size := by
    intro b hb
    have hbs : b ∈ pre ++ mid ++ post := by
      simp only [List.mem_append] at hb ⊢
      tauto
    rw [(hkeep b hb).size (hl.stop_le hbs), (hkeep b hb).trailer (hl.stop_le hbs)]
    exact ⟨hl.size b hbs, hl.trailer b hbs⟩
  have hall : ∀ b ∈ pre ++ m :: post,
      h'.size b.addr = b.size ∧ h'.mem.read32 b.trailer = b.size := by
    intro b hb
    simp only [List.mem_append, List.mem_cons] at hb
    rcases hb with hb | rfl | hb
    · exact hold b (List.mem_append_left _ hb)
    · exact ⟨hsize, htrailer⟩
    · exact hold b (List.mem_append_right _ hb)
  refine ⟨⟨by simp, by rw [hhead]; exact hl.head_ne, ⟨e, he, ?_⟩, ?_, fun b hb => (hall b hb).1,
    fun b hb => (hall b hb).2, hlist, hperm⟩, hkeep⟩
  · rw [hhead, List.append_cons]
    exact ht.replace fun l r hr => hm l r (hr.trans he)
  · rw [htail, List.map_append, List.map_cons, getLastD_append, List.getLastD_cons]
    split
    · next hpost =>
      rw [hpost]
      rfl
    · next hpost =>
      rw [hl.tail, List.map_append, getLastD_append]
      exact getLastD_congr (by simpa using hpost)

end Heap

end PiggyOS
