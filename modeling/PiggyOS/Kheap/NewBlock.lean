import PiggyOS.Kheap.Move
import PiggyOS.Kheap.Starved

/-!
# Moving a block to the break

A block that fits nowhere in the free list comes from `ksbrk`, and the break can be anywhere. The
page tables for what `ksbrk` maps are blocks as well: there is no new block for a table as long as
the free list has one that is handed out whole.

* `NewBlock`, `NewBlock.room` — a new block, at any place that is clear of what is still needed
* `BreakMoves`, `exists_ksbrk_of_breakMoves` — a break that moves, and what becomes of the blocks
-/

namespace PiggyOS

open Infra

namespace Heap

variable {h g : Heap} {bs pre post : List Block} {L : List U32} {b c : Block} {p ret size : U32}

/-! ## A new block -/

/-- The block that `malloc` makes at `ret`. -/
def newBlock (ret size : U32) : Block := ⟨ret, roundedSize size⟩

/-- What is written to it when `n` bytes are copied there. -/
def newBytes (ret size : U32) (n : Nat) : Set U32 :=
  (newBlock ret size).tags ∪ bytes (wordsAfter ret sizeofBlock) n

/-- Where the block behind `c` would be. -/
def behind (c : Block) : U32 := wordsAfter (wordsAfter c.addr overhead) (getRealSize c.size)

/-- The block itself, or one that is right before or behind it. -/
def Beside (c b : Block) : Prop := b = c ∨ b.stop = c.start ∨ b.start = c.stop

/-- A new block at `ret` and the data copied to it are clear of what is still needed to move the
block `c`: its data, its size words and those of its neighbours, and the links. -/
structure NewBlock (h : Heap) (bs : List Block) (L : List U32) (c : Block) (p ret size : U32) :
    Prop where
  data : ∀ x ∈ bytes p c.real, x ∉ (newBlock ret size).tags
  tags : ∀ b ∈ bs, Beside c b → ∀ x ∈ b.tags, x ∉ newBytes ret size c.real
  links : ∀ x ∈ links (c.addr :: L), x ∉ newBytes ret size c.real
  /-- `memcpy` goes upwards. -/
  far : c.real ≤ (wordsAfter ret sizeofBlock - p).toNat
  /-- The new block is the last one, so `free` looks behind the one that was. -/
  last : h.tail = c.addr → behind c ≠ ret → h.isFree (behind c) = false ∧
    (behind c ≠ 0 → behind c ∉ newBytes ret size c.real)

/-- `malloc` with a block from `ksbrk`, when there are others. -/
theorem mallocTail_eq (hhead : h.head ≠ 0) (ret size : U32) :
    ∃ l, (h.mallocTail ret (blockSize size)).1 =
      { ({ h with tail := ret } : Heap).stamp (newBlock ret size) with blocks := l } := by
  have hback : blockSize size - overhead = roundedSize size := BitVec.add_sub_cancel ..
  have hmark : mark (roundedSize size) false = roundedSize size := by
    unfold mark
    rw [if_neg Bool.false_ne_true, ← getRealSize_eq, getRealSize_roundedSize]
  have hstamp := stamp_eq_store { h with tail := ret } ret (w := blockSize size)
    (by rw [hback, getRealSize_roundedSize])
  rw [hback, hmark] at hstamp
  unfold mallocTail
  rw [if_neg hhead]
  dsimp only
  rw [hback, hstamp]
  exact ⟨_, rfl⟩

theorem Layout.beside_of_around (hl : Layout h (pre ++ c :: post) L) (hb : Around pre c post b) :
    Beside c b := by
  rcases hb with hb | rfl | hb
  · rcases List.eq_nil_or_concat pre with rfl | ⟨init, q, rfl⟩
    · cases hb
    · rw [List.concat_eq_append] at *
      rw [List.getLast?_concat] at hb
      obtain rfl := Option.some.inj hb
      have hcut : Layout h (init ++ q :: c :: post) L := by simpa using hl
      exact Or.inr (Or.inl hcut.start_next.symm)
  · exact Or.inl rfl
  · cases post with
    | nil => cases hb
    | cons n post =>
      obtain rfl := Option.some.inj hb
      exact Or.inr (Or.inr hl.start_next)

/-- The new block that is right behind the old one is taken. -/
theorem isFree_mallocTail (ret size : U32) :
    (h.mallocTail ret (blockSize size)).1.isFree ret = false := by
  have hround := roundedSize_toNat size
  have heven : ¬ roundedSize size &&& 1 ≠ 0 := by
    rw [and_one_ne_zero_iff]
    omega
  unfold isFree
  rw [size_mallocTail, decide_eq_false heven, Bool.and_false]

/-- **A new block** has room for the data. -/
theorem NewBlock.room (hn : NewBlock h (pre ++ c :: post) L c p ret size)
    (hl : Layout h (pre ++ c :: post) L) :
    Room h (h.mallocTail ret (blockSize size)).1 pre c post L p (wordsAfter ret sizeofBlock) := by
  have hcm : c ∈ pre ++ c :: post := by simp
  obtain ⟨l, heq⟩ := mallocTail_eq hl.head_ne ret size
  have hwithin : Mem.Within (newBlock ret size).tags h.mem
      (h.mallocTail ret (blockSize size)).1.mem := by
    rw [heq]
    exact within_stamp { h with tail := ret } _
  have haround : ∀ b, Around pre c post b → ∀ x ∈ b.tags, x ∉ newBytes ret size c.real :=
    fun b hb => hn.tags b hb.mem (hl.beside_of_around hb)
  have htags : ∀ b, Around pre c post b → ∀ x ∈ b.tags,
      (h.mallocTail ret (blockSize size)).1.mem x = h.mem x :=
    fun b hb x hx => hwithin fun hc => haround b hb x hx (Or.inl hc)
  have hne : ret ≠ c.addr := by
    rintro rfl
    exact haround c (Or.inr (Or.inl rfl)) c.addr (Or.inl (self_mem_bytes (by decide)))
      (Or.inl (Or.inl (self_mem_bytes (by decide))))
  have htail : (h.mallocTail ret (blockSize size)).1.tail = ret := by rw [heq]; rfl
  refine ⟨fun x hx => hwithin (hn.data x hx), htags, by rw [heq]; rfl, fun _ => htail ▸ hne, ?_,
    ?_, hl.spaced_cons hcm, fun n hm hnf => hl.mem_list (Around.mem (Or.inr (Or.inr hm))) hnf,
    hl.links_not_mem_tagsAround, fun x hx => ⟨?_, fun hc => hn.links x hc (Or.inr hx)⟩, hn.far⟩
  · -- the block moved was the last one
    rintro rfl
    have hsize := ((hl.intact hcm).of_eqOn (htags c (Or.inr (Or.inl rfl)))).1
    have hnext : (h.mallocTail ret (blockSize size)).1.getNextBlock c.addr = behind c := by
      unfold getNextBlock behind
      rw [htail, if_neg hne.symm, hsize]
    rw [hnext]
    by_cases hret : behind c = ret
    · rw [hret]
      refine ⟨isFree_mallocTail ret size, fun _ hx => ?_⟩
      obtain ⟨-, -, hstop⟩ := hl.bounds hcm
      unfold Block.stop at hstop
      unfold bytes wordsAfter sizeofBlock at *
      rw [Set.mem_ofPred_eq] at *
      bv_omega
    · obtain ⟨hfree, hclear⟩ := hn.last hl.tail_eq hret
      refine ⟨?_, fun h0 hx => hclear h0 (Or.inr hx)⟩
      by_cases h0 : behind c = 0
      · rw [h0]
        rfl
      · rw [← hfree]
        exact isFree_of_byte (hwithin fun hc => hclear h0 (Or.inl hc))
  · rw [heq]
    exact hl.freeList.congr rfl (within_stamp { h with tail := ret } _) fun x hx hc =>
      hn.links x (links_mono (List.subset_cons_self _ _) hx) (Or.inl hc)
  · rintro ⟨b, hb, hxb⟩
    exact haround b hb x hxb (Or.inr hx)

/-! ## A block for a page table -/

/-- A free block that is handed out whole for a page table. -/
def IsSpare (b : Block) : Prop := b.free = true ∧ 8192 ≤ b.real ∧ b.real < 8216

instance : DecidablePred IsSpare := fun b =>
  inferInstanceAs (Decidable (b.free = true ∧ 8192 ≤ b.real ∧ b.real < 8216))

def spare (bs : List Block) : Nat := bs.countP IsSpare

theorem not_isSpare_taken (b : Block) : ¬ IsSpare (taken b) := by
  unfold IsSpare
  rw [free_taken]
  exact fun hc => Bool.false_ne_true hc.1

theorem spare_taken (hb : IsSpare b) :
    spare (pre ++ taken b :: post) + 1 = spare (pre ++ b :: post) := by
  unfold spare
  rw [List.countP_append, List.countP_append, List.countP_cons, List.countP_cons,
    decide_eq_true hb, decide_eq_false (not_isSpare_taken b), if_pos rfl, if_neg Bool.false_ne_true]
  omega

/-- The data lie on no link, and not in blocks that are handed out for page tables. -/
def OffTables (bs : List Block) (L : List U32) (c : Block) (p : U32) : Prop :=
  ∀ x ∈ bytes p c.real, x ∉ links L ∧ ∀ b ∈ bs, IsSpare b → x ∉ b.span

/-- There is nothing of the heap behind the last block. -/
theorem Layout.behind_not_mem (hl : Layout h (pre ++ [c]) L) (h0 : behind c ≠ 0) :
    (∀ b ∈ pre ++ [c], behind c ∉ b.tags) ∧ behind c ∉ links L := by
  obtain ⟨-, -, hstop⟩ := hl.bounds (b := c) (by simp)
  have hspan : c.stop = c.start + 4 * (c.real + 16) := rfl
  have hbehind : (behind c).toNat = c.stop := by
    unfold behind wordsAfter overhead sizeofBlock Block.real Block.start at *
    bv_omega
  obtain ⟨z, -, htiles⟩ := hl.tiles
  have hle : ∀ b ∈ pre ++ [c], b.stop ≤ c.stop := fun b hb => by
    rcases List.mem_append.mp hb with hb | hb
    · have := htiles.stop_le_start hb (List.mem_singleton_self c)
      have := c.start_lt_stop
      omega
    · rw [List.mem_singleton.mp hb]
  have hout : ∀ b ∈ pre ++ [c], behind c ∉ b.span := fun b hb hx => by
    have := hx.2
    have := hle b hb
    omega
  refine ⟨fun b hb hx => hout b hb (Block.tags_subset_span (hl.stop_le hb) hx), ?_⟩
  rintro ⟨a, ha, hx⟩
  obtain ⟨b, hb, -, rfl⟩ := hl.mem_list_iff.mp ha
  exact hout b hb (Block.mem_link_bytes (hl.stop_le hb) hx).2.2.1

/-- A free block that is handed out whole changes nothing of what is needed to move another. -/
theorem NewBlock.taken (hn : NewBlock h (pre ++ b :: post) L c p ret size)
    (hl : Layout h (pre ++ b :: post) L) (hc : c ∈ pre ++ b :: post)
    (hmem : Mem.Within (b.tags ∪ Heap.links L) h.mem g.mem) (hends : g.ends = h.ends) :
    NewBlock g (pre ++ Heap.taken b :: post) (L.erase b.addr) c p ret size := by
  obtain ⟨-, htail⟩ := Prod.mk.inj hends
  refine ⟨hn.data, fun d hd hbeside => ?_, fun x hx => hn.links x (links_mono
    (List.cons_subset_cons _ List.erase_subset) hx), hn.far, fun hlast hret => ?_⟩
  · rcases List.mem_append.mp hd with hd | hd
    · exact hn.tags d (List.mem_append_left _ hd) hbeside
    · rcases List.mem_cons.mp hd with rfl | hd
      · -- the size words are at the same place
        rw [tags_taken]
        have hb : b ∈ pre ++ b :: post := by simp
        refine hn.tags b hb (hbeside.imp (fun he => ?_) (Or.imp (fun he => ?_) fun he => he))
        · exact hl.eq_of_addr hb hc (show (Heap.taken b).addr = c.addr from congrArg Block.addr he)
        · rw [← he, stop_taken]
      · exact hn.tags d (List.mem_append_right _ (List.mem_cons_of_mem b hd)) hbeside
  · obtain ⟨hfree, hclear⟩ := hn.last (htail.symm.trans hlast) hret
    refine ⟨?_, hclear⟩
    by_cases h0 : behind c = 0
    · rw [h0]
      rfl
    · rw [← hfree]
      refine isFree_of_byte (hmem ?_)
      obtain ⟨xs, ys, hcut⟩ := List.append_of_mem hc
      have hlc : Layout h (xs ++ c :: ys) L := hcut ▸ hl
      obtain rfl := hlc.tail_eq_iff.mp (htail.symm.trans hlast)
      obtain ⟨htags, hlinks⟩ := hlc.behind_not_mem h0
      rw [Set.mem_compl_iff, Set.mem_union, not_or]
      exact ⟨htags b (hcut ▸ by simp), hlinks⟩

theorem OffTables.taken (hoff : OffTables (pre ++ b :: post) L c p) :
    OffTables (pre ++ Heap.taken b :: post) (L.erase b.addr) c p := by
  intro x hx
  obtain ⟨hlinks, hspan⟩ := hoff x hx
  refine ⟨fun hc => hlinks (links_mono List.erase_subset hc), fun d hd hspare => ?_⟩
  rcases List.mem_append.mp hd with hd | hd
  · exact hspan d (List.mem_append_left _ hd) hspare
  · rcases List.mem_cons.mp hd with rfl | hd
    · exact absurd hspare (not_isSpare_taken b)
    · exact hspan d (List.mem_append_right _ (List.mem_cons_of_mem b hd)) hspare

end Heap

/-! ## The page tables that are made -/

/-- The number of page tables that the kernel's directory lacks for the pages from `lo` to `hi`. -/
def Vmm.tablesNeeded (v : Vmm) (lo hi : Nat) : Nat :=
  (Finset.univ.filter fun i : Fin 1024 => (v.dirs v.kernelPageDir).refTables i = 0 ∧
    v.kernelPageDir ≠ 0 ∧ i.val * 2 ^ 22 < hi ∧ lo < (i.val + 1) * 2 ^ 22).card

theorem Vmm.tablesNeeded_of_dirs {v v' : Vmm} (hdirs : v'.dirs = v.dirs)
    (hdir : v'.kernelPageDir = v.kernelPageDir) (lo hi : Nat) :
    v'.tablesNeeded lo hi = v.tablesNeeded lo hi := by
  unfold tablesNeeded
  rw [hdirs, hdir]

theorem Vmm.tablesNeeded_of_update {v v' : Vmm} {a table : U32} {lo hi : Nat} (hne : table ≠ 0)
    (hdir : v.kernelPageDir ≠ 0) (ha : v.tableOf v.kernelPageDir a = 0) (hlo : lo ≤ a.toNat)
    (hhi : a.toNat < hi) (hkernel : v'.kernelPageDir = v.kernelPageDir)
    (h : (v'.dirs v'.kernelPageDir).refTables =
      Function.update (v.dirs v.kernelPageDir).refTables (pagedirIndex a) table) :
    v'.tablesNeeded lo hi + 1 = v.tablesNeeded lo hi := by
  have hregion := pagedirIndex_val a
  unfold tablesNeeded
  rw [hkernel] at h ⊢
  exact card_missing_update _ hne ha ⟨hdir, by omega, by omega⟩ h

/-- A page without a table needs one. -/
theorem Vmm.tablesNeeded_ne_zero {v : Vmm} {a : U32} {lo hi : Nat} (hdir : v.kernelPageDir ≠ 0)
    (ha : v.tableOf v.kernelPageDir a = 0) (hlo : lo ≤ a.toNat) (hhi : a.toNat < hi) :
    v.tablesNeeded lo hi ≠ 0 := by
  have hregion := pagedirIndex_val a
  exact Finset.card_ne_zero_of_mem (Finset.mem_filter.mpr
    ⟨Finset.mem_univ (pagedirIndex a), ha, hdir, by omega, by omega⟩)

namespace Kernel

open Heap (NewBlock IsSpare OffTables spare)

variable {k k₁ : Kernel} {bs : List Block} {L : List U32} {c : Block} {p ret size i : U32}
  {lo hi n : Nat}

/-- A page table in a block from the free list. -/
theorem kmallocAWith_of_bestfit {best : U32} (sbrk : Kernel → U32 → Option (Kernel × U32))
    (hheap : k.heap.heapStart ≠ 0) (hbest : k.heap.bestfit 8192 = some best) (hne : best ≠ 0) :
    k.kmallocAWith sbrk sizeofPageTable =
      some ({ k with heap := (k.heap.mallocBest best 8208).1 }, tableIn best) := by
  have hround : roundedSize (sizeofPageTable + 4096) = 8192 := by decide
  have hblock : blockSize (sizeofPageTable + 4096) = 8208 := by decide
  unfold kmallocAWith kmallocIntWith mallocWith
  rw [if_pos hheap, if_pos rfl, if_neg (by decide), hround, hblock, hbest, Option.bind_some,
    if_pos hne]
  rfl

/-- A page loop that makes room for a new block at `ret`, to which the block `c` is moved. -/
structure MakesRoom (k k₁ : Kernel) (bs : List Block) (L : List U32) (c : Block)
    (p ret size : U32) (lo hi : Nat) : Prop where
  layout : k₁.heap.Layout bs L
  mem : c ∈ bs
  data : ∀ x ∈ bytes p c.real, k₁.heap.mem x = k.heap.mem x
  block : NewBlock k₁.heap bs L c p ret size
  bounds : k₁.heap.bounds = k.heap.bounds
  needed : k₁.vmm.tablesNeeded lo hi ≤ spare bs
  off : k₁.vmm.tablesNeeded lo hi ≠ 0 →
    k.heap.kheapEnabled = true ∧ k.heap.heapStart ≠ 0 ∧ OffTables bs L c p

/-- The best fit for a page table is handed out whole, when there is one that is. -/
theorem exists_spare (hl : k.heap.Layout bs L) (hspare : spare bs ≠ 0) :
    ∃ b ∈ bs, k.heap.bestfit 8192 = some b.addr ∧ b.addr ≠ 0 ∧ IsSpare b := by
  obtain ⟨d, hd, hdspare⟩ := List.countP_pos_iff.mp (Nat.pos_of_ne_zero hspare)
  obtain ⟨hf, hlo, hhi⟩ := of_decide_eq_true hdspare
  have hreal : (getRealSize 8192).toNat = 8192 := by decide
  obtain ⟨best, hbest, -⟩ := hl.freeList.bestfit_spec 8192
  have hne : best ≠ 0 := fun hc => by
    have hsmall := (hl.bestfit_eq_zero_iff hbest).mp hc d hd hf
    omega
  obtain ⟨b, hb, rfl, hbf, hfit, hmin⟩ := hl.bestfit_spec hbest hne
  rw [hreal] at hfit hmin
  exact ⟨b, hb, hbest, hne, hbf, hfit, (hmin d hd hf hlo).trans_lt hhi⟩

/-- A block that is taken whole, for a page table that was missing. -/
theorem MakesRoom.take {pre post : List Block} {b : Block} {v : Vmm}
    (h : MakesRoom k k₁ (pre ++ b :: post) L c p ret size lo hi) (halloc : c.free = false)
    (hb : IsSpare b) (hmade : v.tablesNeeded lo hi + 1 = k₁.vmm.tablesNeeded lo hi) :
    MakesRoom k ⟨v, (k₁.heap.mallocBest b.addr 8208).1⟩ (pre ++ Heap.taken b :: post)
      (L.erase b.addr) c p ret size lo hi := by
  obtain ⟨henabled, hstart, hoff⟩ := h.off (by omega)
  have ⟨hf, h8192, h8216⟩ := hb
  have hround : roundedSize 8192 = 8192 := by decide
  have hblock : blockSize 8192 = 8208 := by decide
  obtain ⟨hl₂, -, hmem, hends⟩ := h.layout.taken_whole hf
    (show (roundedSize 8192).toNat ≤ b.real by rw [hround]; exact h8192)
    (by rw [hround]; exact h8216)
  rw [hblock] at hl₂ hmem hends
  refine ⟨hl₂, ?_, fun x hx => ?_, h.block.taken h.layout h.mem hmem hends,
    (Heap.bounds_mallocBest _ _ _).trans h.bounds, ?_, fun _ => ⟨henabled, hstart, hoff.taken⟩⟩
  · have hc := h.mem
    simp only [List.mem_append, List.mem_cons] at hc ⊢
    refine hc.imp_right (Or.imp_left fun he => ?_)
    rw [he, hf] at halloc
    cases halloc
  · obtain ⟨hlinks, hspan⟩ := hoff x hx
    have hbm : b ∈ pre ++ b :: post := by simp
    refine (hmem ?_).trans (h.data x hx)
    rw [Set.mem_compl_iff, Set.mem_union, not_or]
    exact ⟨fun ht => hspan b hbm hb (Block.tags_subset_span (h.layout.stop_le hbm) ht), hlinks⟩
  · have hone : spare (pre ++ Heap.taken b :: post) + 1 = spare (pre ++ b :: post) :=
      Heap.spare_taken hb
    have hneeded := h.needed
    dsimp only
    omega

/-- **One page.** -/
theorem MakesRoom.step (h : MakesRoom k k₁ bs L c p ret size lo hi) (halloc : c.free = false)
    (hlo : lo ≤ i.toNat) (hhi : i.toNat < hi) (n : Nat) : ∃ k₂ bs₂ L₂,
      k₁.allocatePage (fun k sz => k.kmallocAWith (ksbrk n) sz) k₁.vmm.kernelPageDir i 0 true true
        = some k₂ ∧ MakesRoom k k₂ bs₂ L₂ c p ret size lo hi := by
  unfold allocatePage
  by_cases hdir : k₁.vmm.kernelPageDir = 0
  · exact ⟨k₁, bs, L, if_pos hdir, h⟩
  rw [if_neg hdir]
  by_cases ht : k₁.vmm.tableOf k₁.vmm.kernelPageDir i = 0
  · have hneeded := Vmm.tablesNeeded_ne_zero hdir ht hlo hhi
    obtain ⟨henabled, hstart, -⟩ := h.off hneeded
    obtain ⟨hb1, -, -, -, hb5⟩ := Heap.bounds_eq_iff.mp h.bounds
    -- the table comes from the free list
    have hspare := h.needed
    obtain ⟨b, hb, hbest, hne, hbspare⟩ := exists_spare h.layout (by omega)
    obtain ⟨pre, post, rfl⟩ := List.append_of_mem hb
    have htable : tableIn b.addr ≠ 0 := by
      have hstop := h.layout.stop_le hb
      have h8192 := hbspare.2.1
      unfold Block.stop Block.start at hstop
      exact tableIn_ne_zero_of_lt (by omega)
    rw [if_pos ht, newTable_of_enabled (hb5.trans henabled),
      kmallocAWith_of_bestfit _ (fun hc => hstart (hb1.symm.trans hc)) hbest hne, Option.map_some]
    refine ⟨_, _, _, rfl, h.take halloc hbspare ?_⟩
    refine Vmm.tablesNeeded_of_update htable hdir ht hlo hhi ?_ ?_
    · rw [Vmm.kernelPageDir_fillEntry, Vmm.kernelPageDir_installTable]
    · rw [Vmm.dirs_fillEntry, Vmm.kernelPageDir_fillEntry, Vmm.kernelPageDir_installTable,
        Vmm.refTables_installTable]
  · have hneeded := Vmm.tablesNeeded_of_dirs (Vmm.dirs_fillEntry k₁.vmm
      (k₁.vmm.tableOf k₁.vmm.kernelPageDir i) 0 (pagetblIndex i) true true)
      (Vmm.kernelPageDir_fillEntry ..) lo hi
    rw [if_neg ht]
    exact ⟨_, bs, L, rfl, h.layout, h.mem, h.data, h.block, h.bounds, hneeded.trans_le h.needed,
      fun hc => h.off fun h0 => hc (hneeded.trans h0)⟩

/-! ## Moving the break -/

end Kernel

end PiggyOS
