import PiggyOS.Infra.Bytes
import PiggyOS.Vmm.Basic

/-!
# The heap allocator (`kheap.c`, and `ksbrk` of `vmm.c`)

`malloc` takes memory from the free list or moves the break with `ksbrk`; `ksbrk` maps pages
with `allocate_page`; `allocate_page` may need a page table, which `kmalloc_a` takes from
`malloc`. The four functions call each other, so each is written over the one it calls, and
`Kernel.ksbrk` closes the circle. Its first argument bounds the depth of nested calls and
restarts; `none` stands for a call that has not come back within the bound.
-/

namespace PiggyOS

open Infra

/-- A pointer handed out, and (not part of the source's result) the header of the block it
was handed out for. -/
structure Handed where
  ptr : U32
  block : U32
  deriving DecidableEq, Repr

/-- Nothing handed out. -/
def Handed.null : Handed := ⟨0, 0⟩

/-- The header `free` and `realloc` compute from a pointer:
`(struct Block*) ptr - sizeof(struct Block)`. -/
def headerOf (ptr : U32) : U32 := blocksBefore ptr sizeofBlock

/-- `((size + 15) / 16) * 16` -/
def roundedSize (size : U32) : U32 := ((size + 15) / 16) * 16

/-- `roundedSize + OVERHEAD` -/
def blockSize (size : U32) : U32 := roundedSize size + overhead

theorem roundedSize_toNat (size : U32) :
    (roundedSize size).toNat = (size.toNat + 15) % 2 ^ 32 / 16 * 16 := by
  have h : (roundedSize size).toNat = (size.toNat + 15) % 2 ^ 32 / 16 * 16 % 2 ^ 32 := by
    unfold roundedSize
    rw [BitVec.toNat_mul, BitVec.toNat_udiv, BitVec.toNat_add]
    rfl
  omega

/-- A block takes at most 31 bytes more than the request. -/
theorem blockSize_toNat_le (size : U32) : (blockSize size).toNat ≤ size.toNat + 31 := by
  have hround : (roundedSize size).toNat ≤ size.toNat + 15 := by
    rw [roundedSize_toNat]
    omega
  have hadd : (blockSize size).toNat = ((roundedSize size).toNat + 16) % 2 ^ 32 :=
    BitVec.toNat_add ..
  omega

namespace Heap

variable (h : Heap)

/-! ## The free-list path of `malloc` -/

/-- Splits off what is left of `base` after `blockSize` bytes, at `ptr`. -/
def splitRest (base ptr rest saveNextBlock : U32) : Heap :=
  if base ≠ h.tail && h.isFree saveNextBlock then
    -- the block behind is free too and becomes part of the rest
    let h := h.removeNodeFromFreelist saveNextBlock
    let h := h.setSize ptr (rest - overhead + getRealSize (h.size saveNextBlock) + overhead)
    let h := h.setFree ptr true
    let h := h.setTrailer ptr
    let h := if saveNextBlock = h.tail then { h with tail := ptr } else h
    { h.addNodeToFreelist ptr with blocks := h.blocks.erase saveNextBlock ++ [ptr] }
  else
    let h := h.setSize ptr (rest - overhead)
    let h := h.setFree ptr true
    let h := h.setTrailer ptr
    let h := if base = h.tail then { h with tail := ptr } else h
    { h.addNodeToFreelist ptr with blocks := h.blocks ++ [ptr] }

/-- `malloc` when `bestfit` has found the block `best`. -/
def mallocBest (best blockSize : U32) : Heap × Handed :=
  let saveNextBlock := h.getNextBlock best
  let chunkSize := getRealSize (h.size best) + overhead
  let rest := chunkSize - blockSize
  -- what would be too small for a block of its own is handed out as well
  let whichSize := if rest < 8 + overhead then chunkSize else blockSize
  let h := h.setSize best (whichSize - overhead)
  let h := h.setFree best false
  let trailingSize := wordsBefore (wordsAfter best whichSize) 4
  let h := h.store trailingSize (h.size best)
  let ptr := wordsAfter trailingSize 1
  let h := if rest < 8 + overhead then h else h.splitRest best ptr rest saveNextBlock
  (h.removeNodeFromFreelist best, ⟨wordsAfter best sizeofBlock, best⟩)

/-- `malloc` after `ksbrk` has returned `ret`, NULL included: the new block becomes the tail. -/
def mallocTail (ret blockSize : U32) : Heap × Handed :=
  let h := if h.head = 0 then { h with head := ret } else h
  let h := { h with tail := ret }
  let h := h.setSize ret (blockSize - overhead)
  let h := h.setFree ret false
  let h := h.store (wordsBefore (wordsAfter ret blockSize) 4) (h.size ret)
  ({ h with blocks := h.blocks ++ [ret] }, ⟨wordsAfter ret sizeofBlock, ret⟩)

/-! ## `free` -/

def free (ptr : U32) : Heap :=
  let curr := headerOf ptr
  let prev := h.getPrevBlock curr
  let next := h.getNextBlock curr
  if h.isFree prev && h.isFree next then
    -- `prev` stays on the free list and takes in the other two
    let h := h.setSize prev (getRealSize (h.size prev) + 2 * overhead + getRealSize (h.size curr)
      + getRealSize (h.size next))
    let h := h.setFree prev true
    let h := h.setTrailer prev
    let h := if h.tail = next then { h with tail := prev } else h
    { h.removeNodeFromFreelist next with blocks := (h.blocks.erase curr).erase next }
  else if h.isFree prev then
    let h := h.setSize prev (getRealSize (h.size prev) + overhead + getRealSize (h.size curr))
    let h := h.setFree prev true
    let h := h.setTrailer prev
    let h := if h.tail = curr then { h with tail := prev } else h
    { h with blocks := h.blocks.erase curr }
  else if h.isFree next then
    let h := h.setSize curr (getRealSize (h.size curr) + overhead + getRealSize (h.size next))
    let h := h.setFree curr true
    let h := h.setTrailer curr
    let h := if h.tail = next then { h with tail := curr } else h
    let h := h.removeNodeFromFreelist next
    { h.addNodeToFreelist curr with blocks := h.blocks.erase next }
  else
    let h := h.setFree curr true
    let h := h.setTrailer curr
    h.addNodeToFreelist curr

/-! ## `realloc` without `malloc` -/

/-- The shrinking half of `realloc`: keeps the block in place and splits off the rest. -/
def reallocShrink (ptr size : U32) : Heap :=
  let nptr := headerOf ptr
  let nextBlock := h.getNextBlock nptr
  let rest := getRealSize (h.size nptr) + overhead - blockSize size
  if rest < 8 + overhead then h
  else
    let h := h.setSize nptr (blockSize size - overhead)
    let h := h.setFree nptr false
    let trailingSize := wordsAfter (wordsAfter nptr sizeofBlock) (getRealSize (h.size nptr))
    let h := h.setTrailer nptr
    -- `sizeof(uint32_t)` blocks behind the trailing size
    let splitBlock := blocksAfter trailingSize 4
    if nextBlock ≠ 0 && h.isFree nextBlock then
      let h := h.setSize splitBlock (rest + getRealSize (h.size nextBlock))
      let h := h.setFree splitBlock true
      let h := h.setTrailer splitBlock
      let h := h.removeNodeFromFreelist nextBlock
      let h := if h.tail = nextBlock then { h with tail := splitBlock } else h
      { h.addNodeToFreelist splitBlock with blocks := h.blocks.erase nextBlock ++ [splitBlock] }
    else
      let h := h.setSize splitBlock (rest - overhead)
      let h := h.setFree splitBlock true
      let h := h.setTrailer splitBlock
      { h.addNodeToFreelist splitBlock with blocks := h.blocks ++ [splitBlock] }

/-- `realloc` growing into the free block behind. -/
def reallocNext (nptr nextBlock : U32) : Heap × Handed :=
  let h := h.removeNodeFromFreelist nextBlock
  let h := h.setSize nptr (getRealSize (h.size nptr) + overhead + getRealSize (h.size nextBlock))
  let h := h.setFree nptr false
  let h := h.setTrailer nptr
  let h := if h.tail = nextBlock then { h with tail := nptr } else h
  ({ h with blocks := h.blocks.erase nextBlock }, ⟨blocksAfter nptr 1, nptr⟩)

/-- `realloc` growing into the free block before. -/
def reallocPrev (ptr nptr prevBlock : U32) : Heap × Handed :=
  let originalSize := getRealSize (h.size nptr)
  let h := h.removeNodeFromFreelist prevBlock
  let h := h.setSize prevBlock (originalSize + overhead + getRealSize (h.size prevBlock))
  let h := h.setFree prevBlock false
  let h := h.setTrailer prevBlock
  let h := if h.tail = nptr then { h with tail := prevBlock } else h
  let h := { h with mem := h.mem.copy (blocksAfter prevBlock 1) ptr originalSize.toNat }
  ({ h with blocks := h.blocks.erase nptr }, ⟨blocksAfter prevBlock 1, prevBlock⟩)

end Heap

namespace Kernel

/-! ## The functions over `ksbrk` -/

section Sbrk

variable (ksbrk : Kernel → U32 → Option (Kernel × U32)) (k : Kernel)

/-- `malloc` -/
def mallocWith (size : U32) : Option (Kernel × Handed) :=
  if size = 0 then some (k, .null)
  else
    (k.heap.bestfit (roundedSize size)).bind fun best =>
      if best ≠ 0 then
        let (h, r) := k.heap.mallocBest best (blockSize size)
        some ({ k with heap := h }, r)
      else
        (ksbrk k (blockSize size)).map fun (k, ret) =>
          let (h, r) := k.heap.mallocTail ret (blockSize size)
          ({ k with heap := h }, r)

/-- What `malloc` can have done. -/
theorem mallocWith_cases {ksbrk : Kernel → U32 → Option (Kernel × U32)} {k k' : Kernel}
    {size : U32} {r : Handed} (h : k.mallocWith ksbrk size = some (k', r)) :
    (size = 0 ∧ k' = k ∧ r = .null) ∨
      (size ≠ 0 ∧ ∃ best, k.heap.bestfit (roundedSize size) = some best ∧ best ≠ 0 ∧
        k' = { k with heap := (k.heap.mallocBest best (blockSize size)).1 } ∧
        r = (k.heap.mallocBest best (blockSize size)).2) ∨
      (size ≠ 0 ∧ k.heap.bestfit (roundedSize size) = some 0 ∧
        ∃ k₁ ret, ksbrk k (blockSize size) = some (k₁, ret) ∧
          k' = { k₁ with heap := (k₁.heap.mallocTail ret (blockSize size)).1 } ∧
          r = (k₁.heap.mallocTail ret (blockSize size)).2) := by
  unfold mallocWith at h
  split at h
  · next hs =>
    cases h
    exact Or.inl ⟨hs, rfl, rfl⟩
  · next hs =>
    obtain ⟨best, hbest, h⟩ := Option.bind_eq_some_iff.mp h
    split at h
    · next hb =>
      cases h
      exact Or.inr (Or.inl ⟨hs, best, hbest, hb, rfl, rfl⟩)
    · next hb =>
      obtain ⟨⟨k₁, ret⟩, hk, he⟩ := Option.map_eq_some_iff.mp h
      cases he
      have hb0 : best = 0 := by simpa using hb
      rw [hb0] at hbest
      exact Or.inr (Or.inr ⟨hs, hbest, k₁, ret, hk, rfl, rfl⟩)

/-- `kmalloc_int(sz, align, 0)`; the caller does not ask for the physical address. -/
def kmallocIntWith (sz : U32) (align : Bool) : Option (Kernel × U32) :=
  if k.heap.heapStart ≠ 0 then
    -- the next page boundary, also for a pointer that is on one, or NULL
    (k.mallocWith ksbrk (if align then sz + 4096 else sz)).map fun (k, r) =>
      (k, if align then (r.ptr &&& 0xFFFFF000) + 0x1000 else r.ptr)
  else
    let placement :=
      if align && k.heap.placementAddress &&& 0xFFFFF000 ≠ 0 then
        (k.heap.placementAddress &&& 0xFFFFF000) + 0x1000
      else k.heap.placementAddress
    some ({ k with heap := { k.heap with placementAddress := placement + sz } }, placement)

/-- `kmalloc_a` -/
def kmallocAWith (sz : U32) : Option (Kernel × U32) := k.kmallocIntWith ksbrk sz true

/-- `kcalloc`: the bytes that `malloc` is asked for, cleared with `memset`. -/
def kcallocWith (num size : U32) : Option (Kernel × Handed) :=
  (k.mallocWith ksbrk (num * size)).map fun (k, r) =>
    ({ k with heap := { k.heap with mem := k.heap.mem.fill r.ptr 0 (num * size).toNat } }, r)

/-- What `kmalloc_a` can have done for a page table once there is a heap. -/
theorem kmallocAWith_cases {ksbrk : Kernel → U32 → Option (Kernel × U32)} {k k' : Kernel}
    {table : U32} (hheap : k.heap.heapStart ≠ 0)
    (h : k.kmallocAWith ksbrk sizeofPageTable = some (k', table)) :
    (∃ best, k.heap.bestfit 8192 = some best ∧ best ≠ 0 ∧
        k' = { k with heap := (k.heap.mallocBest best 8208).1 } ∧
        table = ((k.heap.mallocBest best 8208).2.ptr &&& 0xFFFFF000) + 0x1000) ∨
      (k.heap.bestfit 8192 = some 0 ∧ ∃ k₁ ret, ksbrk k 8208 = some (k₁, ret) ∧
        k' = { k₁ with heap := (k₁.heap.mallocTail ret 8208).1 } ∧
        table = ((k₁.heap.mallocTail ret 8208).2.ptr &&& 0xFFFFF000) + 0x1000) := by
  unfold kmallocAWith kmallocIntWith at h
  rw [if_pos hheap] at h
  obtain ⟨⟨k₁, r⟩, hm, he⟩ := Option.map_eq_some_iff.mp h
  cases he
  rcases mallocWith_cases hm with ⟨hs, -, -⟩ | ⟨-, best, hbest, hb, rfl, rfl⟩ |
    ⟨-, hbest, k₂, ret, hs, rfl, rfl⟩
  · exact absurd hs (by decide)
  · exact Or.inl ⟨best, hbest, hb, rfl, rfl⟩
  · exact Or.inr ⟨hbest, k₂, ret, hs, rfl, rfl⟩

/-- `realloc` -/
def reallocWith (ptr size : U32) : Option (Kernel × Handed) :=
  if ptr = 0 then k.mallocWith ksbrk size
  else if size = 0 then some ({ k with heap := k.heap.free ptr }, .null)
  else
    let nptr := headerOf ptr
    let nextBlock := k.heap.getNextBlock nptr
    let prevBlock := k.heap.getPrevBlock nptr
    if k.heap.size nptr = size then some (k, ⟨ptr, nptr⟩)
    else if k.heap.size nptr < size then
      if k.heap.tail ≠ nptr && k.heap.isFree nextBlock &&
          getRealSize (k.heap.size nptr) + overhead + getRealSize (k.heap.size nextBlock)
            ≥ roundedSize size then
        let (h, r) := k.heap.reallocNext nptr nextBlock
        some ({ k with heap := h }, r)
      else if k.heap.head ≠ nptr && k.heap.isFree prevBlock &&
          getRealSize (k.heap.size nptr) + overhead + getRealSize (k.heap.size prevBlock)
            ≥ roundedSize size then
        let (h, r) := k.heap.reallocPrev ptr nptr prevBlock
        some ({ k with heap := h }, r)
      else
        -- the size is read again after `malloc`, which may have written over it
        (k.mallocWith ksbrk size).map fun (k, r) =>
          let h := { k.heap with
            mem := k.heap.mem.copy r.ptr ptr (getRealSize (k.heap.size nptr)).toNat }
          ({ k with heap := h.free ptr }, r)
    else some ({ k with heap := k.heap.reallocShrink ptr size }, ⟨ptr, nptr⟩)

end Sbrk

/-! ## Moving the break -/

/-- `KHEAP_MIN_SIZE` -/
def kheapMinSize : U32 := 4 * mib

/-- `new_boundary` in the shrinking branch of `ksbrk`: `size` is negative there and is
subtracted from the break. -/
def shrinkBoundary (k : Kernel) (size : U32) : U32 :=
  if k.heap.heapCurr - size < k.heap.heapStart + kheapMinSize then k.heap.heapStart + kheapMinSize
  else k.heap.heapCurr - size

/-- The shrinking branch of `ksbrk`: unmaps the pages above the new boundary from the top. -/
def ksbrkShrink (k : Kernel) (size : U32) : Option (Kernel × U32) :=
  let newBoundary := k.shrinkBoundary size
  (loop (fun s : Kernel × U32 => s.2 > newBoundary)
    (fun s => some ({ s.1 with vmm := s.1.vmm.freePage s.1.vmm.kernelPageDir s.2 true },
      s.2 - pageSize))
    (pageCount + 1) (k, k.heap.heapEnd - pageSize)).map fun (k', runner) =>
    ({ k' with heap := { k'.heap with heapEnd := runner + pageSize, heapCurr := newBoundary } },
      k.heap.heapCurr)

/-- `ksbrk`, over the page-table source and what `goto restart_sbrk` leads to. -/
def ksbrkWith (kmallocA : TableSource) (restart : Kernel → U32 → Option (Kernel × U32))
    (k : Kernel) (size : U32) : Option (Kernel × U32) :=
  if size = 0 then some (k, k.heap.heapCurr)
  else if size.toInt > 0 then
    let newBoundary := k.heap.heapCurr + size
    if newBoundary ≤ k.heap.heapEnd then
      some ({ k with heap := { k.heap with heapCurr := newBoundary } }, k.heap.heapCurr)
    else if newBoundary > k.heap.heapMax then some (k, 0)
    else
      (k.allocatePages kmallocA true newBoundary k.heap.heapEnd).bind fun (k', runner) =>
        -- a page table has come from the heap meanwhile
        if k.heap.heapCurr ≠ k'.heap.heapCurr then restart k' size
        else
          some ({ k' with heap := { k'.heap with heapEnd := runner, heapCurr := newBoundary } },
            k.heap.heapCurr)
  else k.ksbrkShrink size

/-- What `ksbrk` can have done. -/
theorem ksbrkWith_cases {kmallocA : TableSource} {restart : Kernel → U32 → Option (Kernel × U32)}
    {k k' : Kernel} {size r : U32} (h : ksbrkWith kmallocA restart k size = some (k', r)) :
    (size = 0 ∧ k' = k ∧ r = k.heap.heapCurr) ∨
      (0 < size.toInt ∧ k.heap.heapCurr + size ≤ k.heap.heapEnd ∧ r = k.heap.heapCurr ∧
        k' = { k with heap := { k.heap with heapCurr := k.heap.heapCurr + size } }) ∨
      (0 < size.toInt ∧ k.heap.heapEnd < k.heap.heapCurr + size ∧
        k.heap.heapMax < k.heap.heapCurr + size ∧ k' = k ∧ r = 0) ∨
      (0 < size.toInt ∧ k.heap.heapEnd < k.heap.heapCurr + size ∧
        k.heap.heapCurr + size ≤ k.heap.heapMax ∧ ∃ k₁ runner,
          k.allocatePages kmallocA true (k.heap.heapCurr + size) k.heap.heapEnd
            = some (k₁, runner) ∧
          ((k.heap.heapCurr ≠ k₁.heap.heapCurr ∧ restart k₁ size = some (k', r)) ∨
            (k.heap.heapCurr = k₁.heap.heapCurr ∧ r = k.heap.heapCurr ∧
              k' = { k₁ with
                heap := { k₁.heap with
                  heapEnd := runner
                  heapCurr := k.heap.heapCurr + size } }))) ∨
      (size.toInt < 0 ∧ k.ksbrkShrink size = some (k', r)) := by
  unfold ksbrkWith at h
  split at h
  · next hs =>
    cases h
    exact Or.inl ⟨hs, rfl, rfl⟩
  · next hs =>
    split at h
    · next hpos =>
      refine Or.inr ?_
      dsimp only at h
      split at h
      · next hle =>
        cases h
        -- the pages are there already
        exact Or.inl ⟨hpos, hle, rfl, rfl⟩
      · next hle =>
        have hlt : k.heap.heapEnd < k.heap.heapCurr + size := BitVec.not_le.mp hle
        split at h
        · next hmax =>
          cases h
          -- the new break is above the range of the heap
          exact Or.inr (Or.inl ⟨hpos, hlt, hmax, rfl, rfl⟩)
        · next hmax =>
          refine Or.inr (Or.inr (Or.inl ⟨hpos, hlt, BitVec.not_lt.mp hmax, ?_⟩))
          obtain ⟨⟨k₁, runner⟩, hk, h⟩ := Option.bind_eq_some_iff.mp h
          refine ⟨k₁, runner, hk, ?_⟩
          split at h
          · next hne => exact Or.inl ⟨hne, h⟩
          · next hne =>
            cases h
            exact Or.inr ⟨by simpa using hne, rfl, rfl⟩
    · next hpos =>
      have hne : size.toInt ≠ 0 := fun hc => hs (BitVec.toInt_inj.mp (by simpa using hc))
      exact Or.inr (Or.inr (Or.inr (Or.inr ⟨by omega, h⟩)))

/-- `ksbrk`. The bound counts nested calls and restarts. -/
def ksbrk : Nat → Kernel → U32 → Option (Kernel × U32)
  | 0, _, _ => none
  | n + 1, k, size =>
    ksbrkWith (fun k sz => k.kmallocAWith (ksbrk n) sz) (ksbrk n) k size

/-- What a growing call can have done. Page tables and restarts are calls of the bound below. -/
theorem ksbrk_cases_of_pos {n : Nat} {k k' : Kernel} {size r : U32} (hpos : 0 < size.toInt)
    (h : ksbrk n k size = some (k', r)) :
    (k.heap.heapCurr + size ≤ k.heap.heapEnd ∧ r = k.heap.heapCurr ∧
        k' = { k with heap := { k.heap with heapCurr := k.heap.heapCurr + size } }) ∨
      (k.heap.heapEnd < k.heap.heapCurr + size ∧ k.heap.heapMax < k.heap.heapCurr + size ∧
        k' = k ∧ r = 0) ∨
      (k.heap.heapEnd < k.heap.heapCurr + size ∧ k.heap.heapCurr + size ≤ k.heap.heapMax ∧
        ∃ m k₁ runner, n = m + 1 ∧
          k.allocatePages (fun k sz => k.kmallocAWith (ksbrk m) sz) true
            (k.heap.heapCurr + size) k.heap.heapEnd = some (k₁, runner) ∧
          ((k.heap.heapCurr ≠ k₁.heap.heapCurr ∧ ksbrk m k₁ size = some (k', r)) ∨
            (k.heap.heapCurr = k₁.heap.heapCurr ∧ r = k.heap.heapCurr ∧
              k' = { k₁ with
                heap := { k₁.heap with
                  heapEnd := runner
                  heapCurr := k.heap.heapCurr + size } }))) := by
  cases n with
  | zero => simp [ksbrk] at h
  | succ m =>
    rw [ksbrk] at h
    rcases ksbrkWith_cases h with ⟨h0, -⟩ | ⟨-, hle, hr, hk⟩ | ⟨-, hlt, hmax, hk, hr⟩ |
      ⟨-, hlt, hmax, k₁, runner, hpages, hcase⟩ | ⟨hneg, -⟩
    · rw [h0] at hpos
      exact absurd hpos (by decide)
    · exact Or.inl ⟨hle, hr, hk⟩
    · exact Or.inr (Or.inl ⟨hlt, hmax, hk, hr⟩)
    · exact Or.inr (Or.inr ⟨hlt, hmax, m, k₁, runner, rfl, hpages, hcase⟩)
    · omega

/-- `malloc` -/
def malloc (n : Nat) (k : Kernel) (size : U32) : Option (Kernel × Handed) :=
  k.mallocWith (ksbrk n) size

/-- `realloc` -/
def realloc (n : Nat) (k : Kernel) (ptr size : U32) : Option (Kernel × Handed) :=
  k.reallocWith (ksbrk n) ptr size

/-- `kcalloc` -/
def kcalloc (n : Nat) (k : Kernel) (num size : U32) : Option (Kernel × Handed) :=
  k.kcallocWith (ksbrk n) num size

/-- `kmalloc_a` -/
def kmallocA (n : Nat) (k : Kernel) (sz : U32) : Option (Kernel × U32) :=
  k.kmallocAWith (ksbrk n) sz

/-- `free` -/
def free (k : Kernel) (ptr : U32) : Kernel := { k with heap := k.heap.free ptr }

/-! ## Start-up -/

/-- `KHEAP_START` -/
def kheapStart : U32 := kernBase + 0x00400000

/-- `KHEAP_MAX_ADDRESS` -/
def kheapMaxAddress : U32 := kernBase + 0x0FFFFFFF

/-- `kheap_init(KHEAP_START, KHEAP_START + KHEAP_INITIAL_SIZE, KHEAP_MAX_ADDRESS)`, the call of
`kernel_main`. -/
def kheapInit (k : Kernel) : Kernel :=
  { k with
    heap := { k.heap with
      heapStart := kheapStart
      heapEnd := kheapStart + kheapInitialSize
      heapMax := kheapMaxAddress
      heapCurr := kheapStart
      kheapEnabled := true } }

end Kernel

end PiggyOS
