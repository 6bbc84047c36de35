import PiggyOS.Infra.Loop
import PiggyOS.System

/-!
# Heap blocks (`kheap.c`)

A block starts with `struct Block { size; prev; next }`, 12 bytes, and ends with a copy of its
size word. Bit 0 of the size word marks a free block; free blocks are linked through
`prev`/`next` from `freelist`.

Every address the allocator computes goes through C pointer arithmetic, so the scale is part
of the model: `wordsAfter` steps in `uint32_t`s, `blocksAfter` in `struct Block`s.
The heap memory is flat and an access never faults.
-/

namespace PiggyOS

open Infra

/-- `(uint32_t*) p + n` -/
def wordsAfter (p n : U32) : U32 := p + 4 * n

/-- `(uint32_t*) p - n` -/
def wordsBefore (p n : U32) : U32 := p - 4 * n

/-- `(struct Block*) p + n` -/
def blocksAfter (p n : U32) : U32 := p + 12 * n

/-- `(struct Block*) p - n` -/
def blocksBefore (p n : U32) : U32 := p - 12 * n

/-- `sizeof(struct Block)` -/
def sizeofBlock : U32 := 12

/-- `OVERHEAD`: the header and the trailing size. -/
def overhead : U32 := sizeofBlock + 4

/-- The globals of `kheap.c` and the memory its pointers point into. -/
structure Heap where
  mem : Mem
  head : U32
  tail : U32
  freelist : U32
  heapStart : U32
  heapEnd : U32
  heapCurr : U32
  heapMax : U32
  kheapEnabled : Bool
  placementAddress : U32
  /-- History, not a variable of the source: the headers of the blocks set up so far, in the
  order of creation, without those merged into a neighbour. -/
  blocks : List U32

/-- `getRealSize` -/
def getRealSize (size : U32) : U32 := (size >>> 1) <<< 1

namespace Heap

variable (h : Heap)

/-! ## Fields of a block -/

/-- `n->size` -/
def size (n : U32) : U32 := h.mem.read32 n

/-- `n->prev` -/
def prev (n : U32) : U32 := h.mem.read32 (n + 4)

/-- `n->next` -/
def next (n : U32) : U32 := h.mem.read32 (n + 8)

/-- `*a = v` -/
def store (a v : U32) : Heap := { h with mem := h.mem.write32 a v }

/-- `n->size = v` -/
def setSize (n v : U32) : Heap := h.store n v

/-- `n->prev = v` -/
def setPrev (n v : U32) : Heap := h.store (n + 4) v

/-- `n->next = v` -/
def setNext (n v : U32) : Heap := h.store (n + 8) v

/-- `setFree(&(n->size), x)` -/
def setFree (n : U32) (x : Bool) : Heap :=
  if x then h.setSize n (h.size n ||| 1) else h.setSize n (h.size n &&& 0xFFFFFFFE)

/-- `isFree` -/
def isFree (n : U32) : Bool := n ≠ 0 && h.size n &&& 1 ≠ 0

/-- `doesItFit` -/
def doesItFit (n size : U32) : Bool := h.size n ≥ getRealSize size && h.isFree n

/-! ## The free list -/

def removeNodeFromFreelist (x : U32) : Heap :=
  if x = 0 then h
  else if h.prev x ≠ 0 then
    let h := h.setNext (h.prev x) (h.next x)
    if h.next x ≠ 0 then h.setPrev (h.next x) (h.prev x) else h
  else
    let h := { h with freelist := h.next x }
    if h.freelist ≠ 0 then h.setPrev h.freelist 0 else h

def addNodeToFreelist (x : U32) : Heap :=
  if x = 0 then h
  else
    let h := h.setNext x h.freelist
    let h := if h.freelist ≠ 0 then h.setPrev h.freelist x else h
    let h := { h with freelist := x }
    h.setPrev h.freelist 0

/-- The number of addresses: a walk along pointers that has not ended after that many nodes
never ends. -/
def addressCount : Nat := 2 ^ 32

/-- `bestfit`; the first component is `curr`, the second `currBest`. `none` is a walk that
never ends, `some 0` the answer NULL. -/
def bestfit (size : U32) : Option U32 :=
  (loop (fun s : U32 × U32 => s.1 ≠ 0)
    (fun s => some (h.next s.1,
      if h.doesItFit s.1 size && (s.2 = 0 || h.size s.1 < h.size s.2) then s.1 else s.2))
    (addressCount + 1) (h.freelist, 0)).map (·.2)

theorem bestfit_of_empty {h : Heap} (hempty : h.freelist = 0) (size : U32) :
    h.bestfit size = some 0 := by
  unfold bestfit
  rw [loop, if_neg (by simp [hempty])]
  rfl

/-! ## Neighbours -/

/-- `getPrevBlock` -/
def getPrevBlock (n : U32) : U32 :=
  if n = h.head then 0
  else
    let prevSize := getRealSize (h.mem.read32 (wordsBefore n 4))
    wordsBefore (wordsBefore n overhead) prevSize

/-- `getNextBlock` -/
def getNextBlock (n : U32) : U32 :=
  if n = h.tail then 0
  else wordsAfter (wordsAfter n overhead) (getRealSize (h.size n))

/-- Writes the size word of the block `n` once more, `sizeof(struct Block)` words and the
real size after the header: `trailingSize = (uint32_t*) n + 12 + getRealSize(n->size)`. -/
def setTrailer (n : U32) : Heap :=
  h.store (wordsAfter (wordsAfter n sizeofBlock) (getRealSize (h.size n))) (h.size n)

end Heap

end PiggyOS
