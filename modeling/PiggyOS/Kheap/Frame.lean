import PiggyOS.Kheap.Alloc

/-!
# What leaves the break alone

Only `ksbrk` and `kheap_init` touch the variables that describe the extent of the heap
(`Heap.bounds`). Everything else the allocator does, on its free list and on the size words of
its blocks, leaves them as they are.
-/

namespace PiggyOS

open Infra

namespace Heap

variable (h : Heap)

/-- The variables `ksbrk` works on. -/
def bounds : U32 × U32 × U32 × U32 × Bool :=
  (h.heapStart, h.heapEnd, h.heapCurr, h.heapMax, h.kheapEnabled)

theorem bounds_eq_iff {h h' : Heap} : h'.bounds = h.bounds ↔
    h'.heapStart = h.heapStart ∧ h'.heapEnd = h.heapEnd ∧ h'.heapCurr = h.heapCurr ∧
      h'.heapMax = h.heapMax ∧ h'.kheapEnabled = h.kheapEnabled := by
  simp [bounds]

@[simp] theorem bounds_store (a v : U32) : (h.store a v).bounds = h.bounds := rfl

@[simp] theorem bounds_setSize (n v : U32) : (h.setSize n v).bounds = h.bounds := rfl

@[simp] theorem bounds_setPrev (n v : U32) : (h.setPrev n v).bounds = h.bounds := rfl

@[simp] theorem bounds_setNext (n v : U32) : (h.setNext n v).bounds = h.bounds := rfl

@[simp] theorem bounds_setTrailer (n : U32) : (h.setTrailer n).bounds = h.bounds := rfl

@[simp] theorem bounds_setFree (n : U32) (x : Bool) : (h.setFree n x).bounds = h.bounds := by
  unfold setFree
  split <;> rfl

@[simp] theorem bounds_setTail (t : U32) : ({ h with tail := t } : Heap).bounds = h.bounds := rfl

@[simp] theorem bounds_setBlocks (bs : List U32) :
    ({ h with blocks := bs } : Heap).bounds = h.bounds := rfl

theorem bounds_ite {c : Prop} [Decidable c] {a b : Heap} {x : U32 × U32 × U32 × U32 × Bool}
    (ha : a.bounds = x) (hb : b.bounds = x) : (if c then a else b).bounds = x := by
  split
  · exact ha
  · exact hb

@[simp] theorem bounds_removeNodeFromFreelist (x : U32) :
    (h.removeNodeFromFreelist x).bounds = h.bounds := by
  unfold removeNodeFromFreelist
  refine bounds_ite rfl (bounds_ite ?_ ?_)
  · exact bounds_ite (by simp) (by simp)
  · exact bounds_ite rfl rfl

@[simp] theorem bounds_addNodeToFreelist (x : U32) :
    (h.addNodeToFreelist x).bounds = h.bounds := by
  unfold addNodeToFreelist
  refine bounds_ite rfl ?_
  show (if _ then _ else _ : Heap).bounds = h.bounds
  exact bounds_ite (by simp) (by simp)

theorem bounds_splitRest (base ptr rest saveNextBlock : U32) :
    (h.splitRest base ptr rest saveNextBlock).bounds = h.bounds := by
  unfold splitRest
  refine bounds_ite ?_ ?_
  · rw [bounds_setBlocks, bounds_addNodeToFreelist]
    exact bounds_ite (by simp) (by simp)
  · rw [bounds_setBlocks, bounds_addNodeToFreelist]
    exact bounds_ite (by simp) (by simp)

theorem bounds_mallocBest (best blockSize : U32) :
    (h.mallocBest best blockSize).1.bounds = h.bounds := by
  unfold mallocBest
  rw [bounds_removeNodeFromFreelist]
  refine bounds_ite (by simp) ?_
  rw [bounds_splitRest]
  simp

theorem bounds_mallocTail (ret blockSize : U32) :
    (h.mallocTail ret blockSize).1.bounds = h.bounds := by
  unfold mallocTail
  rw [bounds_setBlocks, bounds_store, bounds_setFree, bounds_setSize, bounds_setTail]
  exact bounds_ite rfl rfl

theorem bounds_free (ptr : U32) : (h.free ptr).bounds = h.bounds := by
  unfold free
  refine bounds_ite ?_ (bounds_ite ?_ (bounds_ite ?_ (by simp)))
  · rw [bounds_setBlocks, bounds_removeNodeFromFreelist]
    exact bounds_ite (by simp) (by simp)
  · rw [bounds_setBlocks]
    exact bounds_ite (by simp) (by simp)
  · rw [bounds_setBlocks, bounds_addNodeToFreelist, bounds_removeNodeFromFreelist]
    exact bounds_ite (by simp) (by simp)

theorem bounds_reallocShrink (ptr size : U32) : (h.reallocShrink ptr size).bounds = h.bounds := by
  unfold reallocShrink
  refine bounds_ite rfl (bounds_ite ?_ ?_)
  · rw [bounds_setBlocks, bounds_addNodeToFreelist]
    exact bounds_ite (by simp) (by simp)
  · rw [bounds_setBlocks, bounds_addNodeToFreelist]
    simp

theorem bounds_reallocNext (nptr nextBlock : U32) :
    (h.reallocNext nptr nextBlock).1.bounds = h.bounds := by
  unfold reallocNext
  rw [bounds_setBlocks]
  exact bounds_ite (by simp) (by simp)

theorem bounds_reallocPrev (ptr nptr prevBlock : U32) :
    (h.reallocPrev ptr nptr prevBlock).1.bounds = h.bounds := by
  unfold reallocPrev
  rw [bounds_setBlocks]
  show (if _ then _ else _ : Heap).bounds = h.bounds
  exact bounds_ite (by simp) (by simp)

end Heap

end PiggyOS
