import PiggyOS.Kheap.Alloc

/-!
# Pointers and headers

`malloc` and `realloc` turn a header into the pointer they hand out at five places, `free` and
`realloc` turn a pointer back into a header at two. The scales of the conversions differ:

| place                           | pointer           |
|---------------------------------|-------------------|
| `malloc`, both paths            | header + 48       |
| `realloc`, grown into a neighbour | header + 12     |
| `realloc`, block kept           | the pointer given |
| `free`, `realloc`               | header = pointer - 144 |

* `headerOf_handed_iff` — the header comes back exactly when `realloc` keeps the block
-/

namespace PiggyOS

open Infra

/-- The pointer of `malloc` is not the one `free` expects. -/
theorem headerOf_wordsAfter_ne (b : U32) : headerOf (wordsAfter b sizeofBlock) ≠ b := by
  intro h
  have h : b + 48 - 144 = b := h
  bv_omega

/-- Nor is that of a `realloc` which has grown the block. -/
theorem headerOf_blocksAfter_ne (b : U32) : headerOf (blocksAfter b 1) ≠ b := by
  intro h
  have h : b + 12 - 144 = b := h
  bv_omega

namespace Kernel

/-- The calls that hand out pointers. -/
inductive Call
  | malloc (size : U32)
  | realloc (ptr size : U32)
  deriving DecidableEq, Repr

def Call.run (n : Nat) (k : Kernel) : Call → Option (Kernel × Handed)
  | .malloc size => k.malloc n size
  | .realloc ptr size => k.realloc n ptr size

/-- The calls that keep the block and give the pointer back as it is. -/
def Call.Keeps (k : Kernel) (c : Call) : Prop :=
  ∃ ptr size, c = .realloc ptr size ∧ ptr ≠ 0 ∧ size ≠ 0 ∧ size ≤ k.heap.size (headerOf ptr)

variable {n : Nat} {k k' : Kernel} {r : Handed}

/-- `malloc` hands out NULL, or the address 48 bytes behind a header. -/
theorem mallocWith_handed {ksbrk : Kernel → U32 → Option (Kernel × U32)} {size : U32}
    (h : k.mallocWith ksbrk size = some (k', r)) :
    r = .null ∨ r.ptr = wordsAfter r.block sizeofBlock := by
  rcases mallocWith_cases h with ⟨-, -, rfl⟩ | ⟨-, best, -, -, -, rfl⟩ | ⟨-, -, k₁, ret, -, -, rfl⟩
  · exact Or.inl rfl
  · exact Or.inr rfl
  · exact Or.inr rfl

/-- What `realloc` can have handed out. -/
theorem reallocWith_handed {ksbrk : Kernel → U32 → Option (Kernel × U32)} {ptr size : U32}
    (h : k.reallocWith ksbrk ptr size = some (k', r)) :
    (ptr ≠ 0 ∧ size ≠ 0 ∧ size ≤ k.heap.size (headerOf ptr) ∧ r = ⟨ptr, headerOf ptr⟩) ∨
      ((ptr = 0 ∨ size = 0 ∨ k.heap.size (headerOf ptr) < size) ∧
        (r = .null ∨ r.ptr = wordsAfter r.block sizeofBlock ∨ r.ptr = blocksAfter r.block 1)) := by
  unfold reallocWith at h
  split at h
  · next hp => exact Or.inr ⟨Or.inl hp, (mallocWith_handed h).imp_right Or.inl⟩
  · next hp =>
    split at h
    · next hs =>
      cases h
      exact Or.inr ⟨Or.inr (Or.inl hs), Or.inl rfl⟩
    · next hs =>
      dsimp only at h
      split at h
      · next heq =>
        cases h
        exact Or.inl ⟨hp, hs, by rw [heq]; exact BitVec.le_refl _, rfl⟩
      · split at h
        · next hlt =>
          refine Or.inr ⟨Or.inr (Or.inr hlt), ?_⟩
          split at h
          · cases h
            exact Or.inr (Or.inr rfl)
          · split at h
            · cases h
              exact Or.inr (Or.inr rfl)
            · obtain ⟨⟨k₁, r₁⟩, hm, he⟩ := Option.map_eq_some_iff.mp h
              cases he
              exact (mallocWith_handed hm).imp_right Or.inl
        · next hlt =>
          cases h
          exact Or.inl ⟨hp, hs, BitVec.not_lt.mp hlt, rfl⟩

/-! ## `malloc` at the end of the heap -/

/-- Without free blocks and with room below the end of the heap, `malloc` puts a block at the
break. -/
theorem malloc_of_room {size : U32} (hs : size ≠ 0) (hempty : k.heap.freelist = 0)
    (hpos : 0 < (blockSize size).toInt)
    (hroom : k.heap.heapCurr + blockSize size ≤ k.heap.heapEnd) :
    k.malloc (n + 1) size = some
      ({ k with
          heap := (Heap.mallocTail
            { k.heap with heapCurr := k.heap.heapCurr + blockSize size } k.heap.heapCurr
            (blockSize size)).1 },
        ⟨wordsAfter k.heap.heapCurr sizeofBlock, k.heap.heapCurr⟩) := by
  have hb : blockSize size ≠ 0 := fun hc => by rw [hc] at hpos; exact absurd hpos (by decide)
  unfold malloc mallocWith
  rw [if_neg hs, Heap.bestfit_of_empty hempty, Option.bind_some, if_neg (by decide), ksbrk,
    ksbrkWith, if_neg hb, if_pos hpos]
  dsimp only
  rw [if_pos hroom]
  rfl

/-! ## The convention -/

/--
**Pointer and header.** In every state, the header that a later `free` or `realloc` computes from
a pointer handed out is the block it was handed out for exactly when the call was a `realloc`
that keeps its block.
-/
theorem headerOf_handed_iff {c : Call} (h : c.run n k = some (k', r)) (hr : r.ptr ≠ 0) :
    headerOf r.ptr = r.block ↔ c.Keeps k := by
  have hnull : r ≠ .null := fun hc => hr (by rw [hc]; rfl)
  cases c with
  | malloc size =>
    have hptr := (mallocWith_handed h).resolve_left hnull
    rw [hptr]
    refine ⟨fun hc => absurd hc (headerOf_wordsAfter_ne _), ?_⟩
    rintro ⟨ptr, size, hc, -⟩
    cases hc
  | realloc ptr size =>
    rcases reallocWith_handed h with ⟨hp, hs, hle, rfl⟩ | ⟨hcond, hres⟩
    · exact ⟨fun _ => ⟨ptr, size, rfl, hp, hs, hle⟩, fun _ => rfl⟩
    · have hne : headerOf r.ptr ≠ r.block := by
        rcases hres with hc | hc | hc
        · exact absurd hc hnull
        · rw [hc]
          exact headerOf_wordsAfter_ne _
        · rw [hc]
          exact headerOf_blocksAfter_ne _
      refine ⟨fun hc => absurd hc hne, ?_⟩
      rintro ⟨ptr, size, hc, hp, hs, hle⟩
      cases hc
      rcases hcond with h1 | h1 | h1
      · exact absurd h1 hp
      · exact absurd h1 hs
      · exact absurd h1 (BitVec.not_lt.mpr hle)

/-- A heap with 16 in the size word at its start. -/
def sizedHeap : Kernel := ⟨bare.vmm, bare.kheapInit.heap.setSize kheapStart 16⟩

theorem headerOf_handed_iff_realloc :
    (Call.realloc 0xC0400090 16).run 0 sizedHeap = some (sizedHeap, ⟨0xC0400090, kheapStart⟩) ∧
      headerOf 0xC0400090 = kheapStart := by
  have hsize : sizedHeap.heap.size (headerOf 0xC0400090) = 16 := Mem.read32_write32 _ _ _
  have hrun : (Call.realloc 0xC0400090 16).run 0 sizedHeap =
      some (sizedHeap, ⟨0xC0400090, kheapStart⟩) := by
    rw [Call.run, realloc, reallocWith, if_neg (by decide), if_neg (by decide)]
    dsimp only
    rw [if_pos hsize]
    rfl
  exact ⟨hrun, (headerOf_handed_iff hrun (by decide)).mpr
    ⟨_, _, rfl, by decide, by decide, BitVec.le_of_eq hsize.symm⟩⟩

/-- The pointer of the first `malloc(16)` is 48 bytes behind its block; `free` goes back 144. -/
theorem headerOf_malloc_ne : ∃ k' r, (Call.malloc 16).run 1 bare.kheapInit = some (k', r) ∧
    r.ptr ≠ 0 ∧ headerOf r.ptr ≠ r.block :=
  ⟨_, _, malloc_of_room (by decide) rfl (by decide) (by decide), by decide, by decide⟩

end Kernel

end PiggyOS
