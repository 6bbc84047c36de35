import PiggyOS.Kheap.Resize
import PiggyOS.Kheap.Starved

/-!
# When memory runs out

`ksbrk` returns NULL when the break would pass `heap_max`. `malloc` does not look at what it
returns: it sets up the new block at address 0, makes it the tail and hands out the pointer behind
its header. `realloc` copies to that pointer and frees the old block.

* `malloc_of_sbrk_null` — the pointer is 48
* `refused_iff` — so a request is refused only when it is for 0 bytes
-/

namespace PiggyOS

open Infra

namespace Kernel

variable {k k' k₁ : Kernel} {n : Nat} {p size : U32}

/-- The call returns NULL and leaves `head`, `tail`, `freelist` and the memory alone. -/
def Refused (k : Kernel) (result : Option (Kernel × Handed)) : Prop :=
  ∃ k' r, result = some (k', r) ∧ r.ptr = 0 ∧ k'.heap.head = k.heap.head ∧
    k'.heap.tail = k.heap.tail ∧ k'.heap.freelist = k.heap.freelist ∧ k'.heap.mem = k.heap.mem

/-- The block of `p` keeps its size word, which marks it as allocated, and its bytes. -/
def StillAllocated (k : Kernel) (p : U32) (k' : Kernel) : Prop :=
  k'.heap.size (headerOf p) = k.heap.size (headerOf p) ∧
    Set.EqOn k'.heap.mem k.heap.mem (bytes p (getRealSize (k.heap.size (headerOf p))).toNat)

/-- `realloc(p, size)` ends in a `malloc(size)`. -/
def EndsInMalloc (k : Kernel) (p size : U32) : Prop :=
  p = 0 ∨ size ≠ 0 ∧ k.heap.size (headerOf p) < size ∧ ¬ k.GrowsNext (headerOf p) size ∧
    ¬ k.GrowsPrev (headerOf p) size

/-- **A block at address 0.** -/
theorem malloc_of_sbrk_null (hsize : size ≠ 0)
    (hbest : k.heap.bestfit (roundedSize size) = some 0)
    (hnull : ksbrk n k (blockSize size) = some (k₁, 0)) :
    k.malloc n size =
      some (⟨k₁.vmm, (k₁.heap.mallocTail 0 (blockSize size)).1⟩, ⟨48, 0⟩) := by
  unfold malloc mallocWith
  rw [if_neg hsize, hbest, Option.bind_some, if_neg (by simp), hnull]
  rfl

theorem malloc_zero (n : Nat) (k : Kernel) : k.malloc n 0 = some (k, .null) := by
  unfold malloc mallocWith
  rw [if_pos rfl]

theorem realloc_null (n : Nat) (k : Kernel) (size : U32) :
    k.realloc n 0 size = k.malloc n size := by
  unfold realloc reallocWith malloc
  rw [if_pos rfl]

/-- `realloc` returns what `malloc` has returned. -/
theorem EndsInMalloc.exists_realloc {r : Handed} (he : k.EndsInMalloc p size)
    (hm : k.malloc n size = some (k₁, r)) : ∃ k', k.realloc n p size = some (k', r) := by
  by_cases hp : p = 0
  · exact ⟨k₁, by rw [hp, realloc_null, hm]⟩
  · obtain ⟨hsize, hlt, hnext, hprev⟩ := he.resolve_left hp
    have hmove := reallocWith_move (ksbrk n) hp hsize rfl rfl hlt hnext hprev
    exact ⟨_, hmove.trans (congrArg (Option.map _) hm)⟩

/-- **Out of memory is reported only for requests of 0 bytes.** -/
theorem refused_iff (hbest : k.heap.bestfit (roundedSize size) = some 0)
    (hnull : ksbrk n k (blockSize size) = some (k₁, 0)) :
    (k.Refused (k.malloc n size) ↔ size = 0) ∧ ∀ p, k.EndsInMalloc p size →
      ((∃ k' r, k.realloc n p size = some (k', r) ∧ r.ptr = 0 ∧
        (p ≠ 0 → k.StillAllocated p k')) ↔ size = 0) := by
  constructor
  · constructor
    · rintro ⟨k', r, hm, hr, -⟩
      by_contra hsize
      obtain ⟨-, rfl⟩ :=
        Prod.mk.inj (Option.some.inj ((malloc_of_sbrk_null hsize hbest hnull).symm.trans hm))
      exact absurd hr (by simp)
    · rintro rfl
      exact ⟨k, .null, malloc_zero n k, rfl, rfl, rfl, rfl, rfl⟩
  · intro p he
    constructor
    · rintro ⟨k', r, hm, hr, -⟩
      by_contra hsize
      obtain ⟨k₂, hk₂⟩ := he.exists_realloc (malloc_of_sbrk_null hsize hbest hnull)
      obtain ⟨-, rfl⟩ := Prod.mk.inj (Option.some.inj (hk₂.symm.trans hm))
      exact absurd hr (by simp)
    · rintro rfl
      obtain rfl : p = 0 := he.resolve_right fun hc => hc.1 rfl
      exact ⟨k, .null, (realloc_null n k 0).trans (malloc_zero n k), rfl,
        fun hc => absurd rfl hc⟩

/-- The break is at the end of the last page. -/
def exhausted : Kernel :=
  ⟨bare.vmm, { bare.kheapInit.heap with heapEnd := 0xD0000000, heapCurr := 0xD0000000 }⟩

theorem refused_exhausted : exhausted.Refused (exhausted.malloc 1 0) :=
  (refused_iff rfl (ksbrk_fail (by decide) (by decide) (by decide))).1.mpr rfl

/-- The pointer is 48 and there is a block header at address 0. -/
theorem not_refused_exhausted :
    exhausted.heap.bestfit (roundedSize 16) = some 0 ∧
      ksbrk 1 exhausted (blockSize 16) = some (exhausted, 0) ∧
      ∃ k' r, exhausted.malloc 1 16 = some (k', r) ∧ r.ptr = 48 ∧
        k'.heap.mem ≠ exhausted.heap.mem := by
  have hnull : ksbrk 1 exhausted (blockSize 16) = some (exhausted, 0) :=
    ksbrk_fail (by decide) (by decide) (by decide)
  refine ⟨rfl, hnull, _, _, malloc_of_sbrk_null (by simp) rfl hnull, rfl, fun hc => ?_⟩
  have hsize := Heap.size_mallocTail exhausted.heap 0 16
  unfold Heap.size at hsize
  rw [hc] at hsize
  exact absurd hsize (by decide)

end Kernel

end PiggyOS
