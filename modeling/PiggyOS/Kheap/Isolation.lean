import PiggyOS.Kheap.Break
import PiggyOS.Kheap.Handed

/-!
# Isolation of the allocations

A client of the heap calls `malloc`, `free` and `realloc`, the latter two with pointers it
holds. It counts on the bytes it was given: they are its own, they lie in the heap, and the
allocator keeps none of its own words in them (`Isolated`).

The block of a request of `n` bytes takes `n` rounded up to 16, plus 16 bytes, from the break.
Its pointer is 48 bytes behind the start of the block. So the last bytes of the request lie
behind the break, already after the first call.

* `outside_of_first_malloc` — the first request is not inside the heap, whatever its size
* `isolated_iff` — the allocations are isolated in exactly the runs that request nothing
-/

namespace PiggyOS

open Infra

namespace Kernel

/-! ## Clients of the heap -/

/-- The kernel, and the pointers handed out and not given back, with the sizes asked for. -/
structure Session where
  kernel : Kernel
  live : List (U32 × U32)

inductive HeapOp
  | malloc (size : U32)
  | free (ptr : U32)
  | realloc (ptr size : U32)
  deriving DecidableEq, Repr

/-- NULL is not an allocation. -/
def hold (ptr size : U32) (live : List (U32 × U32)) : List (U32 × U32) :=
  if ptr = 0 then live else (ptr, size) :: live

inductive Session.Step : Session → HeapOp → Session → Prop
  | malloc {k k' : Kernel} {live : List (U32 × U32)} {n : Nat} {size : U32} {r : Handed} :
      k.malloc n size = some (k', r) →
      Step ⟨k, live⟩ (.malloc size) ⟨k', hold r.ptr size live⟩
  | free {k : Kernel} {live : List (U32 × U32)} {ptr old : U32} :
      (ptr, old) ∈ live → Step ⟨k, live⟩ (.free ptr) ⟨k.free ptr, live.erase (ptr, old)⟩
  | realloc {k k' : Kernel} {live : List (U32 × U32)} {n : Nat} {ptr old size : U32} {r : Handed} :
      (ptr, old) ∈ live → k.realloc n ptr size = some (k', r) →
      Step ⟨k, live⟩ (.realloc ptr size) ⟨k', hold r.ptr size (live.erase (ptr, old))⟩

/-- Address `a` is one of the `n` bytes from `p` on. -/
def InRange (p n : U32) (a : Nat) : Prop := p.toNat ≤ a ∧ a < p.toNat + n.toNat

/-- The words the allocator keeps for the block `b`: `size`, `prev`, `next` and the trailing
size. -/
def blockWords (h : Heap) (b : U32) : List U32 :=
  [b, b + 4, b + 8, wordsAfter (wordsAfter b sizeofBlock) (getRealSize (h.size b))]

/-- The live allocations do not meet, lie in the heap, and hold no word of the allocator. -/
structure Session.Isolated (s : Session) : Prop where
  disjoint : s.live.Pairwise fun x y => ∀ a, ¬ (InRange x.1 x.2 a ∧ InRange y.1 y.2 a)
  inside : ∀ x ∈ s.live, s.kernel.heap.heapStart.toNat ≤ x.1.toNat ∧
    x.1.toNat + x.2.toNat ≤ s.kernel.heap.heapCurr.toNat
  clear : ∀ x ∈ s.live, ∀ b ∈ s.kernel.heap.blocks, ∀ w ∈ blockWords s.kernel.heap b,
    ∀ i < 4, ¬ InRange x.1 x.2 (w + BitVec.ofNat 32 i).toNat

theorem isolated_nil (k : Kernel) : Session.Isolated ⟨k, []⟩ := by
  refine ⟨List.Pairwise.nil, ?_, ?_⟩
  · intro x hx
    cases hx
  · intro x hx
    cases hx

/-! ## The first request -/

/-- What `ksbrk` makes of the first request: it fails, or the break is at most the size of the
block above the address returned. -/
theorem ksbrk_kheapInit {k₀ k' : Kernel} {n : Nat} {size r : U32}
    (h : ksbrk n k₀.kheapInit size = some (k', r)) :
    k'.heap.heapStart = kheapStart ∧ (r = 0 ∨ (0xC0400000 ≤ r.toNat ∧ r.toNat ≤ 0xD0000000 ∧
      (k'.heap.heapCurr.toNat ≤ r.toNat + size.toNat ∨ size.toInt < 0))) := by
  have hok := breakOk_kheapInit k₀
  have hcurr : k₀.kheapInit.heap.heapCurr.toNat = 0xC0400000 := rfl
  cases n with
  | zero => simp [ksbrk] at h
  | succ n =>
    have hcall := h
    rw [ksbrk] at h
    rcases ksbrkWith_cases h with ⟨-, rfl, rfl⟩ | ⟨-, -, rfl, rfl⟩ | ⟨-, -, -, rfl, rfl⟩ |
      ⟨hpos, hlt, hle, -⟩ | ⟨hneg, hshrink⟩
    · exact ⟨rfl, Or.inr ⟨by omega, by omega, Or.inl (Nat.le_add_right _ _)⟩⟩
    · refine ⟨rfl, Or.inr ⟨by omega, by omega, Or.inl ?_⟩⟩
      exact (BitVec.toNat_add ..).trans_le (Nat.mod_le _ _)
    · exact ⟨rfl, Or.inl rfl⟩
    · obtain ⟨hnb, hmax⟩ := hok.toNat_newBoundary hpos hlt hle
      obtain ⟨hg, hres⟩ := ksbrk_grown (n + 1) hok hpos (by omega) hcall
      have hend := hg.ok.end_le
      have hcurr' := hg.ok.curr_le
      refine ⟨hg.ok.start, hres.imp_right fun hr => ?_⟩
      obtain ⟨hr1, hr2⟩ := hr
      exact ⟨by omega, by omega, Or.inl (Nat.le_of_eq hr2)⟩
    · obtain ⟨v, e, hs, -⟩ := ksbrkShrink_spec size hok.toLimits (fun _ _ => True) trivial
        fun _ _ _ _ _ _ => trivial
      rw [hs] at hshrink
      cases hshrink
      exact ⟨rfl, Or.inr ⟨by omega, by omega, Or.inr hneg⟩⟩

/-- **The first request does not lie in the heap.** -/
theorem outside_of_first_malloc {k₀ k' : Kernel} {n : Nat} {size : U32} {r : Handed}
    (hempty : k₀.heap.freelist = 0) (hs : size ≠ 0)
    (h : k₀.kheapInit.malloc n size = some (k', r)) :
    r.ptr ≠ 0 ∧ ¬ (k'.heap.heapStart.toNat ≤ r.ptr.toNat ∧
      r.ptr.toNat + size.toNat ≤ k'.heap.heapCurr.toNat) := by
  have hbest : k₀.kheapInit.heap.bestfit (roundedSize size) = some 0 :=
    Heap.bestfit_of_empty hempty _
  rcases mallocWith_cases h with ⟨h0, -, -⟩ | ⟨-, best, hb, hne, -, -⟩ |
    ⟨-, -, k₁, ret, hbrk, rfl, rfl⟩
  · exact absurd h0 hs
  · rw [hbest] at hb
    exact absurd (Option.some.inj hb).symm hne
  · obtain ⟨hstart, -, hcurr, -, -⟩ :=
      Heap.bounds_eq_iff.mp (Heap.bounds_mallocTail k₁.heap ret (blockSize size))
    obtain ⟨hstart₁, hret⟩ := ksbrk_kheapInit hbrk
    dsimp only
    rw [hstart, hcurr, hstart₁, kheapStart_toNat]
    show ret + 48 ≠ 0 ∧ ¬ (0xC0400000 ≤ (ret + 48).toNat ∧
      (ret + 48).toNat + size.toNat ≤ k₁.heap.heapCurr.toNat)
    have hsize := blockSize_toNat_le size
    rcases hret with rfl | ⟨hlo, hhi, hbound⟩
    · -- out of memory: the block is put at address 0
      exact ⟨by decide, fun hc => absurd hc.1 (by decide)⟩
    · have hptr : (ret + 48).toNat = ret.toNat + 48 :=
        BitVec.toNat_add_of_lt (by simp; omega)
      refine ⟨fun hc => by rw [hc] at hptr; simp at hptr, fun hc => ?_⟩
      rw [hptr] at hc
      rcases hbound with hbound | hneg
      · omega
      · -- a block of 2 GB or more is a negative size to `ksbrk`
        have := BitVec.toInt_neg_iff.mp hneg
        have := k₁.heap.heapCurr.isLt
        omega

/-! ## Runs -/

/-- `malloc(0)` does nothing. -/
theorem step_malloc_zero {s t : Session} (h : Session.Step s (.malloc 0) t) : t = s := by
  cases h with
  | malloc hm =>
    rw [malloc, mallocWith, if_pos rfl] at hm
    cases hm
    rfl

/-- From the start a client can only call `malloc`, and with anything but 0 isolation is lost. -/
theorem step_start {k₀ : Kernel} (hempty : k₀.heap.freelist = 0) {op : HeapOp} {s : Session}
    (h : Session.Step ⟨k₀.kheapInit, []⟩ op s) (hiso : s.Isolated) : op = .malloc 0 := by
  cases h with
  | @malloc _ k' _ n size r hm =>
    by_contra hop
    have hs : size ≠ 0 := fun hc => hop (by rw [hc])
    obtain ⟨hne, hout⟩ := outside_of_first_malloc hempty hs hm
    refine hout (hiso.inside (r.ptr, size) ?_)
    rw [hold, if_neg hne]
    exact List.mem_cons_self
  | free hmem => cases hmem
  | realloc hmem => cases hmem

theorem run_malloc_zero {s t : Session} {ops : List HeapOp} (h : Run Session.Step s ops t)
    (hops : ∀ op ∈ ops, op = .malloc 0) : t = s := by
  induction h with
  | nil => rfl
  | @snoc t u ops op hrun hstep ih =>
    rw [hops op (List.mem_append_right _ List.mem_cons_self)] at hstep
    rw [step_malloc_zero hstep]
    exact ih fun op' hmem => hops op' (List.mem_append_left _ hmem)

/--
**Isolation.** From `kheap_init` on, the allocations are isolated in every state of a run
exactly when the run requests nothing: each of its calls is `malloc(0)`.
-/
theorem isolated_iff {k₀ : Kernel} (hempty : k₀.heap.freelist = 0) {ops : List HeapOp}
    {s : Session} (h : Run Session.Step ⟨k₀.kheapInit, []⟩ ops s) :
    (∀ u, Passed Session.Step ⟨k₀.kheapInit, []⟩ ops s u → u.Isolated) ↔
      ∀ op ∈ ops, op = .malloc 0 := by
  constructor
  · intro hiso
    induction h with
    | nil => exact fun _ hop => nomatch hop
    | @snoc t u ops op hrun hstep ih =>
      -- up to here nothing was requested, so the client is still at the start
      have hops := ih fun v hv => hiso v (hv.snoc hstep)
      have hu := hiso u (Run.snoc hrun hstep).passed_end
      rw [run_malloc_zero hrun hops] at hstep
      have hop := step_start hempty hstep hu
      intro op' hmem
      rcases List.mem_append.mp hmem with hmem | hmem
      · exact hops op' hmem
      · rw [List.mem_singleton.mp hmem, hop]
  · rintro hops u ⟨before, after, rfl, hbefore, -⟩
    rw [run_malloc_zero hbefore fun op hop => hops op (List.mem_append_left after hop)]
    exact isolated_nil _

theorem isolated_iff_malloc_zero :
    Run Session.Step ⟨bare.kheapInit, []⟩ ([] ++ [.malloc 0]) ⟨bare.kheapInit, []⟩ ∧
      ∀ u, Passed Session.Step ⟨bare.kheapInit, []⟩ ([] ++ [.malloc 0]) ⟨bare.kheapInit, []⟩ u →
        u.Isolated := by
  have hstep : Session.Step ⟨bare.kheapInit, []⟩ (.malloc 0) ⟨bare.kheapInit, []⟩ :=
    @Session.Step.malloc _ _ _ 0 _ .null rfl
  have hrun := Run.snoc (.nil _) hstep
  exact ⟨hrun, (isolated_iff rfl hrun).mpr fun op hop => by simpa using hop⟩

/-- The 16 bytes of the first `malloc(16)` start at `heap_start + 48` and the break is at
`heap_start + 32`. -/
theorem not_isolated_of_malloc : ∃ s, Run Session.Step ⟨bare.kheapInit, []⟩ ([] ++ [.malloc 16]) s ∧
    ¬ s.Isolated := by
  have hm : bare.kheapInit.malloc 1 16 = some _ :=
    malloc_of_room (by decide) rfl (by decide) (by decide)
  have hstep := @Session.Step.malloc _ _ [] _ _ _ hm
  exact ⟨_, .snoc (.nil _) hstep, fun hiso => absurd (step_start rfl hstep hiso) (by decide)⟩

end Kernel

end PiggyOS
