import Mathlib.Control.Monad.Writer
import PiggyOS.Infra.Memory

/-!
# Computations with the reads they make

A traced computation gives its value and the list of the reads it made, in their order. What every
read is to satisfy is taken apart along the computation: a sequence satisfies it when its parts do.

* `Traced.all_bind_iff` — a read is made by the first part or by the second one
* `Mem.byte`, `Mem.half`, `Mem.word` — the reads of memory
-/

namespace PiggyOS.Infra

/-- A read of `size` bytes. -/
structure ReadAt where
  addr : U32
  size : Nat

/-- The bytes are among the `len` bytes of the buffer. -/
def ReadAt.Inside (buffer : U32) (len : Nat) (r : ReadAt) : Prop :=
  ∀ x : U32, (x - r.addr).toNat < r.size → (x - buffer).toNat < len

/-- A computation that logs its reads. -/
abbrev Traced (α : Type) := Writer (List ReadAt) α

namespace Traced

variable {α β : Type} {P : ReadAt → Prop}

def val (t : Traced α) : α := t.run.1

def reads (t : Traced α) : List ReadAt := t.run.2

/-- Every read of the computation is as `P` says. -/
def All (P : ReadAt → Prop) (t : Traced α) : Prop := ∀ r ∈ t.reads, P r

@[simp] theorem val_pure (a : α) : val (pure a) = a := rfl

@[simp] theorem val_bind (t : Traced α) (f : α → Traced β) : val (t >>= f) = val (f t.val) := rfl

@[simp] theorem val_ite (c : Prop) [Decidable c] (t u : Traced α) :
    val (if c then t else u) = if c then t.val else u.val := apply_ite val c t u

@[simp] theorem all_pure (a : α) : All P (pure a) := fun _ h => absurd h List.not_mem_nil

/-- A sequence of two computations. -/
theorem all_bind_iff (t : Traced α) (f : α → Traced β) :
    All P (t >>= f) ↔ All P t ∧ All P (f t.val) :=
  List.forall_mem_append

theorem all_ite_iff (c : Prop) [Decidable c] (t u : Traced α) :
    All P (if c then t else u) ↔ (c → All P t) ∧ (¬ c → All P u) := by
  split
  · next h => exact ⟨fun ht => ⟨fun _ => ht, fun hn => absurd h hn⟩, fun ht => ht.1 h⟩
  · next h => exact ⟨fun hu => ⟨fun hc => absurd hc h, fun _ => hu⟩, fun hu => hu.2 h⟩

end Traced

/-- A read whose bytes are used as the value `v`. -/
def readAt {α : Type} (a : U32) (size : Nat) (v : α) : Traced α := WriterT.mk (v, [⟨a, size⟩])

section

variable {α : Type} {P : ReadAt → Prop} {a : U32} {n : Nat} {v : α}

@[simp] theorem val_readAt : (readAt a n v).val = v := rfl

@[simp] theorem all_readAt : (readAt a n v).All P ↔ P ⟨a, n⟩ := List.forall_mem_singleton

end

namespace Mem

def byte (m : Mem) (a : U32) : Traced (BitVec 8) := readAt a 1 (m a)

def half (m : Mem) (a : U32) : Traced (BitVec 16) := readAt a 2 (m.read16 a)

def word (m : Mem) (a : U32) : Traced U32 := readAt a 4 (m.read32 a)

variable {m : Mem} {a : U32} {P : ReadAt → Prop}

@[simp] theorem val_byte : (m.byte a).val = m a := rfl

@[simp] theorem val_half : (m.half a).val = m.read16 a := rfl

@[simp] theorem val_word : (m.word a).val = m.read32 a := rfl

@[simp] theorem all_byte : (m.byte a).All P ↔ P ⟨a, 1⟩ := all_readAt

@[simp] theorem all_half : (m.half a).All P ↔ P ⟨a, 2⟩ := all_readAt

@[simp] theorem all_word : (m.word a).All P ↔ P ⟨a, 4⟩ := all_readAt

end Mem

/-! ## Where a read lies -/

section

variable {buffer a k : U32} {len n : Nat}

theorem ReadAt.inside_iff (hn : 0 < n) (hlen : len < 2 ^ 32) :
    (ReadAt.mk a n).Inside buffer len ↔ (a - buffer).toNat + n ≤ len := by
  obtain ⟨l, hl⟩ : ∃ l : U32, l.toNat = len :=
    ⟨BitVec.ofNat 32 len, by rw [BitVec.toNat_ofNat, Nat.mod_eq_of_lt hlen]⟩
  constructor
  · intro h
    have hfirst := h a (by rwa [BitVec.sub_self])
    by_contra hout
    -- the first byte behind the buffer is read too
    have hbehind := h (buffer + l) (show (buffer + l - a).toNat < n by bv_omega)
    bv_omega
  · intro h x hx
    have hx : (x - a).toNat < n := hx
    bv_omega

theorem ReadAt.inside_of_size_zero (addr : U32) : (ReadAt.mk addr 0).Inside buffer len :=
  fun _ hx => absurd hx (Nat.not_lt_zero _)

/-- A read at an offset from the start of the buffer. -/
theorem inside_offset (hn : 0 < n) (hlen : len < 2 ^ 32) :
    (ReadAt.mk (buffer + k) n).Inside buffer len ↔ k.toNat + n ≤ len := by
  rw [ReadAt.inside_iff hn hlen, BitVec.add_comm, BitVec.add_sub_cancel]

/-- A field of a record that lies in the buffer. -/
theorem inside_field {l : Nat} (hlen : len ≤ 2 ^ 30) (hl : l ≤ 2 ^ 30) (hk : k.toNat + n ≤ l)
    (ha : (a - buffer).toNat + l ≤ len) : (ReadAt.mk (a + k) n).Inside buffer len := by
  intro x hx
  simp only at hx
  bv_omega

end

end PiggyOS.Infra
