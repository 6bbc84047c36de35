import Mathlib.Algebra.Group.Int.Defs
import Mathlib.Logic.Function.Basic
import PiggyOS.Infra.Memory
import PiggyOS.Infra.Run

/-!
# The random device (`rand.c`)

`rand` is a multiply-with-carry generator: it multiplies an entry of the table by 18782, adds the
carry, and divides by the base `2 ^ 32 - 1`. The quotient is the next carry, and what goes into the
table is the remainder, counted down from `2 ^ 32 - 2`. The division is an addition of the two
halves of a 64-bit word, with one more for the wrap.
-/

namespace PiggyOS

open Infra

/-- `PHI` -/
def phi : U32 := 0x9e3779b9

/-- The static variables of `rand.c`, the index in `rand` included. -/
structure Rand where
  q : Nat → U32
  c : U32
  i : U32

/-- The `for` loop of `init_rand` from `i` on, with `n` rounds to go. -/
def initRandFrom : Nat → Nat → (Nat → U32) → Nat → U32
  | 0, _, q => q
  | n + 1, i, q =>
    initRandFrom n (i + 1)
      (Function.update q i (q (i - 3) ^^^ q (i - 2) ^^^ phi ^^^ BitVec.ofNat 32 i))

namespace Rand

variable (s : Rand)

/-- The static variables at boot. -/
def boot : Rand := ⟨fun _ => 0, 362436, 4095⟩

/-- `init_rand` -/
def initRand (x : U32) : Rand :=
  let q := Function.update s.q 0 x
  let q := Function.update q 1 (x + phi)
  let q := Function.update q 2 (x + phi + phi)
  { s with q := initRandFrom 4093 3 q }

/-- The index in the table that the next call of `rand` goes to. -/
def slot : Nat := ((s.i + 1) &&& 4095).toNat

/-- `t` in `rand`. -/
def product : BitVec 64 := 18782 * (s.q s.slot).setWidth 64 + s.c.setWidth 64

/-- `c` and `x` in `rand`, where they are returned. -/
def reduced : U32 × U32 :=
  let c := (s.product >>> 32).setWidth 32
  let x := (s.product + c.setWidth 64).setWidth 32
  if x < c then (c + 1, x + 1) else (c, x)

/-- `rand` -/
def rand : Rand × U32 :=
  let r : U32 := 0xfffffffe
  let out := r - s.reduced.2
  ({ q := Function.update s.q s.slot out, c := s.reduced.1, i := (s.i + 1) &&& 4095 }, out)

/-- `read_random`: what is stored to the buffer, with `n` bytes to go. -/
def readRandom : Nat → Rand → Rand × List (BitVec 8)
  | 0, s => (s, [])
  | n + 1, s =>
    let (t, bs) := readRandom n s.rand.1
    (t, s.rand.2.setWidth 8 :: bs)

end Rand

/-- The base of the generator. -/
def mwcBase : Nat := 2 ^ 32 - 1

/-- What a call of `rand` in the state `s` is to do, over the integers: `x` is the remainder. -/
structure MwcStep (s : Rand) (x : Nat) : Prop where
  in_table : s.slot < 4096
  no_overflow : s.product.toNat = 18782 * (s.q s.slot).toNat + s.c.toNat
  le_base : x ≤ mwcBase
  identity : 18782 * (s.q s.slot).toNat + s.c.toNat = s.rand.1.c.toNat * mwcBase + x
  output : (s.rand.2.toNat : Int) = (2 ^ 32 - 2 - x) % 2 ^ 32
  stored : s.rand.1.q = Function.update s.q s.slot s.rand.2
  carry_le : s.rand.1.c.toNat ≤ 18783

/-- What the generator is asked for. -/
inductive RandOp
  | initRand (x : U32)
  | rand

def RandStep (s : Rand) : RandOp → Rand → Prop
  | .initRand x, t => t = s.initRand x
  | .rand, t => t = s.rand.1

namespace Rand

variable {s t : Rand}

/-! ## One step -/

theorem slot_lt (s : Rand) : s.slot < 4096 := by
  have hand : s.slot = (s.i + 1).toNat &&& 4095 := BitVec.toNat_and ..
  rw [hand]
  exact Nat.lt_succ_of_le Nat.and_le_right

theorem toNat_product (hc : s.c.toNat ≤ 362436) :
    s.product.toNat = 18782 * (s.q s.slot).toNat + s.c.toNat := by
  have hq := (s.q s.slot).isLt
  unfold product
  rw [BitVec.toNat_add, BitVec.toNat_mul, BitVec.toNat_setWidth_of_le (by omega),
    BitVec.toNat_setWidth_of_le (by omega)]
  show ((18782 * _) % 2 ^ 64 + _) % 2 ^ 64 = _
  omega

/-- The two halves of the product are added, and the wrap counts for one more in both. -/
theorem reduced_spec (hc : s.c.toNat ≤ 362436) :
    s.product.toNat = s.reduced.1.toNat * mwcBase + s.reduced.2.toNat ∧
      s.reduced.1.toNat ≤ 18783 := by
  have hq := (s.q s.slot).isLt
  have ht := toNat_product hc
  -- the upper half of the product, and the sum of the halves
  obtain ⟨c, hcarry⟩ : ∃ c : U32, (s.product >>> 32).setWidth 32 = c := ⟨_, rfl⟩
  obtain ⟨x, hx⟩ : ∃ x : U32, (s.product + c.setWidth 64).setWidth 32 = x := ⟨_, rfl⟩
  have hcn : c.toNat = s.product.toNat / 2 ^ 32 := by
    rw [← hcarry, BitVec.toNat_setWidth, BitVec.toNat_ushiftRight, Nat.shiftRight_eq_div_pow]
    omega
  have hxn : x.toNat = (s.product.toNat + c.toNat) % 2 ^ 32 := by
    rw [← hx, BitVec.toNat_setWidth, BitVec.toNat_add, BitVec.toNat_setWidth_of_le (by omega)]
    omega
  unfold reduced mwcBase
  simp only [hcarry, hx]
  split
  · next hlt =>
    rw [BitVec.lt_def] at hlt
    have hc1 : (c + 1).toNat = c.toNat + 1 := by bv_omega
    have hx1 : (x + 1).toNat = x.toNat + 1 := by bv_omega
    dsimp only
    rw [hc1, hx1]
    omega
  · next hge =>
    rw [BitVec.lt_def] at hge
    dsimp only
    omega

/-- One step from a carry that is not too large. -/
theorem mwcStep (hc : s.c.toNat ≤ 362436) : MwcStep s s.reduced.2.toNat where
  in_table := s.slot_lt
  no_overflow := toNat_product hc
  le_base := by
    have hx := s.reduced.2.isLt
    unfold mwcBase
    omega
  identity := (toNat_product hc).symm.trans (reduced_spec hc).1
  output := by
    show ((0xfffffffe - s.reduced.2 : U32).toNat : Int) = _
    have hx := s.reduced.2.isLt
    bv_omega
  stored := rfl
  carry_le := (reduced_spec hc).2

/-! ## Runs -/

theorem c_initRand (x : U32) : (s.initRand x).c = s.c := by
  unfold initRand
  rfl

/-- No operation leaves a carry behind that is too large for the next step. -/
theorem carry_step {op : RandOp} (hc : s.c.toNat ≤ 362436) (h : RandStep s op t) :
    t.c.toNat ≤ 362436 := by
  cases op with
  | initRand x =>
    obtain rfl : t = s.initRand x := h
    rwa [c_initRand]
  | rand =>
    obtain rfl : t = s.rand.1 := h
    exact Nat.le_trans (reduced_spec hc).2 (by decide)

theorem carry_run {ops : List RandOp} (h : Run RandStep s ops t) (hc : s.c.toNat ≤ 362436) :
    t.c.toNat ≤ 362436 :=
  h.invariant (fun s => s.c.toNat ≤ 362436) (fun _ _ _ => carry_step) hc

/-- A read of `n` bytes is `n` steps of the generator. -/
theorem run_readRandom (n : Nat) (s : Rand) :
    Run RandStep s (List.replicate n .rand) (s.readRandom n).1 ∧
      (s.readRandom n).2.length = n := by
  induction n generalizing s with
  | zero => exact ⟨.nil s, rfl⟩
  | succ n ih =>
    obtain ⟨hrun, hlen⟩ := ih s.rand.1
    exact ⟨Run.append (.snoc (.nil s) rfl) hrun, congrArg Nat.succ hlen⟩

end Rand

/-- **The generator multiplies with carry**, in one step from any table and in every state of a run
from any seed. -/
theorem rand_multiplies_with_carry :
    (∀ s : Rand, s.c.toNat ≤ 362436 → ∃ x, MwcStep s x) ∧
      ∀ (seed : U32) (ops : List RandOp) (t u : Rand),
        Passed RandStep (Rand.boot.initRand seed) ops t u →
          u.c.toNat ≤ 362436 ∧ ∃ x, MwcStep u x := by
  refine ⟨fun s hc => ⟨_, s.mwcStep hc⟩, fun seed ops t u h => ?_⟩
  obtain ⟨before, after, -, hrun, -⟩ := h
  have hc := Rand.carry_run hrun (Nat.le_refl _)
  exact ⟨hc, _, u.mwcStep hc⟩

/-- Two calls after the seed 7. -/
theorem rand_multiplies_with_carry_seven :
    (∃ x, MwcStep Rand.boot x) ∧ ∃ x, MwcStep (Rand.boot.initRand 7).rand.1.rand.1 x :=
  ⟨rand_multiplies_with_carry.1 Rand.boot (by decide),
    (rand_multiplies_with_carry.2 7 [.rand, .rand] _ _
      (Run.passed_end (.snoc (.snoc (.nil _) rfl) rfl))).2⟩

end PiggyOS
