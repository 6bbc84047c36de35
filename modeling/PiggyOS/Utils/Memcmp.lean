import Mathlib.Data.Nat.Find
import PiggyOS.Utils.String

/-!
# `memcmp` (`string.c`)

The buffers are compared a word at a time, but `len` counts the words: `len` rounds go through
`4 * len` bytes. Words are compared as numbers, so that among the four bytes of a word the last
difference decides and not the first one.
-/

namespace PiggyOS

open Infra

/-- The loop of `memcmp`, with `len` rounds to go. -/
def memcmpFrom (m : Mem) (p q : U32) : Nat → Int
  | 0 => 0
  | len + 1 =>
    if m.read32 p ≠ m.read32 q then (if m.read32 q < m.read32 p then 1 else -1)
    else memcmpFrom m (p + 4) (q + 4) len

/-- `memcmp` -/
def memcmp (m : Mem) (s1 s2 : U32) (len : BitVec 32) : Int :=
  if s1 = s2 then 0 else memcmpFrom m s1 s2 len.toInt.toNat

/-- The buffers differ at `d` for the first time. -/
def DiffersFirst (m : Mem) (s1 s2 : U32) (d : Nat) : Prop :=
  charsAt m s1 d ≠ charsAt m s2 d ∧ ∀ i < d, charsAt m s1 i = charsAt m s2 i

/-- `e` is the last difference in the word of the byte `d`. -/
def DiffersLast (m : Mem) (s1 s2 : U32) (d e : Nat) : Prop :=
  e / 4 = d / 4 ∧ charsAt m s1 e ≠ charsAt m s2 e ∧
    ∀ i, i / 4 = d / 4 → e < i → charsAt m s1 i = charsAt m s2 i

/-- The last difference in the word of the byte `d` points the same way as the byte. -/
def WordAgrees (m : Mem) (s1 s2 : U32) (d : Nat) : Prop :=
  ∃ e, DiffersLast m s1 s2 d e ∧
    (charsAt m s1 e < charsAt m s2 e ↔ charsAt m s1 d < charsAt m s2 d)

/-- `m'` has the first `n` bytes of both buffers. -/
def SameStart (m m' : Mem) (s1 s2 : U32) (n : Nat) : Prop :=
  ∀ i < n, charsAt m' s1 i = charsAt m s1 i ∧ charsAt m' s2 i = charsAt m s2 i

/-- What `memcmp` is to answer: how the first `len` bytes compare, and nothing else. -/
structure ComparesBytes (m : Mem) (s1 s2 : U32) (len : BitVec 32) : Prop where
  zero_iff : memcmp m s1 s2 len = 0 ↔
    ∀ i < len.toInt.toNat, charsAt m s1 i = charsAt m s2 i
  neg_iff : ∀ d < len.toInt.toNat, DiffersFirst m s1 s2 d →
    (memcmp m s1 s2 len < 0 ↔ charsAt m s1 d < charsAt m s2 d)
  pos_iff : ∀ d < len.toInt.toNat, DiffersFirst m s1 s2 d →
    (0 < memcmp m s1 s2 len ↔ charsAt m s2 d < charsAt m s1 d)
  ignores : ∀ m', SameStart m m' s1 s2 len.toInt.toNat →
    memcmp m' s1 s2 len = memcmp m s1 s2 len

section

variable {m m' : Mem} {s1 s2 : U32} {len : BitVec 32} {d e n : Nat}

/-! ## Words and their bytes -/

theorem charsAt_add (m : Mem) (s : U32) (i : Nat) : charsAt m (s + 4) i = charsAt m s (i + 4) := by
  unfold charsAt
  rw [BitVec.add_assoc, Nat.add_comm i 4, BitVec.ofNat_add]
  rfl

/-- The number that a word stands for. -/
theorem toNat_read32 (m : Mem) (s : U32) : (m.read32 s).toNat =
    (charsAt m s 0).toNat + 256 * (charsAt m s 1).toNat + 65536 * (charsAt m s 2).toNat +
      16777216 * (charsAt m s 3).toNat := by
  have h0 : charsAt m s 0 = m s := by simp [charsAt]
  have h1 : charsAt m s 1 = m (s + 1) := rfl
  have h2 : charsAt m s 2 = m (s + 2) := rfl
  have h3 : charsAt m s 3 = m (s + 3) := rfl
  rw [h0, h1, h2, h3, Mem.read32]
  simp only [BitVec.toNat_append]
  have := (m s).isLt
  have := (m (s + 1)).isLt
  have := (m (s + 2)).isLt
  rw [← Nat.shiftLeft_add_eq_or_of_lt (by omega), ← Nat.shiftLeft_add_eq_or_of_lt (by omega),
    ← Nat.shiftLeft_add_eq_or_of_lt (by omega)]
  simp only [Nat.shiftLeft_eq]
  omega

theorem read32_congr (h : ∀ i < 4, charsAt m s1 i = charsAt m s2 i) :
    m.read32 s1 = m.read32 s2 := by
  apply BitVec.eq_of_toNat_eq
  rw [toNat_read32, toNat_read32, h 0 (by omega), h 1 (by omega), h 2 (by omega), h 3 (by omega)]

/-- The last difference in a word says which one is larger. -/
theorem read32_of_differsLast (h : DiffersLast m s1 s2 d e) (hd : d < 4) :
    m.read32 s1 ≠ m.read32 s2 ∧
      (m.read32 s2 < m.read32 s1 ↔ ¬ charsAt m s1 e < charsAt m s2 e) := by
  obtain ⟨he, hne, hafter⟩ := h
  have h1 := toNat_read32 m s1
  have h2 := toNat_read32 m s2
  have hlt (s : U32) (i : Nat) : (charsAt m s i).toNat < 256 := (charsAt m s i).isLt
  have := hlt s1 0; have := hlt s1 1; have := hlt s1 2; have := hlt s1 3
  have := hlt s2 0; have := hlt s2 1; have := hlt s2 2; have := hlt s2 3
  have hafter' : ∀ i < 4, e < i → (charsAt m s1 i).toNat = (charsAt m s2 i).toNat :=
    fun i hi hei => congrArg _ (hafter i (by omega) hei)
  rw [Ne, ← BitVec.toNat_inj] at hne
  rw [Ne, ← BitVec.toNat_inj, BitVec.lt_def, BitVec.lt_def, h1, h2]
  have hcases : e = 0 ∨ e = 1 ∨ e = 2 ∨ e = 3 := by omega
  rcases hcases with rfl | rfl | rfl | rfl
  · have := hafter' 1 (by omega) (by omega)
    have := hafter' 2 (by omega) (by omega)
    have := hafter' 3 (by omega) (by omega)
    omega
  · have := hafter' 2 (by omega) (by omega)
    have := hafter' 3 (by omega) (by omega)
    omega
  · have := hafter' 3 (by omega) (by omega)
    omega
  · omega

/-- A word with a difference has a last one. -/
theorem exists_differsLast (h : charsAt m s1 d ≠ charsAt m s2 d) :
    ∃ e, DiffersLast m s1 s2 d e := by
  have hex : ∃ k, k ≤ 3 ∧
      charsAt m s1 (4 * (d / 4) + 3 - k) ≠ charsAt m s2 (4 * (d / 4) + 3 - k) := by
    refine ⟨3 - d % 4, by omega, ?_⟩
    rwa [show 4 * (d / 4) + 3 - (3 - d % 4) = d by omega]
  obtain ⟨hk, hne⟩ := Nat.find_spec hex
  refine ⟨_, by omega, hne, fun i hi hei => ?_⟩
  by_contra hdiff
  refine Nat.find_min hex (m := 4 * (d / 4) + 3 - i) (by omega) ⟨by omega, ?_⟩
  rwa [show 4 * (d / 4) + 3 - (4 * (d / 4) + 3 - i) = i by omega]

/-! ## The loop -/

theorem DiffersFirst.word (h : DiffersFirst m s1 s2 d) (hd : 4 ≤ d) :
    DiffersFirst m (s1 + 4) (s2 + 4) (d - 4) := by
  constructor
  · rw [charsAt_add, charsAt_add, Nat.sub_add_cancel hd]
    exact h.1
  · intro i hi
    rw [charsAt_add, charsAt_add]
    exact h.2 (i + 4) (by omega)

theorem DiffersLast.word (h : DiffersLast m s1 s2 d e) (hd : 4 ≤ d) :
    DiffersLast m (s1 + 4) (s2 + 4) (d - 4) (e - 4) := by
  obtain ⟨he, hne, hafter⟩ := h
  refine ⟨by omega, ?_, fun i hi hei => ?_⟩
  · rw [charsAt_add, charsAt_add, Nat.sub_add_cancel (by omega)]
    exact hne
  · rw [charsAt_add, charsAt_add]
    exact hafter (i + 4) (by omega) (by omega)

/-- The loop leaves at the first word with a difference. -/
theorem memcmpFrom_of_differs (h : DiffersFirst m s1 s2 d) (hl : DiffersLast m s1 s2 d e)
    (hd : d < 4 * n) :
    memcmpFrom m s1 s2 n = if charsAt m s1 e < charsAt m s2 e then -1 else 1 := by
  induction n generalizing s1 s2 d e with
  | zero => omega
  | succ n ih =>
    rw [memcmpFrom]
    by_cases hd4 : d < 4
    · obtain ⟨hne, hlt⟩ := read32_of_differsLast hl hd4
      rw [if_pos hne]
      simp only [hlt]
      exact ite_not _ _ _
    · have hsame : m.read32 s1 = m.read32 s2 := read32_congr fun i hi => h.2 i (by omega)
      have he4 : 4 ≤ e := by have := hl.1; omega
      rw [if_neg (not_not.mpr hsame), ih (h.word (by omega)) (hl.word (by omega)) (by omega),
        charsAt_add, charsAt_add, Nat.sub_add_cancel he4]

theorem memcmpFrom_of_same (h : ∀ i < 4 * n, charsAt m s1 i = charsAt m s2 i) :
    memcmpFrom m s1 s2 n = 0 := by
  induction n generalizing s1 s2 with
  | zero => rfl
  | succ n ih =>
    rw [memcmpFrom, if_neg (not_not.mpr (read32_congr fun i hi => h i (by omega)))]
    refine ih fun i hi => ?_
    rw [charsAt_add, charsAt_add]
    exact h (i + 4) (by omega)

/-- Buffers with a difference have a first one. -/
theorem exists_differsFirst (h : ¬ ∀ i < n, charsAt m s1 i = charsAt m s2 i) :
    ∃ d < n, DiffersFirst m s1 s2 d := by
  have hex : ∃ d, charsAt m s1 d ≠ charsAt m s2 d := by
    obtain ⟨d, -, hd⟩ := not_forall₂.mp h |>.imp fun _ h => h
    exact ⟨d, hd⟩
  have hfirst : DiffersFirst m s1 s2 (Nat.find hex) :=
    ⟨Nat.find_spec hex, fun i hi => not_not.mp (Nat.find_min hex hi)⟩
  refine ⟨Nat.find hex, ?_, hfirst⟩
  by_contra hge
  exact h fun i hi => hfirst.2 i (by omega)

theorem DiffersFirst.unique (h : DiffersFirst m s1 s2 d) (h' : DiffersFirst m s1 s2 e) : d = e := by
  rcases Nat.lt_trichotomy d e with hlt | heq | hlt
  · exact absurd (h'.2 d hlt) h.1
  · exact heq
  · exact absurd (h.2 e hlt) h'.1

/-! ## What the answer depends on -/

theorem memcmp_of_differs (hne : s1 ≠ s2) (h : DiffersFirst m s1 s2 d)
    (hl : DiffersLast m s1 s2 d e) (hd : d < 4 * len.toInt.toNat) :
    memcmp m s1 s2 len = if charsAt m s1 e < charsAt m s2 e then -1 else 1 := by
  rw [memcmp, if_neg hne, memcmpFrom_of_differs h hl hd]

/-- Without a difference in `4 * len` bytes the answer is 0, and only then. -/
theorem memcmp_eq_zero_iff (hne : s1 ≠ s2) : memcmp m s1 s2 len = 0 ↔
    ∀ i < 4 * len.toInt.toNat, charsAt m s1 i = charsAt m s2 i := by
  constructor
  · intro h0
    by_contra hdiff
    obtain ⟨d, hd, hfirst⟩ := exists_differsFirst hdiff
    obtain ⟨e, hlast⟩ := exists_differsLast hfirst.1
    rw [memcmp_of_differs hne hfirst hlast hd] at h0
    split at h0 <;> simp at h0
  · intro h
    rw [memcmp, if_neg hne, memcmpFrom_of_same h]

/-- The sign is that of the first difference just when the word agrees with it. -/
theorem memcmp_neg_iff (hne : s1 ≠ s2) (h : DiffersFirst m s1 s2 d)
    (hd : d < 4 * len.toInt.toNat) :
    (memcmp m s1 s2 len < 0 ↔ charsAt m s1 d < charsAt m s2 d) ↔ WordAgrees m s1 s2 d := by
  have hneg {e : Nat} (hlast : DiffersLast m s1 s2 d e) :
      memcmp m s1 s2 len < 0 ↔ charsAt m s1 e < charsAt m s2 e := by
    rw [memcmp_of_differs hne h hlast hd]
    split <;> simp_all
  constructor
  · intro hsign
    obtain ⟨e, hlast⟩ := exists_differsLast h.1
    exact ⟨e, hlast, (hneg hlast).symm.trans hsign⟩
  · rintro ⟨e, hlast, hagree⟩
    exact (hneg hlast).trans hagree

theorem SameStart.differsFirst (h : SameStart m m' s1 s2 n) (hd : d < n)
    (hfirst : DiffersFirst m s1 s2 d) : DiffersFirst m' s1 s2 d := by
  constructor
  · rw [(h d hd).1, (h d hd).2]
    exact hfirst.1
  · intro i hi
    rw [(h i (by omega)).1, (h i (by omega)).2]
    exact hfirst.2 i hi

/-- The bytes behind the first `n` are free to differ. -/
theorem exists_sameStart (m : Mem) (hne : s1 ≠ s2) (hn : 2 * n < 2 ^ 32) :
    ∃ m', SameStart m m' s1 s2 n ∧ charsAt m' s1 n ≠ charsAt m' s2 n := by
  have hn' : (BitVec.ofNat 32 n).toNat = n := by
    rw [BitVec.toNat_ofNat, Nat.mod_eq_of_lt (by omega)]
  -- one of the two bytes number `n` is not among the first `n` of the other buffer
  have hfree : n ≤ (s1 + BitVec.ofNat 32 n - s2).toNat ∨
      n ≤ (s2 + BitVec.ofNat 32 n - s1).toNat := by
    generalize BitVec.ofNat 32 n = k at *
    have hsum : s1 + k - s2 + (s2 + k - s1) = k + k := by bv_omega
    generalize s1 + k - s2 = x, s2 + k - s1 = y at *
    bv_omega
  have hne' : s1 + BitVec.ofNat 32 n ≠ s2 + BitVec.ofNat 32 n := by
    generalize BitVec.ofNat 32 n = k at *
    bv_omega
  have hbyte {s x : U32} {i : Nat} (hi : i < n) (h : n ≤ (x - s).toNat) :
      s + BitVec.ofNat 32 i ≠ x := by
    rintro rfl
    rw [Mem.toNat_offset (by omega)] at h
    omega
  rcases hfree with h | h
  · refine ⟨fun x => if x = s1 + BitVec.ofNat 32 n then m (s2 + BitVec.ofNat 32 n) + 1 else m x,
      fun i hi => ⟨if_neg (hbyte hi ?_), if_neg (hbyte hi h)⟩, ?_⟩
    · rw [Mem.toNat_offset (by omega)]
    · simp only [charsAt, if_true, if_neg hne'.symm]
      simp
  · refine ⟨fun x => if x = s2 + BitVec.ofNat 32 n then m (s1 + BitVec.ofNat 32 n) + 1 else m x,
      fun i hi => ⟨if_neg (hbyte hi h), if_neg (hbyte hi ?_)⟩, ?_⟩
    · rw [Mem.toNat_offset (by omega)]
    · simp only [charsAt, if_true, if_neg hne']
      simp

/-- The answer is the comparison of the first difference as long as its word agrees. -/
theorem comparesBytes_of_wordAgrees (hd : d < len.toInt.toNat) (hfirst : DiffersFirst m s1 s2 d)
    (hword : ∀ m', SameStart m m' s1 s2 len.toInt.toNat → WordAgrees m' s1 s2 d) :
    ComparesBytes m s1 s2 len := by
  have hne : s1 ≠ s2 := by
    rintro rfl
    exact hfirst.1 rfl
  have hval (m' : Mem) (hstart : SameStart m m' s1 s2 len.toInt.toNat) :
      memcmp m' s1 s2 len = if charsAt m s1 d < charsAt m s2 d then -1 else 1 := by
    obtain ⟨e, hlast, hagree⟩ := hword m' hstart
    rw [memcmp_of_differs hne (hstart.differsFirst hd hfirst) hlast (by omega)]
    simp only [hagree, (hstart d hd).1, (hstart d hd).2]
  have hm : memcmp m s1 s2 len = if charsAt m s1 d < charsAt m s2 d then -1 else 1 :=
    hval m fun i _ => ⟨rfl, rfl⟩
  have hpos : ¬ charsAt m s1 d < charsAt m s2 d ↔ charsAt m s2 d < charsAt m s1 d := by
    have hdiff := hfirst.1
    bv_omega
  exact {
    zero_iff := by
      rw [hm]
      constructor
      · intro h0
        split at h0 <;> simp at h0
      · exact fun h => absurd (h d hd) hfirst.1
    neg_iff := fun e he hfirst' => by
      rw [← hfirst.unique hfirst', hm]
      split <;> simp_all
    pos_iff := fun e he hfirst' => by
      rw [← hfirst.unique hfirst', ← hpos, hm]
      split <;> simp_all
    ignores := fun m' hstart => (hval m' hstart).trans hm.symm }

/-- `memcmp` compares bytes when the pointers are the same, when there is nothing to compare, and
when the word of the first difference agrees with it whatever follows the first `len` bytes. -/
theorem comparesBytes_iff (m : Mem) (s1 s2 : U32) (len : BitVec 32) :
    ComparesBytes m s1 s2 len ↔
      s1 = s2 ∨ len.toInt ≤ 0 ∨
        ∃ d < len.toInt.toNat, DiffersFirst m s1 s2 d ∧
          ∀ m', SameStart m m' s1 s2 len.toInt.toNat → WordAgrees m' s1 s2 d := by
  constructor
  · intro h
    by_cases hne : s1 = s2
    · exact Or.inl hne
    by_cases hlen : len.toInt ≤ 0
    · exact Or.inr (Or.inl hlen)
    refine Or.inr (Or.inr ?_)
    by_cases hsame : ∀ i < len.toInt.toNat, charsAt m s1 i = charsAt m s2 i
    · -- a byte behind the first `len` that makes the answer another one
      have hint : len.toInt < 2 ^ 31 := BitVec.toInt_lt
      obtain ⟨m', hstart, hdiff⟩ := exists_sameStart m hne (n := len.toInt.toNat) (by omega)
      have hzero : memcmp m' s1 s2 len = 0 := (h.ignores m' hstart).trans (h.zero_iff.mpr hsame)
      exact absurd ((memcmp_eq_zero_iff hne).mp hzero _ (by omega)) hdiff
    · obtain ⟨d, hd, hfirst⟩ := exists_differsFirst hsame
      refine ⟨d, hd, hfirst, fun m' hstart => ?_⟩
      have hd4 : d < 4 * len.toInt.toNat := by omega
      rw [← memcmp_neg_iff hne (hstart.differsFirst hd hfirst) hd4,
        h.ignores m' hstart, (hstart d hd).1, (hstart d hd).2]
      exact h.neg_iff d hd hfirst
  · rintro (rfl | hlen | ⟨d, hd, hfirst, hword⟩)
    · exact {
        zero_iff := by simp [memcmp]
        neg_iff := fun d _ hfirst => absurd rfl hfirst.1
        pos_iff := fun d _ hfirst => absurd rfl hfirst.1
        ignores := by simp [memcmp] }
    · have h0 : len.toInt.toNat = 0 := by omega
      have hzero (m : Mem) : memcmp m s1 s2 len = 0 := by simp [memcmp, h0, memcmpFrom]
      exact {
        zero_iff := by simp [hzero, h0]
        neg_iff := by simp [h0]
        pos_iff := by simp [h0]
        ignores := by simp [hzero] }
    · exact comparesBytes_of_wordAgrees hd hfirst hword

/-- The DSDT and the literal of the ACPI scan: both begin with `_S5_`. -/
def dsdtMem : Mem := fun a =>
  if a.toNat < 0x2000 then Mem.ofBytes 0x1000#32 [0x5f, 0x53, 0x35, 0x5f, 0x12] a
  else Mem.ofBytes 0x2000#32 [0x5f, 0x53, 0x35, 0x5f, 0] a

/-- Four equal bytes, and the answer is not 0. -/
theorem memcmp_dsdtMem : ¬ ComparesBytes dsdtMem 0x1000#32 0x2000#32 4#32 := by
  intro h
  have hsame : ∀ i < (4#32).toInt.toNat,
      charsAt dsdtMem 0x1000#32 i = charsAt dsdtMem 0x2000#32 i := by
    decide +kernel
  have hone : memcmp dsdtMem 0x1000#32 0x2000#32 4#32 = 1 := by
    decide +kernel
  rw [← h.zero_iff, hone] at hsame
  simp at hsame

/-! ## Buffers that lie apart -/

/-- A word inside of the first `n` bytes. -/
theorem SameStart.wordAgrees (h : SameStart m m' s1 s2 n) (hn : 4 * (d / 4) + 4 ≤ n)
    (hw : WordAgrees m s1 s2 d) : WordAgrees m' s1 s2 d := by
  obtain ⟨e, ⟨he, hne, hafter⟩, hagree⟩ := hw
  have hbyte {i : Nat} (hi : i / 4 = d / 4) := h i (by omega)
  refine ⟨e, ⟨he, ?_, fun i hi hei => ?_⟩, ?_⟩
  · rw [(hbyte he).1, (hbyte he).2]
    exact hne
  · rw [(hbyte hi).1, (hbyte hi).2]
    exact hafter i hi hei
  · rw [(hbyte he).1, (hbyte he).2, (hbyte rfl).1, (hbyte rfl).2]
    exact hagree

/-- For buffers that lie apart the word has to be inside of what is compared. -/
theorem forall_wordAgrees_iff (hd : d < n) (hn : 4 * n < 2 ^ 32)
    (hapart : ∀ i < 4 * n, ∀ j < 4 * n, s1 + BitVec.ofNat 32 i ≠ s2 + BitVec.ofNat 32 j) :
    (∀ m', SameStart m m' s1 s2 n → WordAgrees m' s1 s2 d) ↔
      4 * (d / 4) + 4 ≤ n ∧ WordAgrees m s1 s2 d := by
  constructor
  · intro h
    refine ⟨?_, h m fun i _ => ⟨rfl, rfl⟩⟩
    by_contra hout
    obtain ⟨k, hk⟩ : ∃ k, k = 4 * (d / 4) + 3 := ⟨_, rfl⟩
    have hoff {s : U32} {i : Nat} (hi : i < n) :
        s + BitVec.ofNat 32 i ≠ s + BitVec.ofNat 32 k := by
      intro heq
      have h' := congrArg (fun x => (x - s).toNat) heq
      simp only [Mem.toNat_offset (show i < 2 ^ 32 by omega),
        Mem.toNat_offset (show k < 2 ^ 32 by omega)] at h'
      omega
    -- the highest byte of the word is set against the byte `d`
    obtain ⟨v1, v2, hv, hagainst⟩ : ∃ v1 v2 : BitVec 8, v1 ≠ v2 ∧
        (v1 < v2 ↔ ¬ charsAt m s1 d < charsAt m s2 d) := by
      by_cases hlt : charsAt m s1 d < charsAt m s2 d
      · exact ⟨1, 0, by simp, by simp [hlt]⟩
      · exact ⟨0, 1, by simp, by simp [hlt]⟩
    obtain ⟨m', hm'⟩ : ∃ m' : Mem, m' = fun x =>
        if x = s1 + BitVec.ofNat 32 k then v1
        else if x = s2 + BitVec.ofNat 32 k then v2 else m x := ⟨_, rfl⟩
    have hk1 : charsAt m' s1 k = v1 := by simp [charsAt, hm']
    have hk2 : charsAt m' s2 k = v2 := by
      simp only [charsAt, hm', if_true]
      exact if_neg (hapart k (by omega) k (by omega)).symm
    have hstart : SameStart m m' s1 s2 n := by
      intro i hi
      simp only [charsAt, hm']
      rw [if_neg (hoff hi), if_neg (hapart i (by omega) k (by omega)),
        if_neg (hapart k (by omega) i (by omega)).symm, if_neg (hoff hi)]
      exact ⟨rfl, rfl⟩
    obtain ⟨e, ⟨he, hne, hafter⟩, hagree⟩ := h m' hstart
    have hek : e = k := by
      by_contra hlt
      have hsame := hafter k (by omega) (by omega)
      rw [hk1, hk2] at hsame
      exact hv hsame
    rw [hek, hk1, hk2, (hstart d hd).1, (hstart d hd).2, hagainst] at hagree
    exact not_iff_self hagree
  · rintro ⟨hin, hw⟩ m' hstart
    exact hstart.wordAgrees hin hw

end

end PiggyOS
