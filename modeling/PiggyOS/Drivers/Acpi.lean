import Mathlib.Data.Nat.Find
import PiggyOS.Utils.String

/-!
# The ACPI tables (`tables.c`)

`acpi_parse_fadt` looks for the name `_S5_` in the body of the DSDT. What is left of the body is
counted in an unsigned variable, and each test of the loop condition takes one off it, the last test
as well. So the variable has wrapped around when there is no such name, and it is zero when the name
starts at the last byte; the function takes the name to be found when the variable is not zero.

`memcmp` is a parameter that compares four bytes. The one of `string.c` would compare sixteen, and
find the name only where it is followed by what follows the literal.
-/

namespace PiggyOS

open Infra

/-- `status` -/
inductive Status
  | ok | err | warn
  deriving DecidableEq

/-- A call of `klog`; a string argument is a pointer. -/
structure LogEntry where
  status : Status
  str : String
  args : List U32
  deriving DecidableEq

/-- The globals for power management that are assigned in `tables.c`. -/
structure PowerGlobals where
  smiCmd : U32
  acpiEnable : BitVec 8
  acpiDisable : BitVec 8
  pm1aCnt : U32
  pm1bCnt : U32
  slpEn : BitVec 16
  sciEn : BitVec 16
  pm1CntLen : BitVec 8
  deriving DecidableEq

/-- The globals, and what has been logged. -/
structure Acpi where
  globals : PowerGlobals
  log : List LogEntry
  deriving DecidableEq

/-- Before the tables are looked at. -/
def Acpi.boot : Acpi := ⟨⟨0, 0, 0, 0, 0, 0, 0, 0⟩, []⟩

/-- `sizeof(acpi_header_t)` -/
def acpiHeaderSize : U32 := 36

/-- `klog(LOG_ERR, "ACPI: %s checksum failed\\n", &header->signature)` -/
def checksumFailed (header : U32) : LogEntry := ⟨.err, "ACPI: %s checksum failed\n", [header]⟩

/-- The warning for a DSDT without `_S5_`. -/
def s5NotFound : LogEntry :=
  ⟨.warn, "ACPI: _S5 not found, some functions will not be available\n", []⟩

/-- The bytes of `_S5_`. -/
def s5Name : List (BitVec 8) := [0x5F, 0x53, 0x35, 0x5F]

section

variable (m : Mem)

/-- `header->length` -/
def acpiLength (header : U32) : U32 := m.read32 (header + 4)

/-- `checksum` -/
def checksum (header : U32) : BitVec 8 :=
  (m.slice header (acpiLength m header).toNat).foldl (· + ·) 0

/-- `fadt->dsdt_address` -/
def dsdtAddress (fadt : U32) : U32 := m.read32 (fadt + 40)

/-- What the globals are filled in with. -/
def PowerGlobals.ofFadt (fadt : U32) : PowerGlobals where
  smiCmd := m.read32 (fadt + 48)
  acpiEnable := m (fadt + 52)
  acpiDisable := m (fadt + 53)
  pm1aCnt := m.read32 (fadt + 64)
  pm1bCnt := m.read32 (fadt + 68)
  pm1CntLen := m (fadt + 89)
  slpEn := 1 <<< 13
  sciEn := 1

-- `s5` is where the literal of `memcmp(S5_addr, "_S5_", 4)` lies
variable (memcmp : Mem → U32 → U32 → BitVec 32 → Int) (s5 : U32)

/-- The loop of `acpi_parse_fadt`, for `n` rounds at most: `dsdt_length` and `S5_addr`. -/
def s5Loop : Nat → U32 → U32 → Option (U32 × U32)
  | 0, _, _ => none
  | n + 1, dsdtLength, s5Addr =>
    -- the condition takes one off, whether it holds or not
    if 0 < dsdtLength then
      if memcmp m s5Addr s5 4 = 0 then some (dsdtLength - 1, s5Addr)
      else s5Loop n (dsdtLength - 1) (s5Addr + 1)
    else some (dsdtLength - 1, s5Addr)

/-- `acpi_parse_fadt` -/
def acpiParseFadt (s : Acpi) (fadt : U32) : Option Acpi :=
  let dsdt := dsdtAddress m fadt
  if checksum m dsdt ≠ 0 then
    some { s with log := s.log ++ [checksumFailed dsdt] }
  else do
    let (dsdtLength, _) ← s5Loop m memcmp s5 addresses (acpiLength m dsdt - acpiHeaderSize)
      (dsdt + acpiHeaderSize)
    if 0 < dsdtLength then
      -- `S5_addr` goes on to the value behind the name, which nothing is done with
      some { s with globals := .ofFadt m fadt }
    else some { s with log := s.log ++ [s5NotFound] }

/-! ## What the scan is to do -/

/-- `memcmp` of four bytes compares these and nothing else. -/
def ComparesFour : Prop :=
  ∀ a b, memcmp m a b 4 = 0 ↔ ∀ i < 4, charsAt m a i = charsAt m b i

/-- The bytes of a table behind its header. -/
def bodyLength (header : U32) : Nat := (acpiLength m header).toNat - acpiHeaderSize.toNat

/-- The name `_S5_` starts at the offset `i` of the body. -/
def S5At (header : U32) (i : Nat) : Prop :=
  m.Holds (header + acpiHeaderSize + BitVec.ofNat 32 i) s5Name

/-- The globals are filled in when the name starts in the body, and left alone when it does not. -/
structure ScansS5 (s : Acpi) (fadt : U32) : Prop where
  found : ∀ i < bodyLength m (dsdtAddress m fadt), S5At m (dsdtAddress m fadt) i →
    acpiParseFadt m memcmp s5 s fadt = some { s with globals := .ofFadt m fadt }
  missing : (∀ i < bodyLength m (dsdtAddress m fadt), ¬ S5At m (dsdtAddress m fadt) i) →
    acpiParseFadt m memcmp s5 s fadt = some { s with log := s.log ++ [s5NotFound] }

end

section

variable {m : Mem} {memcmp : Mem → U32 → U32 → BitVec 32 → Int} {s5 a fadt len : U32} {s : Acpi}
  {n i : Nat}

/-- What the comparison of the loop says. -/
theorem ComparesFour.eq_zero_iff (hcmp : ComparesFour m memcmp) (hs5 : m.Holds s5 s5Name)
    (a : U32) : memcmp m a s5 4 = 0 ↔ m.Holds a s5Name := by
  rw [hcmp]
  constructor
  · intro h i hi
    exact (h i hi).trans (hs5 i hi)
  · intro h i hi
    exact (h i hi).trans (hs5 i hi).symm

/-- The counter wraps around when the name is not there. -/
theorem s5Loop_of_missing (hn : len.toNat < n)
    (h : ∀ i < len.toNat, memcmp m (a + BitVec.ofNat 32 i) s5 4 ≠ 0) :
    s5Loop m memcmp s5 n len a = some (0xFFFFFFFF, a + len) := by
  induction n generalizing len a with
  | zero => omega
  | succ n ih =>
    rw [s5Loop]
    by_cases hpos : 0 < len
    · have hpos' : 0 < len.toNat := by bv_omega
      have h0 := h 0 hpos'
      have hlen : (len - 1).toNat = len.toNat - 1 := by bv_omega
      have hend : a + 1 + (len - 1) = a + len := by bv_omega
      rw [BitVec.add_zero] at h0
      rw [if_pos hpos, if_neg h0, ← hend]
      refine ih (by omega) fun i hi => ?_
      rw [← Mem.add_ofNat_succ]
      exact h (i + 1) (by omega)
    · obtain rfl : len = 0#32 := by bv_omega
      rw [if_neg hpos, BitVec.add_zero]
      rfl

/-- The loop stops at the first place that has the name. -/
theorem s5Loop_of_first (hn : len.toNat < n) (hi : i < len.toNat)
    (heq : memcmp m (a + BitVec.ofNat 32 i) s5 4 = 0)
    (hfirst : ∀ j < i, memcmp m (a + BitVec.ofNat 32 j) s5 4 ≠ 0) :
    s5Loop m memcmp s5 n len a = some (len - 1 - BitVec.ofNat 32 i, a + BitVec.ofNat 32 i) := by
  induction n generalizing len a i with
  | zero => omega
  | succ n ih =>
    have hpos : 0 < len := by bv_omega
    rw [s5Loop, if_pos hpos]
    cases i with
    | zero =>
      rw [BitVec.add_zero] at heq ⊢
      rw [if_pos heq, BitVec.sub_zero]
    | succ i =>
      have h0 := hfirst 0 (Nat.succ_pos i)
      have hlen : (len - 1).toNat = len.toNat - 1 := by bv_omega
      have hleft : len - 1 - BitVec.ofNat 32 (i + 1) = len - 1 - 1 - BitVec.ofNat 32 i := by
        rw [Nat.add_comm, BitVec.ofNat_add]
        bv_omega
      rw [BitVec.add_zero] at h0
      rw [Mem.add_ofNat_succ] at heq
      rw [if_neg h0, Mem.add_ofNat_succ, hleft]
      refine ih (by omega) (by omega) heq fun j hj => ?_
      rw [← Mem.add_ofNat_succ]
      exact hfirst (j + 1) (by omega)

/-! ## What the scan does -/

theorem toNat_length_sub (hlen : acpiHeaderSize ≤ acpiLength m (dsdtAddress m fadt)) :
    (acpiLength m (dsdtAddress m fadt) - acpiHeaderSize).toNat =
      bodyLength m (dsdtAddress m fadt) :=
  BitVec.toNat_sub_of_le hlen

theorem bodyLength_lt : bodyLength m (dsdtAddress m fadt) < addresses := by
  have hlt := (acpiLength m (dsdtAddress m fadt)).isLt
  unfold bodyLength
  exact Nat.lt_of_le_of_lt (Nat.sub_le ..) hlt

theorem acpiParseFadt_of_loop {r : U32 × U32} (hsum : checksum m (dsdtAddress m fadt) = 0)
    (hloop : s5Loop m memcmp s5 addresses (acpiLength m (dsdtAddress m fadt) - acpiHeaderSize)
      (dsdtAddress m fadt + acpiHeaderSize) = some r) :
    acpiParseFadt m memcmp s5 s fadt =
      if 0 < r.1 then some { s with globals := .ofFadt m fadt }
      else some { s with log := s.log ++ [s5NotFound] } := by
  unfold acpiParseFadt
  simp only [hsum, hloop, ne_eq, not_true_eq_false, if_false, Option.bind_eq_bind, Option.bind_some]

section

variable (hcmp : ComparesFour m memcmp) (hs5 : m.Holds s5 s5Name)
  (hsum : checksum m (dsdtAddress m fadt) = 0)
  (hlen : acpiHeaderSize ≤ acpiLength m (dsdtAddress m fadt))

include hcmp hs5 hsum hlen

/-- Without the name the globals are filled in. -/
theorem acpiParseFadt_of_missing
    (h : ∀ i < bodyLength m (dsdtAddress m fadt), ¬ S5At m (dsdtAddress m fadt) i) :
    acpiParseFadt m memcmp s5 s fadt = some { s with globals := .ofFadt m fadt } := by
  have hbody := toNat_length_sub hlen
  rw [acpiParseFadt_of_loop hsum (s5Loop_of_missing (hbody ▸ bodyLength_lt) ?_)]
  · exact if_pos (show (0 : U32) < 0xFFFFFFFF by decide)
  · intro i hi heq
    exact h i (hbody ▸ hi) ((hcmp.eq_zero_iff hs5 _).mp heq)

/-- With the name they are when it does not start at the last byte only. -/
theorem acpiParseFadt_of_first (hi : i < bodyLength m (dsdtAddress m fadt))
    (heq : S5At m (dsdtAddress m fadt) i) (hfirst : ∀ j < i, ¬ S5At m (dsdtAddress m fadt) j) :
    acpiParseFadt m memcmp s5 s fadt =
      if i + 1 < bodyLength m (dsdtAddress m fadt) then some { s with globals := .ofFadt m fadt }
      else some { s with log := s.log ++ [s5NotFound] } := by
  have hbody := toNat_length_sub hlen
  have hleft : 0 < acpiLength m (dsdtAddress m fadt) - acpiHeaderSize - 1 - BitVec.ofNat 32 i ↔
      i + 1 < bodyLength m (dsdtAddress m fadt) := by
    rw [← hbody] at hi ⊢
    generalize acpiLength m (dsdtAddress m fadt) - acpiHeaderSize = len at hi ⊢
    have hi' : (BitVec.ofNat 32 i).toNat = i := by
      rw [BitVec.toNat_ofNat, Nat.mod_eq_of_lt (by omega)]
    bv_omega
  rw [acpiParseFadt_of_loop hsum (s5Loop_of_first (hbody ▸ bodyLength_lt) (hbody ▸ hi)
    ((hcmp.eq_zero_iff hs5 _).mpr heq) ?_)]
  · simp only [hleft]
  · intro j hj h0
    exact hfirst j hj ((hcmp.eq_zero_iff hs5 _).mp h0)

end

/-- The two branches differ. -/
theorem filled_ne_warned (s : Acpi) (globals : PowerGlobals) :
    some { s with globals } ≠ some { s with log := s.log ++ [s5NotFound] } := by
  intro heq
  have hlog := congrArg (List.length ∘ Acpi.log) (Option.some.inj heq)
  simp at hlog

/-- A FADT, a DSDT with the checksum byte `check` and the body `body`, and the literal. -/
def fadtMem (check : BitVec 8) (body : List (BitVec 8)) : Mem :=
  ((Mem.ofBytes 0x1028 [0x00, 0x20, 0x00, 0x00]).write 0x2000
    ([0x44, 0x53, 0x44, 0x54, BitVec.ofNat 8 (36 + body.length), 0x00, 0x00, 0x00, 0x02, check] ++
      List.replicate 26 0x00 ++ body)).write 0x3000 s5Name

/-- A DSDT with no more than the first three bytes of the name. -/
def missingMem : Mem := fadtMem 0xC0 [0x5F, 0x53, 0x35, 0x00]

/-- A `memcmp` that compares as many bytes as it is told to, for being the same. -/
def sameBytes (m : Mem) (s1 s2 : U32) (len : BitVec 32) : Int :=
  if m.slice s1 len.toInt.toNat = m.slice s2 len.toInt.toNat then 0 else 1

theorem comparesFour_sameBytes (m : Mem) : ComparesFour m sameBytes := by
  intro a b
  have hfour : (4 : BitVec 32).toInt.toNat = 4 := by decide
  have hslice : m.slice a 4 = m.slice b 4 ↔ ∀ i < 4, charsAt m a i = charsAt m b i := by
    simp only [Mem.slice, List.map_inj_left, List.mem_range, charsAt]
  rw [← hslice, sameBytes, hfour]
  split
  · next heq => exact iff_of_true rfl heq
  · next hne => exact iff_of_false (by decide) hne

/-- **The scan is right exactly when the name starts in the body before its last byte.** -/
theorem scansS5_iff (hcmp : ComparesFour m memcmp) (hs5 : m.Holds s5 s5Name)
    (hsum : checksum m (dsdtAddress m fadt) = 0)
    (hlen : acpiHeaderSize ≤ acpiLength m (dsdtAddress m fadt)) :
    ScansS5 m memcmp s5 s fadt ↔
      ∃ i, i + 1 < bodyLength m (dsdtAddress m fadt) ∧ S5At m (dsdtAddress m fadt) i := by
  classical
  by_cases hex : ∃ i, i < bodyLength m (dsdtAddress m fadt) ∧ S5At m (dsdtAddress m fadt) i
  · -- the loop stops at the first one
    obtain ⟨hlt, hat⟩ := Nat.find_spec hex
    have hres := acpiParseFadt_of_first (s := s) hcmp hs5 hsum hlen hlt hat fun j hj hat' =>
      Nat.find_min hex hj ⟨Nat.lt_trans hj hlt, hat'⟩
    constructor
    · intro h
      by_contra hlast
      rw [if_neg fun hi => hlast ⟨_, hi, hat⟩] at hres
      exact filled_ne_warned s _ ((h.found _ hlt hat).symm.trans hres)
    · rintro ⟨i, hi, hati⟩
      have hle : Nat.find hex ≤ i := Nat.find_min' hex ⟨Nat.lt_of_succ_lt hi, hati⟩
      rw [if_pos (by omega)] at hres
      exact ⟨fun _ _ _ => hres, fun hnone => absurd hat (hnone _ hlt)⟩
  · -- the counter has wrapped
    have hnone : ∀ i < bodyLength m (dsdtAddress m fadt), ¬ S5At m (dsdtAddress m fadt) i :=
      fun i hi hat => hex ⟨i, hi, hat⟩
    have hres := acpiParseFadt_of_missing (s := s) hcmp hs5 hsum hlen hnone
    refine iff_of_false (fun h => ?_) ?_
    · exact filled_ne_warned s _ (hres.symm.trans (h.missing hnone))
    · rintro ⟨i, hi, hat⟩
      exact hnone i (Nat.lt_of_succ_lt hi) hat

/-- The name starts at the second byte of the body, and zeros are behind it. -/
theorem scansS5_iff_second : ScansS5
    (fadtMem 0x57 [0x08, 0x5F, 0x53, 0x35, 0x5F, 0x00]) sameBytes 0x3000 .boot 0x1000 := by
  refine (scansS5_iff (comparesFour_sameBytes _) ?_ ?_ ?_).mpr ⟨1, ?_, ?_⟩
  · unfold Mem.Holds
    decide +kernel
  · decide +kernel
  · decide +kernel
  · decide +kernel
  · unfold S5At Mem.Holds
    decide +kernel

/-- The globals are filled in from a table without the name. -/
theorem not_scansS5_missing : ComparesFour missingMem sameBytes ∧ missingMem.Holds 0x3000 s5Name ∧
    checksum missingMem (dsdtAddress missingMem 0x1000) = 0 ∧
    acpiHeaderSize ≤ acpiLength missingMem (dsdtAddress missingMem 0x1000) ∧
    ∀ s, ¬ ScansS5 missingMem sameBytes 0x3000 s 0x1000 := by
  have hcmp := comparesFour_sameBytes missingMem
  have hs5 : missingMem.Holds 0x3000 s5Name := by
    unfold Mem.Holds
    decide +kernel
  have hsum : checksum missingMem (dsdtAddress missingMem 0x1000) = 0 := by decide +kernel
  have hlen : acpiHeaderSize ≤ acpiLength missingMem (dsdtAddress missingMem 0x1000) := by
    decide +kernel
  have hnone : ∀ i < bodyLength missingMem (dsdtAddress missingMem 0x1000),
      ¬ S5At missingMem (dsdtAddress missingMem 0x1000) i := by
    unfold S5At Mem.Holds
    decide +kernel
  refine ⟨hcmp, hs5, hsum, hlen, fun s h => ?_⟩
  have hfilled := acpiParseFadt_of_missing (s := s) hcmp hs5 hsum hlen hnone
  exact filled_ne_warned s _ (hfilled.symm.trans (h.missing hnone))

end

end PiggyOS
