import PiggyOS.Infra.Memory

/-!
# The real time clock (`rtc.c`)

The clock keeps the calendar time in binary coded decimals. Its interrupt handler stores it to `dt`,
from which `get_seconds` forms a time stamp: a year counts 365 days and a month a twelfth of 365.25
days, and the sum is taken modulo `2 ^ 32`.

A time stamp is smaller than an earlier one in two cases: the sum has wrapped in between, which
happens once in this century, or the earlier time is late on the 31st of a month and the later one
early on the next day.
-/

namespace PiggyOS

open Infra

/-- `cmos_reg`, without the registers that are not used. -/
inductive CmosReg
  | second | minute | hour | day | month | year | statusC

/-- `time_t` -/
structure TimeT where
  year : BitVec 16
  mnth : BitVec 16
  day : BitVec 16
  hour : BitVec 16
  min : BitVec 16
  sec : BitVec 16

/-- `from_bcd`, stored to a `uint16_t`. -/
def fromBcd (val : BitVec 8) : BitVec 16 :=
  (val >>> 4).setWidth 16 * 10 + (val &&& 0xf).setWidth 16

/-- `rtc_irq_handler`; `readCmos` is what `read_cmos` reads while it runs, both times that the macro
`from_bcd` calls it. -/
def rtcIrqHandler (readCmos : CmosReg → BitVec 8) (dt : TimeT) : TimeT :=
  if readCmos .statusC &&& 0x10 ≠ 0 then
    { sec := fromBcd (readCmos .second)
      min := fromBcd (readCmos .minute)
      hour := fromBcd (readCmos .hour)
      day := fromBcd (readCmos .day)
      mnth := fromBcd (readCmos .month)
      year := 2000 + fromBcd (readCmos .year) }
  else dt

/-- `get_seconds` -/
def getSeconds (dt : TimeT) : U32 :=
  dt.year.setWidth 32 * 31536000 + dt.mnth.setWidth 32 * 2629800 + dt.day.setWidth 32 * 86400 +
    dt.hour.setWidth 32 * 3600 + dt.min.setWidth 32 * 60 + dt.sec.setWidth 32

/-! ## Calendar times -/

/-- The days of a month. -/
def daysInMonth (year month : Nat) : Nat :=
  if month = 2 then (if year % 4 = 0 ∧ (year % 100 ≠ 0 ∨ year % 400 = 0) then 29 else 28)
  else if month = 4 ∨ month = 6 ∨ month = 9 ∨ month = 11 then 30
  else 31

/-- A time of the years 2000 to 2099. -/
structure CalendarTime where
  year : Nat
  month : Nat
  day : Nat
  hour : Nat
  minute : Nat
  second : Nat
  year_ge : 2000 ≤ year
  year_le : year ≤ 2099
  month_pos : 0 < month
  month_le : month ≤ 12
  day_pos : 0 < day
  day_le : day ≤ daysInMonth year month
  hour_lt : hour < 24
  minute_lt : minute < 60
  second_lt : second < 60

/-- A number of two digits as the clock keeps it. -/
def bcd (n : Nat) : BitVec 8 := BitVec.ofNat 8 (n / 10 * 16 + n % 10)

namespace CalendarTime

variable (t t' : CalendarTime)

/-- The seconds since midnight. -/
def timeOfDay : Nat := t.hour * 3600 + t.minute * 60 + t.second

/-- `t` comes before `t'`. -/
def Before : Prop :=
  t.year < t'.year ∨ t.year = t'.year ∧ (t.month < t'.month ∨ t.month = t'.month ∧
    (t.day < t'.day ∨ t.day = t'.day ∧ t.timeOfDay < t'.timeOfDay))

/-- The clock has been updated to the time `t`. -/
structure Shown (readCmos : CmosReg → BitVec 8) : Prop where
  updated : readCmos .statusC &&& 0x10 ≠ 0
  second : readCmos .second = bcd t.second
  minute : readCmos .minute = bcd t.minute
  hour : readCmos .hour = bcd t.hour
  day : readCmos .day = bcd t.day
  month : readCmos .month = bcd t.month
  year : readCmos .year = bcd (t.year - 2000)

/-- The registers of the clock at the time `t`. -/
def registers : CmosReg → BitVec 8
  | .second => bcd t.second
  | .minute => bcd t.minute
  | .hour => bcd t.hour
  | .day => bcd t.day
  | .month => bcd t.month
  | .year => bcd (t.year - 2000)
  | .statusC => 0x10

/-- The time at which the sum wraps, 2042-10-19 16:04:00. -/
def wrap : CalendarTime :=
  ⟨2042, 10, 19, 16, 4, 0, by decide, by decide, by decide, by decide, by decide, by decide,
    by decide, by decide, by decide⟩

/-- The sum wraps between `t` and `t'`. -/
def Wraps : Prop := t.Before wrap ∧ ¬ t'.Before wrap

/-- `t` is on the 31st of a month and `t'` on the next day, earlier in the day by more than what a
month counts beyond 30 days: 10 hours and a half, and 4 hours and a half at the end of a year. -/
def Overtakes : Prop :=
  t.day = 31 ∧ t'.day = 1 ∧
    (t'.year = t.year ∧ t'.month = t.month + 1 ∧ t'.timeOfDay + 37800 < t.timeOfDay ∨
      t'.year = t.year + 1 ∧ t.month = 12 ∧ t'.month = 1 ∧ t'.timeOfDay + 16200 < t.timeOfDay)

/-- What `get_seconds` adds up. -/
def weight : Nat := t.year * 31536000 + t.month * 2629800 + t.day * 86400 + t.timeOfDay

variable {t t'}

theorem timeOfDay_lt (t : CalendarTime) : t.timeOfDay < 86400 := by
  have hh := t.hour_lt
  have hm := t.minute_lt
  have hs := t.second_lt
  unfold timeOfDay
  omega

theorem day_le_31 (t : CalendarTime) : t.day ≤ 31 := by
  refine Nat.le_trans t.day_le ?_
  unfold daysInMonth
  split
  · split <;> omega
  · split <;> omega

/-! ## What the handler stores -/

theorem shown_registers (t : CalendarTime) : t.Shown t.registers :=
  ⟨show (0x10 : BitVec 8) &&& 0x10 ≠ 0 by decide, rfl, rfl, rfl, rfl, rfl, rfl⟩

theorem toNat_fromBcd {n : Nat} (hn : n < 100) : (fromBcd (bcd n)).toNat = n := by
  have hall : ∀ m ∈ List.range 100, (fromBcd (bcd m)).toNat = m := by decide +kernel
  exact hall n (List.mem_range.mpr hn)

theorem setWidth_fromBcd {n : Nat} (hn : n < 100) :
    (fromBcd (bcd n)).setWidth 32 = BitVec.ofNat 32 n := by
  apply BitVec.eq_of_toNat_eq
  rw [BitVec.toNat_setWidth, toNat_fromBcd hn, BitVec.toNat_ofNat]

theorem setWidth_year (t : CalendarTime) :
    (2000 + fromBcd (bcd (t.year - 2000))).setWidth 32 = BitVec.ofNat 32 t.year := by
  have hyear := t.year_ge
  have hyear' := t.year_le
  apply BitVec.eq_of_toNat_eq
  rw [BitVec.toNat_setWidth, BitVec.toNat_add, toNat_fromBcd (by omega), BitVec.toNat_ofNat]
  show (2000 + _) % 2 ^ 16 % 2 ^ 32 = _
  omega

/-- The time stamp of a time that the clock has shown. -/
theorem Shown.getSeconds_eq {readCmos : CmosReg → BitVec 8} (h : t.Shown readCmos) (dt : TimeT) :
    getSeconds (rtcIrqHandler readCmos dt) = BitVec.ofNat 32 t.weight := by
  have hday := t.day_le_31
  have hmonth := t.month_le
  have hh := t.hour_lt
  have hm := t.minute_lt
  have hs := t.second_lt
  unfold rtcIrqHandler getSeconds
  rw [if_pos h.updated, h.second, h.minute, h.hour, h.day, h.month, h.year]
  dsimp only
  rw [setWidth_year, setWidth_fromBcd (by omega), setWidth_fromBcd (by omega),
    setWidth_fromBcd (by omega), setWidth_fromBcd (by omega), setWidth_fromBcd (by omega)]
  simp only [BitVec.ofNat_eq_ofNat, BitVec.ofNat_mul_ofNat, BitVec.ofNat_add_ofNat]
  unfold weight timeOfDay
  rw [← Nat.add_assoc, ← Nat.add_assoc]

/-! ## The order of the sums -/

theorem weight_lt_wrap_iff (t : CalendarTime) : t.weight < 15 * 2 ^ 32 ↔ t.Before wrap := by
  have hsec := t.timeOfDay_lt
  have hday := t.day_le_31
  have hday' := t.day_pos
  have hmonth := t.month_le
  have hmonth' := t.month_pos
  have hwrap : wrap.timeOfDay = 57840 := rfl
  unfold weight Before
  rw [hwrap]
  show _ ↔ t.year < 2042 ∨ t.year = 2042 ∧ (t.month < 10 ∨ t.month = 10 ∧
    (t.day < 19 ∨ t.day = 19 ∧ _))
  omega

theorem weight_bounds (t : CalendarTime) : 14 * 2 ^ 32 ≤ t.weight ∧ t.weight < 16 * 2 ^ 32 := by
  have hsec := t.timeOfDay_lt
  have hday := t.day_le_31
  have hmonth := t.month_le
  have hyear := t.year_ge
  have hyear' := t.year_le
  unfold weight
  omega

/-- The sums of the years 2000 to 2099 differ by less than `2 ^ 32`. -/
theorem weight_lt_add (t t' : CalendarTime) : t'.weight < t.weight + 2 ^ 32 := by
  have hsec' := t'.timeOfDay_lt
  have hday' := t'.day_le_31
  have hmonth' := t'.month_le
  have hyear := t.year_ge
  have hyear' := t'.year_le
  unfold weight
  omega

theorem Before.trans_wrap (h : t.Before t') (h' : t'.Before wrap) : t.Before wrap := by
  unfold Before at *
  omega

theorem Before.weight_le_iff (h : t.Before t') : t.weight ≤ t'.weight ↔ ¬ t.Overtakes t' := by
  have hsec := t.timeOfDay_lt
  have hday := t.day_le_31
  have hday' := t'.day_pos
  have hmonth := t.month_le
  have hmonth' := t'.month_pos
  unfold Before at h
  unfold weight Overtakes
  -- only the step over the end of a month can make the sum smaller
  omega

/-- **A later time has the larger time stamp exactly when the sum does not wrap in between and the
earlier time does not overtake the later one at the end of a month.** -/
theorem Before.getSeconds_le_iff {readCmos readCmos' : CmosReg → BitVec 8} (h : t.Before t')
    (hshown : t.Shown readCmos) (hshown' : t'.Shown readCmos') (dt dt' : TimeT) :
    getSeconds (rtcIrqHandler readCmos dt) ≤ getSeconds (rtcIrqHandler readCmos' dt') ↔
      ¬ t.Wraps t' ∧ ¬ t.Overtakes t' := by
  obtain ⟨hlo, hhi⟩ := t.weight_bounds
  obtain ⟨hlo', hhi'⟩ := t'.weight_bounds
  have hyear : t'.weight < t.weight + 2 ^ 32 := t.weight_lt_add t'
  rw [hshown.getSeconds_eq, hshown'.getSeconds_eq, BitVec.le_def, BitVec.toNat_ofNat,
    BitVec.toNat_ofNat, ← h.weight_le_iff, Wraps, ← weight_lt_wrap_iff, ← weight_lt_wrap_iff]
  -- the sums lie between 14 and 16 times `2 ^ 32`, and wrap at 15 times
  have hwrap : t'.weight < 15 * 2 ^ 32 → t.weight < 15 * 2 ^ 32 := fun hlt =>
    (weight_lt_wrap_iff t).mpr (h.trans_wrap ((weight_lt_wrap_iff t').mp hlt))
  omega

/-- The last second of January 2026. -/
def lateJanuary : CalendarTime :=
  ⟨2026, 1, 31, 23, 59, 59, by decide, by decide, by decide, by decide, by decide, by decide,
    by decide, by decide, by decide⟩

/-- The first second of February 2026. -/
def earlyFebruary : CalendarTime :=
  ⟨2026, 2, 1, 0, 0, 0, by decide, by decide, by decide, by decide, by decide, by decide,
    by decide, by decide, by decide⟩

/-- The first second of March 2026. -/
def earlyMarch : CalendarTime :=
  ⟨2026, 3, 1, 0, 0, 0, by decide, by decide, by decide, by decide, by decide, by decide,
    by decide, by decide, by decide⟩

theorem getSeconds_le_iff_march :
    getSeconds (rtcIrqHandler lateJanuary.registers ⟨0, 0, 0, 0, 0, 0⟩) ≤
      getSeconds (rtcIrqHandler earlyMarch.registers ⟨0, 0, 0, 0, 0, 0⟩) := by
  have hbefore : lateJanuary.Before earlyMarch := by unfold Before; decide
  refine (hbefore.getSeconds_le_iff (shown_registers _) (shown_registers _) _ _).mpr ⟨?_, ?_⟩
  · unfold Wraps Before
    decide
  · unfold Overtakes
    decide

/-- The time stamp goes back by more than 13 hours at the end of January. -/
theorem not_getSeconds_le : lateJanuary.Before earlyFebruary ∧
    ¬ getSeconds (rtcIrqHandler lateJanuary.registers ⟨0, 0, 0, 0, 0, 0⟩) ≤
      getSeconds (rtcIrqHandler earlyFebruary.registers ⟨0, 0, 0, 0, 0, 0⟩) := by
  unfold Before
  decide

end CalendarTime

end PiggyOS
