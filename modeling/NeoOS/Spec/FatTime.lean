import Mathlib.Algebra.Group.Nat.Defs

/-!
# Timestamps (`kernel/fs/fatfs.c`, `kernel/drivers/char/rtc.c`)

Times are seconds since the epoch and not negative.
-/

namespace NeoOS.FatTime

/-- `is_leap`. -/
def isLeap (y : ℕ) : Bool := (y % 4 = 0 ∧ y % 100 ≠ 0) ∨ y % 400 = 0

def yearLength (y : ℕ) : ℕ := if isLeap y then 366 else 365

/-- The loop of `days_from_epoch` after `n` years. -/
def yearDays : ℕ → ℕ
  | 0 => 0
  | n + 1 => yearDays n + yearLength (1970 + n)

def cumulative : List ℕ := [0, 31, 59, 90, 120, 151, 181, 212, 243, 273, 304, 334]

/-- `days_from_epoch`. -/
def daysFromEpoch (year month day : ℕ) : ℕ :=
  yearDays (year - 1970) + cumulative.getD ((month - 1) % 12) 0 + (if 2 < month ∧ isLeap year then 1 else 0) + (day - 1)

/-- `rtc_time_to_epoch`. -/
def rtcTimeToEpoch (year month day hour min sec : ℕ) : ℕ :=
  daysFromEpoch year month day * 86400 + hour * 3600 + min * 60 + sec

/-- `fat_datetime_to_epoch`. -/
def fatDatetimeToEpoch (date time : ℕ) : ℕ :=
  if date = 0 then 0
  else
    let month := date >>> 5 &&& 0x0F
    let day := date &&& 0x1F
    if month < 1 ∨ 12 < month ∨ day < 1 ∨ 31 < day then 0
    else
      rtcTimeToEpoch (1980 + (date >>> 9 &&& 0x7F)) month day (time >>> 11 &&& 0x1F) (time >>> 5 &&& 0x3F)
        ((time &&& 0x1F) * 2)

/-- The loop over the years in `fat_epoch_to_datetime`. -/
def yearLoop (days year : ℕ) : ℕ × ℕ :=
  if days < yearLength year then (year, days) else yearLoop (days - yearLength year) (year + 1)
termination_by days
decreasing_by
  have : 0 < yearLength year := by unfold yearLength; split <;> decide
  omega

/-- `mlen`. -/
def monthLengths (leap : Bool) : List ℕ := [31, if leap then 29 else 28, 31, 30, 31, 30, 31, 31, 30, 31, 30, 31]

/-- The loop over the months. -/
def monthLoop : List ℕ → ℕ → ℕ → ℕ × ℕ
  | [], days, month => (month, days)
  | len :: lens, days, month => if days < len then (month, days) else monthLoop lens (days - len) (month + 1)

/-- `fat_epoch_to_datetime`. -/
def fatEpochToDatetime (epoch : ℕ) : ℕ × ℕ :=
  let rem := epoch % 86400
  let (year, days) := yearLoop (epoch / 86400) 1970
  let (month, days) := monthLoop (monthLengths (isLeap year)) days 1
  if epoch = 0 ∨ year < 1980 then (0, 0)
  else
    (((year - 1980) <<< 9 ||| month <<< 5 ||| (days + 1)) % 2 ^ 16,
      ((rem / 3600) <<< 11 ||| (rem / 60 % 60) <<< 5 ||| rem % 60 / 2) % 2 ^ 16)

end NeoOS.FatTime
