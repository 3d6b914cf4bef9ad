import NeoOS.Spec.FatTime

/-!
# FAT timestamps are times

The two loops of the encoder undo the sums of the decoder, year by year (`yearLoop_spec`) and
month by month (`month_spec`).
-/

namespace NeoOS.FatTime

variable {y m d : ℕ}

/-- The days of the proleptic Gregorian calendar before the year `y + 1`. -/
def gregorian (y : ℕ) : ℕ := 365 * y + y / 4 - y / 100 + y / 400

/-- The month and the day are ones of the year. -/
def ValidDate (y m d : ℕ) : Prop := 1 ≤ m ∧ m ≤ 12 ∧ 1 ≤ d ∧ d ≤ (monthLengths (isLeap y)).getD (m - 1) 0

theorem yearDays_eq (n : ℕ) : yearDays n + gregorian 1969 = gregorian (1969 + n) := by
  induction n with
  | zero => rfl
  | succ n ih =>
    simp only [yearDays, yearLength, isLeap, decide_eq_true_eq, gregorian] at ih ⊢
    split <;> omega

/-- What the loop over the years has taken off the days is what the years before have. -/
theorem yearLoop_spec (days n : ℕ) : ∃ k, (yearLoop days (1970 + n)).1 = 1970 + k ∧
    yearDays k + (yearLoop days (1970 + n)).2 = yearDays n + days ∧ (yearLoop days (1970 + n)).2 < yearLength (1970 + k) := by
  induction days using Nat.strongRecOn generalizing n with
  | ind days ih =>
    rw [yearLoop]
    split
    · exact ⟨n, rfl, rfl, ‹_›⟩
    · have hpos : 0 < yearLength (1970 + n) := by unfold yearLength; split <;> decide
      obtain ⟨k, h1, h2, h3⟩ := ih (days - yearLength (1970 + n)) (by omega) (n + 1)
      refine ⟨k, h1, ?_, h3⟩
      rw [yearDays] at h2
      rw [← Nat.add_assoc] at h2
      omega

/-- The months before add up to `cumulative`, and to a day more after February of a leap year. -/
theorem month_spec (leap : Bool) : ∀ days < if leap then 366 else 365,
    let r := monthLoop (monthLengths leap) days 1
    (1 ≤ r.1 ∧ r.1 ≤ 12 ∧ r.2 + 1 ≤ (monthLengths leap).getD (r.1 - 1) 0) ∧ r.2 + 1 ≤ 31 ∧
      cumulative.getD ((r.1 - 1) % 12) 0 + (if 2 < r.1 ∧ leap then 1 else 0) + r.2 = days := by
  cases leap <;> decide +kernel

theorem pack {a m d : ℕ} (j k : ℕ) (hm : m < 2 ^ j) (hd : d < 2 ^ k) :
    a <<< (j + k) ||| m <<< k ||| d = (a * 2 ^ j + m) * 2 ^ k + d := by
  have h : a <<< (j + k) ||| m <<< k = (a <<< j ||| m) <<< k := by rw [Nat.shiftLeft_or_distrib, ← Nat.shiftLeft_add]
  rw [h, ← Nat.shiftLeft_add_eq_or_of_lt hm, ← Nat.shiftLeft_add_eq_or_of_lt hd, Nat.shiftLeft_eq, Nat.shiftLeft_eq]

/-- **FAT timestamps**: a time from 1980 to 2107 is encoded with a valid date and decoded to the even second before it,
and `rtc_time_to_epoch` counts days as the Gregorian calendar does. -/
theorem fat_timestamps : (∀ t, 315532800 ≤ t → t < 4354819200 → ∃ date time, fatEpochToDatetime t = (date, time) ∧
      fatDatetimeToEpoch date time = t / 2 * 2 ∧
        ValidDate (1980 + (date >>> 9 &&& 0x7F)) (date >>> 5 &&& 0x0F) (date &&& 0x1F)) ∧
    ∀ y m d hour min sec, 1970 ≤ y → ValidDate y m d →
      rtcTimeToEpoch y m d hour min sec + gregorian 1969 * 86400 =
        (gregorian (y - 1) + ((monthLengths (isLeap y)).take (m - 1)).foldl (· + ·) 0 +
          (d - 1)) * 86400 + hour * 3600 + min * 60 + sec := by
  constructor
  · intro t h1 h2
    obtain ⟨k, hy, hdays, hlt⟩ := yearLoop_spec (t / 86400) 0
    have hk := yearDays_eq k
    have hk' := yearDays_eq (k + 1)
    rw [yearDays] at hk'
    simp only [gregorian, yearDays, Nat.add_zero] at hk hk' hy hdays hlt
    obtain ⟨hm, h31, hcum⟩ := month_spec (isLeap (1970 + k)) (yearLoop (t / 86400) 1970).2 hlt
    have hk1 : 10 ≤ k := by omega
    have hk2 : k < 138 := by omega
    simp only [fatEpochToDatetime, hy]
    generalize yearLoop (t / 86400) 1970 = r at *
    generalize monthLoop (monthLengths (isLeap (1970 + k))) r.2 1 = q at *
    rw [if_neg (by omega), pack 4 5 (by omega) (by omega), pack 6 5 (by omega) (by omega)]
    refine ⟨_, _, rfl, ?_⟩
    generalize hdate : (_ + (q.2 + 1)) % 2 ^ 16 = date
    generalize htime : (_ + t % 86400 % 60 / 2) % 2 ^ 16 = time
    have h7 (x : ℕ) : x &&& 0x7F = x % 128 := Nat.and_two_pow_sub_one_eq_mod x 7
    have h6 (x : ℕ) : x &&& 0x3F = x % 64 := Nat.and_two_pow_sub_one_eq_mod x 6
    have h5 (x : ℕ) : x &&& 0x1F = x % 32 := Nat.and_two_pow_sub_one_eq_mod x 5
    have h4 (x : ℕ) : x &&& 0x0F = x % 16 := Nat.and_two_pow_sub_one_eq_mod x 4
    have hyear : 1980 + (date >>> 9 &&& 0x7F) = 1970 + k := by rw [h7, Nat.shiftRight_eq_div_pow]; omega
    have hmonth : date >>> 5 &&& 0x0F = q.1 := by rw [h4, Nat.shiftRight_eq_div_pow]; omega
    have hday : date &&& 0x1F = q.2 + 1 := by rw [h5]; omega
    have hsum : daysFromEpoch (1970 + k) q.1 (q.2 + 1) = t / 86400 := by
      rw [daysFromEpoch, Nat.add_sub_cancel_left]
      omega
    rw [fatDatetimeToEpoch, hyear, hmonth, hday]
    refine ⟨?_, hm.1, hm.2.1, Nat.succ_pos _, hm.2.2⟩
    rw [if_neg (by omega)]
    simp only
    rw [if_neg (by omega), rtcTimeToEpoch, hsum, h5, h6, h5, Nat.shiftRight_eq_div_pow, Nat.shiftRight_eq_div_pow]
    omega
  · intro y m d hour min sec hy hv
    have hk := yearDays_eq (y - 1970)
    rw [show 1969 + (y - 1970) = y - 1 by omega] at hk
    have hcum : ∀ leap : Bool, ∀ m < 12, cumulative.getD (m % 12) 0 + (if 2 < m + 1 ∧ leap then 1 else 0) =
        ((monthLengths leap).take m).foldl (· + ·) 0 := by decide
    have hm := hcum (isLeap y) (m - 1) (by have := hv.2.1; omega)
    rw [Nat.sub_add_cancel hv.1] at hm
    rw [rtcTimeToEpoch, daysFromEpoch]
    generalize gregorian 1969 = g at *
    omega

end NeoOS.FatTime
