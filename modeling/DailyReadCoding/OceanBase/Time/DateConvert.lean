import Mathlib.Tactic.IntervalCases

/-!
# Dates and day numbers

`ob_time_to_date`, `date_to_ob_time` and `validate_datetime` (`lib/timezone/ob_time_convert.cpp`). A
date is a number of days since 1970-01-01; the inverse guesses a year and corrects it.

Year 0 is a leap year for `IS_LEAP_YEAR`, while `LEAP_YEAR_COUNT(-1)` and `LEAP_YEAR_COUNT(0)` are
both 0: the year gets a day number less than it has days.
-/

namespace OceanBase.Time

open Bool Int Option

/-- What the conversions read and write of an `ObTime`: `HAS_TYPE_ORACLE(mode_)` and the parts. -/
structure ObTime where
  oracle : Bool
  year : ℤ
  mon : ℤ
  mday : ℤ
  hour : ℤ := 0
  minute : ℤ := 0
  sec : ℤ := 0
  usec : ℤ := 0
  date : ℤ := 0
  yday : ℤ := 0
  wday : ℤ := 0
  deriving DecidableEq

def EPOCH_YEAR4 : ℤ := 1970
def EPOCH_WDAY : ℕ := 4
def DAYS_PER_NYEAR : ℤ := 365
def DAYS_PER_WEEK : ℤ := 7
def MONS_PER_YEAR : ℕ := 12
def ZERO_DATE : ℤ := -106751991

/-- `LEAP_YEAR_COUNT`, with the division of the source. -/
def LEAP_YEAR_COUNT (y : ℤ) : ℤ := y.tdiv 4 - y.tdiv 100 + y.tdiv 400

def IS_LEAP_YEAR (y : ℤ) : Bool := y.tmod 4 = 0 ∧ (y.tmod 100 ≠ 0 ∨ y.tmod 400 = 0)

def DAYS_PER_YEAR (leap : Bool) : ℤ := if leap then 366 else 365

def DAYS_PER_MON (leap : Bool) : List ℤ :=
  if leap then [0, 31, 29, 31, 30, 31, 30, 31, 31, 30, 31, 30, 31]
  else [0, 31, 28, 31, 30, 31, 30, 31, 31, 30, 31, 30, 31]

def DAYS_UNTIL_MON (leap : Bool) : List ℤ :=
  if leap then [0, 31, 60, 91, 121, 152, 182, 213, 244, 274, 305, 335, 366]
  else [0, 31, 59, 90, 120, 151, 181, 212, 243, 273, 304, 334, 365]

def WDAY_OFFSET_ARR : List (List ℤ) :=
  [[0, 2, 3, 4, 5, 6, 7, 1], [0, 3, 4, 5, 6, 7, 1, 2], [0, 4, 5, 6, 7, 1, 2, 3],
  [0, 5, 6, 7, 1, 2, 3, 4],
    [0, 6, 7, 1, 2, 3, 4, 5], [0, 7, 1, 2, 3, 4, 5, 6], [0, 1, 2, 3, 4, 5, 6, 7],
    [0, 2, 3, 4, 5, 6, 7, 1],
    [0, 3, 4, 5, 6, 7, 1, 2], [0, 4, 5, 6, 7, 1, 2, 3], [0, 5, 6, 7, 1, 2, 3, 4],
    [0, 6, 7, 1, 2, 3, 4, 5],
    [0, 7, 1, 2, 3, 4, 5, 6]]

/-- An entry of a table; `none` is an index outside. -/
def entry {α : Type} (table : List α) (i : ℤ) : Option α := if 0 ≤ i then table[i.toNat]? else none

/-- `WDAY_OFFSET[value % DAYS_PER_WEEK][EPOCH_WDAY]`; `WDAY_OFFSET` points into the middle of its
array. -/
def wdayOf (value : ℤ) : Option ℤ := do
  let row ← entry WDAY_OFFSET_ARR (6 + value.tmod DAYS_PER_WEEK)
  entry row EPOCH_WDAY

/-- The day number, and the parts as it leaves them. -/
def obTimeToDate (t : ObTime) : Option (ℤ × ObTime) :=
  if t.date = ZERO_DATE ∧ ¬ t.oracle then some (ZERO_DATE, t)
  else do
    let untilMon ← entry (DAYS_UNTIL_MON (IS_LEAP_YEAR t.year)) (t.mon - 1)
    let yday := untilMon + t.mday
    let days_of_years := (t.year - EPOCH_YEAR4) * DAYS_PER_NYEAR
    let leap_year_count := LEAP_YEAR_COUNT (t.year - 1) - LEAP_YEAR_COUNT (EPOCH_YEAR4 - 1)
    let value := days_of_years + leap_year_count + yday - 1
    let wday ← wdayOf value
    return (value, { t with yday, wday })

/-- The loop that finds the year, and how many days of it are over. `none` is a loop that goes on.
-/
def yearLoop : ℕ → ℤ → ℤ → Option (ℤ × ℤ)
  | 0, _, _ => none
  | rounds + 1, days, year =>
    if days < 0 ∨ days ≥ DAYS_PER_YEAR (IS_LEAP_YEAR year) then
      let new_year := year + days.tdiv DAYS_PER_NYEAR - (if days < 0 then 1 else 0)
      yearLoop rounds
        (days - ((new_year - year) * DAYS_PER_NYEAR + LEAP_YEAR_COUNT (new_year - 1)
        - LEAP_YEAR_COUNT (year - 1)))
        new_year
    else some (days, year)

/-- The loop that finds the month. -/
def monthLoop (cur_days_until_mon : List ℤ) (days : ℤ) : ℕ → ℕ → Option ℕ
  | 0, month => some month
  | rounds + 1, month =>
    if month < MONS_PER_YEAR then do
      let untilMon ← cur_days_until_mon[month]?
      if days ≥ untilMon then monthLoop cur_days_until_mon days rounds (month + 1) else some month
    else some month

def dateToObTime (value : ℤ) (t : ObTime) : Option ObTime :=
  if ¬ t.oracle ∧ value = ZERO_DATE then
    some { t with
      year := 0, mon := 0, mday := 0, hour := 0, minute := 0, sec := 0, usec := 0
      date := ZERO_DATE }
  else do
    let (days, year) ← yearLoop 10 value EPOCH_YEAR4
    let wday ← wdayOf value
    let cur_days_until_mon := DAYS_UNTIL_MON (IS_LEAP_YEAR year)
    let month ← monthLoop cur_days_until_mon days MONS_PER_YEAR 1
    let untilMon ← entry cur_days_until_mon (month - 1)
    return { t with
      date := value, year, yday := days + 1, wday, mon := month, mday := days - untilMon + 1 }

/-! ## `validate_datetime` -/

inductive Error
  | OB_INVALID_DATE_VALUE
  deriving DecidableEq

def ObTime.parts (t : ObTime) : List ℤ := [t.year, t.mon, t.mday, t.hour, t.minute, t.sec, t.usec]

def DT_MON : ℕ := 1
def DT_MDAY : ℕ := 2

/-- `TZ_PART_MIN` or `DT_PART_MIN` -/
def partMin (oracle : Bool) : List ℤ :=
    if oracle then [1, 1, 1, 0, 0, 0, 0] else [0, 1, 1, 0, 0, 0, 0]

/-- `TZ_PART_MAX` or `DT_PART_MAX` -/
def partMax (oracle : Bool) : List ℤ :=
  if oracle then [9999, 12, 31, 23, 59, 59, 1000000000] else [9999, 12, 31, 23, 59, 59, 1000000]

/-- One round of the loop over the parts. -/
def partAccepted (t : ObTime) (is_dayofmonth : Bool) (i : ℕ) : Bool :=
  (is_dayofmonth && (i == DT_MON || i == DT_MDAY) && t.parts.getD i 0 == 0) ||
    (decide ((partMin t.oracle).getD i 0 ≤ t.parts.getD i 0) &&
      decide (t.parts.getD i 0 ≤ (partMax t.oracle).getD i 0))

/-- Whether the day is one of the month. -/
def dayAccepted (t : ObTime) (is_dayofmonth : Bool) : Bool :=
  (is_dayofmonth && (t.mday == 0 || (t.mon == 0 && decide (t.mday ≤ 31)))) ||
    match entry (DAYS_PER_MON (IS_LEAP_YEAR t.year)) t.mon with
    | some days => decide (t.mday ≤ days)
    | none => false

def validateDatetime (t : ObTime) (is_dayofmonth : Bool) : Except Error ObTime :=
  if ¬ t.oracle ∧ ¬ is_dayofmonth ∧ t.mon = 0 ∧ t.mday = 0 then
    if t.year = 0 ∧ t.hour = 0 ∧ t.minute = 0 ∧ t.sec = 0 ∧
      t.usec = 0 then .ok { t with date := ZERO_DATE }
    else .error .OB_INVALID_DATE_VALUE
  else if (List.range 7).all (partAccepted t is_dayofmonth)
    && dayAccepted t is_dayofmonth then .ok t
  else .error .OB_INVALID_DATE_VALUE

/-- What `validate_datetime` lets through apart from the dates without month or day. -/
structure IsDate (t : ObTime) : Prop where
  year_nonneg : 0 ≤ t.year
  year_le : t.year ≤ 9999
  mon_pos : 1 ≤ t.mon
  mon_le : t.mon ≤ 12
  mday_pos : 1 ≤ t.mday
  mday_le : ∃ days, entry (DAYS_PER_MON (IS_LEAP_YEAR t.year)) t.mon = some days ∧ t.mday ≤ days

variable {is_dayofmonth : Bool}

/-- A part that must not be left out is within its limits. -/
lemma partAccepted_range {t : ObTime} {i : ℕ} (h : partAccepted t is_dayofmonth i = true)
    (hpart : (i ≠ DT_MON ∧ i ≠ DT_MDAY) ∨ t.parts.getD i 0 ≠ 0) :
    (partMin t.oracle).getD i 0 ≤ t.parts.getD i 0 ∧
    t.parts.getD i 0 ≤ (partMax t.oracle).getD i 0 := by
  rw [partAccepted, or_eq_true] at h
  rcases h with hskipped | hlimits
  · simp only [and_eq_true, or_eq_true, beq_iff_eq] at hskipped
    obtain ⟨⟨-, hindex⟩, hzero⟩ := hskipped
    rcases hpart with ⟨hmon, hmday⟩ | hne
    · exact (hindex.elim hmon hmday).elim
    · exact absurd hzero hne
  · simpa using hlimits

lemma dayAccepted_cases {t : ObTime} (h : dayAccepted t is_dayofmonth = true)
    (hmon : t.mon ≠ 0) (hmday : t.mday ≠ 0) :
    ∃ days, entry (DAYS_PER_MON (IS_LEAP_YEAR t.year)) t.mon = some days ∧ t.mday ≤ days := by
  unfold dayAccepted at h
  cases hdays : entry (DAYS_PER_MON (IS_LEAP_YEAR t.year)) t.mon with
  | none => simp [hdays, hmon, hmday] at h
  | some days =>
    simpa [hdays, hmon, hmday] using h

/-- What an accepted date is. -/
lemma validateDatetime_cases {t t' : ObTime} (h : validateDatetime t is_dayofmonth = .ok t')
    (hmon : t.mon ≠ 0) (hmday : t.mday ≠ 0) : t' = t ∧ IsDate t := by
  have hlimits : ∀ oracle : Bool, 0 ≤ (partMin oracle).getD 0 0 ∧ (partMax oracle).getD 0 0 ≤ 9999 ∧
      1 ≤ (partMin oracle).getD 1 0 ∧ (partMax oracle).getD 1 0 ≤ 12 ∧
      1 ≤ (partMin oracle).getD 2 0 := by
    decide
  obtain ⟨hyearMin, hyearMax, hmonMin, hmonMax, hmdayMin⟩ := hlimits t.oracle
  unfold validateDatetime at h
  split_ifs at h with hzero hrest hall
  · exact absurd hzero.2.2.1 hmon
  · rw [and_eq_true] at hall
    obtain ⟨hparts, hday⟩ := hall
    obtain ⟨hyear, hyear'⟩ :=
      partAccepted_range (List.all_eq_true.mp hparts 0 (by simp)) (.inl (by decide))
    obtain ⟨hmonth, hmonth'⟩ :=
      partAccepted_range (List.all_eq_true.mp hparts 1 (by simp)) (.inr hmon)
    obtain ⟨hmday', -⟩ := partAccepted_range (List.all_eq_true.mp hparts 2 (by simp)) (.inr hmday)
    refine ⟨(Except.ok.inj h).symm, ?_⟩
    exact ⟨hyearMin.trans hyear, hyear'.trans hyearMax, hmonMin.trans hmonth, hmonth'.trans hmonMax,
      hmdayMin.trans hmday', dayAccepted_cases hday hmon hmday⟩

/-! ## Leap years -/

variable {a y b d : ℤ}

lemma leapYearCount_of_nonneg (h : 0 ≤ y) : LEAP_YEAR_COUNT y = y / 4 - y / 100 + y / 400 := by
  simp only [LEAP_YEAR_COUNT, tdiv_eq_ediv_of_nonneg h]

lemma leapYearCount_of_neg (h : y < 0) :
    LEAP_YEAR_COUNT y = -((-y) / 4 - (-y) / 100 + (-y) / 400) := by
  have hneg : LEAP_YEAR_COUNT (-y) = -LEAP_YEAR_COUNT y := by
    simp only [LEAP_YEAR_COUNT, Int.neg_tdiv]
    omega
  rw [← leapYearCount_of_nonneg (by omega), hneg, neg_neg]

/-- Over some years the count grows by no more than one in four, and one. -/
lemma leapYearCount_sub (h : a ≤ b) :
    0 ≤ LEAP_YEAR_COUNT b - LEAP_YEAR_COUNT a ∧
    4 * (LEAP_YEAR_COUNT b - LEAP_YEAR_COUNT a) ≤ b - a + 3 := by
  rcases le_or_gt 0 a with ha | ha
  · rw [leapYearCount_of_nonneg ha, leapYearCount_of_nonneg (ha.trans h)]
    omega
  · rcases le_or_gt 0 b with hb | hb
    · rw [leapYearCount_of_neg ha, leapYearCount_of_nonneg hb]
      omega
    · rw [leapYearCount_of_neg ha, leapYearCount_of_neg hb]
      omega

lemma isLeapYear_iff (y : ℤ) : IS_LEAP_YEAR y = true ↔ y % 4 = 0 ∧ (y % 100 ≠ 0 ∨ y % 400 = 0) := by
  have hmod : ∀ n : ℤ, y.tmod n = 0 ↔ y % n = 0 := fun n => by
    rw [← dvd_iff_tmod_eq_zero, ← dvd_iff_emod_eq_zero]
  simp [IS_LEAP_YEAR, hmod]

/-- From year 1 on the count goes up with the leap years. -/
lemma leapYearCount_step (h : 1 ≤ y) :
    LEAP_YEAR_COUNT y - LEAP_YEAR_COUNT (y - 1) = if IS_LEAP_YEAR y then 1 else 0 := by
  rw [leapYearCount_of_nonneg (by omega), leapYearCount_of_nonneg (by omega)]
  split_ifs with hleap
  · rw [isLeapYear_iff] at hleap
    omega
  · rw [isLeapYear_iff] at hleap
    omega

/-! ## The year -/

/-- The day number of the first day of a year, as the source counts it. -/
def yearStart (y : ℤ) : ℤ := (y - 1970) * 365 + LEAP_YEAR_COUNT (y - 1) - LEAP_YEAR_COUNT 1969

lemma daysPerYear_le (leap : Bool) : 365 ≤ DAYS_PER_YEAR leap ∧ DAYS_PER_YEAR leap ≤ 366 := by
  cases leap <;> decide

/-- Years are as long as they should be, from year 1 on. -/
lemma yearStart_succ (h : 1 ≤ y) : yearStart (y + 1) = yearStart y + DAYS_PER_YEAR
    (IS_LEAP_YEAR y) := by
  have hstep := leapYearCount_step h
  unfold yearStart DAYS_PER_YEAR
  rw [add_sub_cancel_right]
  split_ifs at hstep ⊢ with hleap <;> omega

lemma yearStart_sub (h : a ≤ b) : 365 * (b - a) ≤ yearStart b - yearStart a ∧
    4 * (yearStart b - yearStart a) ≤ 1461 * (b - a) + 3 := by
  have hcount := leapYearCount_sub (by omega : a - 1 ≤ b - 1)
  unfold yearStart
  omega

lemma yearLoop_inside {days year : ℤ} (h : 0 ≤ days) (h' : days < DAYS_PER_YEAR (IS_LEAP_YEAR year))
    (rounds : ℕ) :
    yearLoop (rounds + 1) days year = some (days, year) :=
  if_neg (by omega)

lemma yearLoop_more {days year : ℤ} (h : days < 0 ∨ days ≥ DAYS_PER_YEAR (IS_LEAP_YEAR year))
    (rounds : ℕ) :
    ∃ new_year, new_year = year + days.tdiv 365 - (if days < 0 then 1 else 0) ∧
      yearLoop (rounds + 1) days year =
        yearLoop rounds (days + yearStart year - yearStart new_year) new_year := by
  have hdays : ∀ new_year, days + yearStart year - yearStart new_year =
      days - ((new_year - year) * 365 + LEAP_YEAR_COUNT (new_year - 1) - LEAP_YEAR_COUNT
      (year - 1)) := by
    unfold yearStart
    omega
  refine ⟨_, rfl, ?_⟩
  rw [hdays, yearLoop, if_pos h]
  rfl

/-- Too many days: the next year is not too early. -/
lemma yearLoop_ahead {days year : ℤ} (h : DAYS_PER_YEAR (IS_LEAP_YEAR year) ≤ days) (rounds : ℕ) :
    yearLoop (rounds + 1) days year =
      yearLoop rounds (days + yearStart year - yearStart (year + days / 365))
      (year + days / 365) := by
  have hlength := daysPerYear_le (IS_LEAP_YEAR year)
  obtain ⟨new_year, hyear, hloop⟩ := yearLoop_more (.inr h) rounds
  rw [tdiv_eq_ediv_of_nonneg (by omega), if_neg (by omega), sub_zero] at hyear
  rw [hloop, hyear]

/-- Too few days: the next year is not too late. -/
lemma yearLoop_back {days year : ℤ} (h : days < 0) (rounds : ℕ) : yearLoop (rounds + 1) days year =
      yearLoop rounds (days + yearStart year - yearStart (year - ((-days) / 365 + 1)))
        (year - ((-days) / 365 + 1)) := by
  have hmore : days < 0 ∨ days ≥ DAYS_PER_YEAR (IS_LEAP_YEAR year) := .inl h
  obtain ⟨new_year, hyear, hloop⟩ := yearLoop_more hmore rounds
  have hdiv : days.tdiv 365 = -((-days) / 365) := by
    rw [← tdiv_eq_ediv_of_nonneg (a := -days) (by omega), Int.neg_tdiv, neg_neg]
  obtain rfl : new_year = year - ((-days) / 365 + 1) := by omega
  exact hloop

variable {rounds m : ℕ}

/-- What the loop returns is the same day. -/
lemma yearLoop_sound {days year : ℤ} (h : yearLoop rounds days year = some (d, y)) :
    d + yearStart y = days + yearStart year ∧ 0 ≤ d ∧ d < DAYS_PER_YEAR (IS_LEAP_YEAR y) := by
  induction rounds generalizing days year with
  | zero => cases h
  | succ rounds ih =>
    by_cases hmore : days < 0 ∨ days ≥ DAYS_PER_YEAR (IS_LEAP_YEAR year)
    · obtain ⟨new_year, -, hloop⟩ := yearLoop_more hmore rounds
      rw [hloop] at h
      have hrest := ih h
      omega
    · rw [yearLoop_inside (by omega) (by omega)] at h
      obtain ⟨rfl, rfl⟩ := Prod.mk.inj (Option.some.inj h)
      omega

/-! ### The loop ends

The first guess is off by one in four years at most, the next one by a few days. -/

section Settles

variable {days year : ℤ}

/-- One day too far, in a year that is not before year 0. -/
lemma yearLoop_settles_overshot (hday : yearStart 0 ≤ -1 + yearStart year) (n : ℕ) :
    (yearLoop (n + 2) (-1) year).isSome := by
  rw [yearLoop_back (by omega)]
  have hquotient : (-(-1 : ℤ)) / 365 + 1 = 1 := by decide
  rw [hquotient]
  have hstep := yearStart_sub (by omega : year - 1 ≤ year)
  rw [yearLoop_inside (by omega)]
  · rfl
  · -- The year before has 366 days only if it is a leap year, which a year before year 1 need
    -- not be.
    rcases lt_or_ge 1 year with hpos | hnonpos
    · have hsucc := yearStart_succ (by omega : 1 ≤ year - 1)
      rw [sub_add_cancel] at hsucc
      omega
    · have hzero := yearStart_sub hnonpos
      have hstart : yearStart 0 = -719527 ∧ yearStart 1 = -719162 := by decide
      obtain rfl : year = 1 := by omega
      decide

lemma yearLoop_settles_near (hlow : 0 ≤ days) (hhigh : days < 900)
    (hday : yearStart 0 ≤ days + yearStart year)
    (n : ℕ) : (yearLoop (n + 3) days year).isSome := by
  rcases lt_or_ge days (DAYS_PER_YEAR (IS_LEAP_YEAR year)) with hinside | hmore
  · rw [yearLoop_inside hlow hinside]
    rfl
  · have hstep := yearStart_sub (by omega : year ≤ year + days / 365)
    rw [yearLoop_ahead hmore]
    have hlength' := daysPerYear_le (IS_LEAP_YEAR (year + days / 365))
    rcases lt_or_ge (days + yearStart year - yearStart (year + days / 365)) 0 with hneg | hnonneg
    · obtain hone : days + yearStart year - yearStart (year + days / 365) = -1 := by omega
      rw [hone]
      exact yearLoop_settles_overshot (by omega) n
    · rw [yearLoop_inside hnonneg (by omega)]
      rfl

lemma yearLoop_settles_back (hneg : days < 0) (hlow : -750000 ≤ days)
    (hday : yearStart 0 ≤ days + yearStart year)
    (n : ℕ) : (yearLoop (n + 4) days year).isSome := by
  have hstep := yearStart_sub (by omega : year - ((-days) / 365 + 1) ≤ year)
  rw [yearLoop_back hneg]
  exact yearLoop_settles_near (by omega) (by omega) (by omega) n

/-- The correction keeps the day, and ends. -/
lemma yearLoop_settles (hlow : -750000 ≤ days) (hhigh : days < 3000000)
    (hday : yearStart 0 ≤ days + yearStart year)
    (n : ℕ) : (yearLoop (n + 5) days year).isSome := by
  rcases lt_or_ge days 0 with hneg | hnonneg
  · exact yearLoop_settles_back hneg hlow hday (n + 1)
  rcases lt_or_ge days (DAYS_PER_YEAR (IS_LEAP_YEAR year)) with hinside | hmore
  · rw [yearLoop_inside hnonneg hinside]
    rfl
  · have hstep := yearStart_sub (by omega : year ≤ year + days / 365)
    rw [yearLoop_ahead hmore]
    rcases lt_or_ge (days + yearStart year - yearStart (year + days / 365)) 0 with hneg' | hnonneg'
    · exact yearLoop_settles_back hneg' (by omega) (by omega) n
    · exact yearLoop_settles_near hnonneg' (by omega) (by omega) (n + 1)

end Settles

/-- A day has one year, but where year 0 meets year 1. -/
lemma year_unique {z e : ℤ} (hz : 0 ≤ z) (hd : 0 ≤ d)
    (hd' : d < DAYS_PER_YEAR (IS_LEAP_YEAR y)) (he : 0 ≤ e)
    (he' : e < DAYS_PER_YEAR (IS_LEAP_YEAR z)) (hsame : d + yearStart y = e + yearStart z) :
    y = z ∨ (y = 0 ∧ z = 1 ∧ e = 0) ∨ (y = 1 ∧ z = 0 ∧ e = 365) := by
  have hlengthy := daysPerYear_le (IS_LEAP_YEAR y)
  have hlengthz := daysPerYear_le (IS_LEAP_YEAR z)
  have hzero : yearStart 1 = yearStart 0 + 365 := by decide
  rcases lt_trichotomy y z with hlt | heq | hgt
  · have hlater := yearStart_sub (by omega : y + 1 ≤ z)
    rcases lt_trichotomy y 0 with hneg | rfl | hpos
    · have hfar := yearStart_sub (by omega : y ≤ z)
      obtain rfl : y = -1 := by omega
      have hshort : DAYS_PER_YEAR (IS_LEAP_YEAR (-1)) = 365 := by decide
      omega
    · rw [zero_add] at hlater
      omega
    · have hsucc := yearStart_succ (by omega : 1 ≤ y)
      omega
  · exact .inl heq
  · have hlater := yearStart_sub (by omega : z + 1 ≤ y)
    rcases hz.eq_or_lt with rfl | hpos
    · rw [zero_add] at hlater
      omega
    · have hsucc := yearStart_succ (by omega : 1 ≤ z)
      omega

/-- The last day of year 0 and the first of year 1 have one number, and it is that of year 1. -/
lemma yearLoop_yearOne : yearLoop 10 (-719162) 1970 = some (0, 1) := by decide

/-- **The year is found**, of every day but the last of year 0. -/
lemma yearLoop_eq (hy : 0 ≤ y) (hy' : y ≤ 9999) (hd : 0 ≤ d)
    (hd' : d < DAYS_PER_YEAR (IS_LEAP_YEAR y)) :
    yearLoop 10 (yearStart y + d) EPOCH_YEAR4 = if y = 0 ∧ d = 365 then some (0, 1)
    else some (d, y) := by
  have hlength := daysPerYear_le (IS_LEAP_YEAR y)
  have hlow := yearStart_sub hy
  have hstarts : yearStart 0 = -719527 ∧ yearStart 1 = -719162 ∧ yearStart 1970 = 0 ∧
      yearStart 9999 = 2932532 := by decide
  obtain ⟨hstart0, hstart1, hepoch, hlast⟩ := hstarts
  obtain ⟨⟨e, z⟩, hloop⟩ := isSome_iff_exists.mp
    (yearLoop_settles (by omega : -750000 ≤ yearStart y + d) (by omega)
      (by rw [hepoch]; omega : yearStart 0 ≤ yearStart y + d + yearStart 1970) 5)
  obtain ⟨hsame, he, he'⟩ := yearLoop_sound hloop
  have hcases := year_unique hy he he' hd hd' (by omega)
  have hone : yearStart y + d = -719162 → yearLoop 10 (yearStart y + d) 1970 = some (0, 1) := by
    intro hvalue
    rw [hvalue, yearLoop_yearOne]
  change yearLoop 10 (yearStart y + d) 1970 = _
  rcases hcases with rfl | ⟨rfl, rfl, rfl⟩ | ⟨rfl, rfl, rfl⟩
  · split_ifs with hlastDay
    · exact hone (by omega)
    · rw [hloop]
      congr 2
      omega
  · exact hone (by omega)
  · exact hone (by omega)

/-! ## Month and day -/

/-- The days of a year before month `m + 1`. -/
def untilMonth (leap : Bool) (m : ℕ) : ℤ := (DAYS_UNTIL_MON leap).getD m 0

-- The tables have twelve months in two kinds of years.
lemma daysUntilMon_getElem (leap : Bool) (h : m ≤ 12) :
    (DAYS_UNTIL_MON leap)[m]? = some (untilMonth leap m) := by
  revert m
  cases leap <;> decide

lemma daysPerMon_getElem (leap : Bool) (h : m < 12) :
    (DAYS_PER_MON leap)[m + 1]? = some (untilMonth leap (m + 1) - untilMonth leap m) := by
  revert m
  cases leap <;> decide

lemma untilMonth_succ (leap : Bool) (h : m < 12) : untilMonth leap m + 28
    ≤ untilMonth leap (m + 1) := by
  revert m
  cases leap <;> decide

lemma untilMonth_ends (leap : Bool) : untilMonth leap 0 = 0 ∧
    untilMonth leap 12 = DAYS_PER_YEAR leap ∧
    untilMonth leap 11 = DAYS_PER_YEAR leap - 31 := by
  cases leap <;> decide

lemma untilMonth_mono (leap : Bool) {k : ℕ} (h : m ≤ k) (h' : k ≤ 12) :
    untilMonth leap m ≤ untilMonth leap k := by
  induction k, h using Nat.le_induction with
  | base => rfl
  | succ k hmk ih =>
    have hstep := untilMonth_succ leap (by omega : k < 12)
    omega

/-- The month is the one whose days hold the day. -/
lemma monthLoop_eq {leap : Bool} {days : ℤ} (hm : m < 12) (hlow : untilMonth leap m ≤ days)
    (hhigh : days < untilMonth leap (m + 1)) {month : ℕ} (hmonth : month ≤ m + 1)
    (hrounds : m + 1 ≤ rounds + month) : monthLoop (DAYS_UNTIL_MON leap) days rounds month
    = some (m + 1) := by
  induction rounds generalizing month with
  | zero =>
    obtain rfl : month = m + 1 := by omega
    rfl
  | succ rounds ih =>
    rw [monthLoop]
    by_cases hend : month < MONS_PER_YEAR
    · have hle : month ≤ 12 := hend.le
      rw [if_pos hend, daysUntilMon_getElem leap hle]
      simp only [bind_eq_bind, bind_some]
      rcases hmonth.eq_or_lt with rfl | hlt
      · exact if_neg (by omega)
      · have hmono := untilMonth_mono leap (by omega : month ≤ m) (by omega)
        rw [if_pos (by omega)]
        exact ih (by omega) (by omega)
    · have hend' : ¬ month < 12 := hend
      rw [if_neg hend]
      congr 1
      omega

/-- How many days of its year are over at a date. -/
def dayOffset (t : ObTime) : ℤ := untilMonth (IS_LEAP_YEAR t.year) (t.mon - 1).toNat + t.mday - 1

lemma IsDate.exists_month {t : ObTime} (h : IsDate t) : ∃ m : ℕ, m < 12 ∧ t.mon = m + 1 ∧
    dayOffset t = untilMonth (IS_LEAP_YEAR t.year) m + t.mday - 1 ∧
    t.mday ≤ untilMonth (IS_LEAP_YEAR t.year) (m + 1) - untilMonth (IS_LEAP_YEAR t.year) m := by
  have hpos := h.mon_pos
  have hle := h.mon_le
  obtain ⟨m, hm⟩ := eq_ofNat_of_zero_le (by omega : 0 ≤ t.mon - 1)
  obtain ⟨days, hdays, hmday⟩ := h.mday_le
  have hmon : t.mon = ((m + 1 : ℕ) : ℤ) := by omega
  rw [hmon, entry, toNat_natCast, daysPerMon_getElem _ (by omega)] at hdays
  refine ⟨m, by omega, by omega, ?_, ?_⟩
  · rw [dayOffset, hm, toNat_natCast]
  · rwa [Option.some.inj hdays]

lemma IsDate.dayOffset_bounds {t : ObTime} (h : IsDate t) :
    0 ≤ dayOffset t ∧ dayOffset t < DAYS_PER_YEAR (IS_LEAP_YEAR t.year) := by
  obtain ⟨m, hm, -, hoffset, hmday⟩ := h.exists_month
  have hends := untilMonth_ends (IS_LEAP_YEAR t.year)
  have hlow := untilMonth_mono (IS_LEAP_YEAR t.year) (by omega : 0 ≤ m) (by omega)
  have hhigh := untilMonth_mono (IS_LEAP_YEAR t.year) (by omega : m + 1 ≤ 12) le_rfl
  have hpos := h.mday_pos
  omega

lemma wdayOf_isSome (value : ℤ) : ∃ wday, wdayOf value = some wday := by
  have hlow := lt_tmod_of_pos value (by decide : (0 : ℤ) < 7)
  have hhigh := tmod_lt_of_pos value (by decide : (0 : ℤ) < 7)
  rw [wdayOf, DAYS_PER_WEEK]
  generalize value.tmod 7 = r at hlow hhigh ⊢
  interval_cases r <;> exact ⟨_, rfl⟩

lemma obTimeToDate_eq {t : ObTime} (h : IsDate t) (hmark : t.date ≠ ZERO_DATE) :
    ∃ after, obTimeToDate t = some (yearStart t.year + dayOffset t, after) ∧
    after.yday = dayOffset t + 1 := by
  obtain ⟨m, hm, hmon, hoffset, -⟩ := h.exists_month
  have hentry : entry (DAYS_UNTIL_MON (IS_LEAP_YEAR t.year)) (t.mon - 1) =
      some (untilMonth (IS_LEAP_YEAR t.year) m) := by
    rw [hmon, add_sub_cancel_right, entry, if_pos (by omega), toNat_natCast,
      daysUntilMon_getElem _ (by omega)]
  have hvalue : (t.year - EPOCH_YEAR4) * DAYS_PER_NYEAR + (LEAP_YEAR_COUNT (t.year - 1) -
      LEAP_YEAR_COUNT (EPOCH_YEAR4 - 1)) + (untilMonth (IS_LEAP_YEAR t.year) m + t.mday) - 1 =
      yearStart t.year + dayOffset t := by
    rw [yearStart, EPOCH_YEAR4, DAYS_PER_NYEAR, (by decide : (1970 : ℤ) - 1 = 1969)]
    omega
  obtain ⟨wday, hwday⟩ := wdayOf_isSome (yearStart t.year + dayOffset t)
  rw [obTimeToDate, if_neg fun hzero => hmark hzero.1, hentry]
  simp only [bind_eq_bind, bind_some, hvalue, hwday]
  refine ⟨_, rfl, ?_⟩
  dsimp only
  omega

lemma dateToObTime_eq {value : ℤ} (out : ObTime) (hvalue : value ≠ ZERO_DATE)
    (hyear : yearLoop 10 value EPOCH_YEAR4 = some (d, y)) (hm : m < 12)
    (hlow : untilMonth (IS_LEAP_YEAR y) m ≤ d) (hhigh : d < untilMonth (IS_LEAP_YEAR y) (m + 1)) :
    ∃ back, dateToObTime value out = some back ∧ back.year = y ∧ back.mon = m + 1 ∧
      back.mday = d - untilMonth (IS_LEAP_YEAR y) m + 1 ∧ back.yday = d + 1 := by
  obtain ⟨wday, hwday⟩ := wdayOf_isSome value
  have hmonth : monthLoop (DAYS_UNTIL_MON (IS_LEAP_YEAR y)) d MONS_PER_YEAR 1 = some (m + 1) :=
    monthLoop_eq hm hlow hhigh (by omega) (by rw [MONS_PER_YEAR]; omega)
  have hentry : entry (DAYS_UNTIL_MON (IS_LEAP_YEAR y)) (((m + 1 : ℕ) : ℤ) - 1) = some
    (untilMonth (IS_LEAP_YEAR y) m) := by
    rw [Nat.cast_add, Nat.cast_one, add_sub_cancel_right, entry, if_pos (by omega), toNat_natCast,
      daysUntilMon_getElem _ (by omega)]
  rw [dateToObTime, if_neg fun hzero => hvalue hzero.2, hyear, hwday]
  simp only [bind_eq_bind, bind_some, hmonth, hentry]
  exact ⟨_, rfl, rfl, by simp, rfl, rfl⟩

/-! ## The three properties -/

/-- A date that `validate_datetime` accepts, with month and day; callers test for the zero date. -/
structure Accepted (t : ObTime) : Prop where
  valid : ∃ is_dayofmonth, validateDatetime t is_dayofmonth = .ok t
  mon_ne : t.mon ≠ 0
  mday_ne : t.mday ≠ 0
  unmarked : t.date ≠ ZERO_DATE

lemma Accepted.isDate {t : ObTime} (h : Accepted t) : IsDate t := by
  obtain ⟨is_dayofmonth, hvalid⟩ := h.valid
  exact (validateDatetime_cases hvalid h.mon_ne h.mday_ne).2

/-- The order of dates. -/
def Before (t t' : ObTime) : Prop :=
  t.year < t'.year ∨ (t.year = t'.year ∧ (t.mon < t'.mon ∨ (t.mon = t'.mon ∧ t.mday < t'.mday)))
  deriving Decidable

/-- The next day of the calendar. -/
def IsNextDay (t t' : ObTime) : Prop :=
  (t'.year = t.year ∧ t'.mon = t.mon ∧ t'.mday = t.mday + 1) ∨
  (t'.year = t.year ∧ t'.mon = t.mon + 1 ∧ t'.mday = 1 ∧
    entry (DAYS_PER_MON (IS_LEAP_YEAR t.year)) t.mon = some t.mday) ∨
  (t'.year = t.year + 1 ∧ t'.mon = 1 ∧ t'.mday = 1 ∧ t.mon = 12 ∧ t.mday = 31)
  deriving Decidable

/-- 0000-12-31 -/
def IsLastOfYearZero (t : ObTime) : Prop := t.year = 0 ∧ t.mon = 12 ∧ t.mday = 31
  deriving Decidable

/-- 0001-01-01 -/
def IsFirstOfYearOne (t : ObTime) : Prop := t.year = 1 ∧ t.mon = 1 ∧ t.mday = 1
  deriving Decidable

section Dates

variable {t t' : ObTime}

lemma IsDate.dayOffset_eq_last (h : IsDate t) (hyear : t.year = 0) :
    dayOffset t = 365 ↔ IsLastOfYearZero t := by
  obtain ⟨m, hm, hmon, hoffset, hmday⟩ := h.exists_month
  have hleap : IS_LEAP_YEAR t.year = true := by rw [hyear]; decide
  rw [hleap] at hoffset hmday
  have hends : untilMonth true 12 = 366 ∧ untilMonth true 11 = 335 := by decide
  unfold IsLastOfYearZero
  constructor
  · intro hlast
    obtain rfl : m = 11 := by
      by_contra hne
      have hmono := untilMonth_mono true (by omega : m + 1 ≤ 11) (by omega)
      omega
    omega
  · rintro ⟨-, hmon', hday⟩
    obtain rfl : m = 11 := by omega
    omega

lemma IsDate.dayOffset_eq_zero (h : IsDate t) : dayOffset t = 0 ↔ t.mon = 1 ∧ t.mday = 1 := by
  obtain ⟨m, hm, hmon, hoffset, hmday⟩ := h.exists_month
  have hends := untilMonth_ends (IS_LEAP_YEAR t.year)
  have hpos := h.mday_pos
  constructor
  · intro hfirst
    obtain rfl : m = 0 := by
      by_contra hne
      have hstep := untilMonth_succ (IS_LEAP_YEAR t.year) (by omega : 0 < 12)
      have hmono := untilMonth_mono (IS_LEAP_YEAR t.year) (by omega : 0 + 1 ≤ m) (by omega)
      omega
    omega
  · rintro ⟨hmon', hday⟩
    obtain rfl : m = 0 := by omega
    omega

/-- Within a year the offset follows the calendar. -/
lemma IsDate.dayOffset_lt (h : IsDate t) (h' : IsDate t') (hyear : t.year = t'.year)
    (hbefore : t.mon < t'.mon ∨ (t.mon = t'.mon ∧ t.mday < t'.mday)) : dayOffset t
    < dayOffset t' := by
  obtain ⟨m, hm, hmon, hoffset, hmday⟩ := h.exists_month
  obtain ⟨m', hm', hmon', hoffset', -⟩ := h'.exists_month
  rw [← hyear] at hoffset'
  have hpos := h'.mday_pos
  rcases hbefore with hlt | ⟨heq, hlt⟩
  · have hmono := untilMonth_mono (IS_LEAP_YEAR t.year) (by omega : m + 1 ≤ m') (by omega)
    omega
  · obtain rfl : m = m' := by omega
    omega

/-- The day number, as the source counts it. -/
def dayNumber (t : ObTime) : ℤ := yearStart t.year + dayOffset t

lemma IsDate.dayNumber_lt_iff (h : IsDate t) (h' : IsDate t') (hbefore : Before t t') :
    dayNumber t < dayNumber t' ↔ ¬ (IsLastOfYearZero t ∧ IsFirstOfYearOne t') := by
  have hbounds := h.dayOffset_bounds
  have hbounds' := h'.dayOffset_bounds
  have hnonneg := h.year_nonneg
  unfold dayNumber
  rcases hbefore with hyear | ⟨hyear, hwithin⟩
  · have hlater := yearStart_sub (by omega : t.year + 1 ≤ t'.year)
    rcases hnonneg.eq_or_lt with hzero | hpos
    · -- Year 0 has a day more than its numbers.
      have hlast := h.dayOffset_eq_last hzero.symm
      have hfirst := h'.dayOffset_eq_zero
      have hleap : DAYS_PER_YEAR (IS_LEAP_YEAR t.year) = 366 := by rw [← hzero]; decide
      have hstart : yearStart 1 = yearStart 0 + 365 := by decide
      rw [← hzero, zero_add] at hlater
      rw [← hlast, IsFirstOfYearOne, ← hzero]
      rcases (by omega : t'.year = 1 ∨ 1 < t'.year) with hone | hmore
      · omega
      · omega
    · have hsucc := yearStart_succ (by omega : 1 ≤ t.year)
      refine iff_of_true (by omega) fun hboth => ?_
      have := hboth.1.1
      omega
  · have hlt := h.dayOffset_lt h' hyear hwithin
    refine iff_of_true (by rw [hyear]; omega) fun hboth => ?_
    have hzero := hboth.1.1
    have hone := hboth.2.1
    omega

lemma IsDate.dayNumber_next_iff (h : IsDate t) (h' : IsDate t') (hnext : IsNextDay t t') :
    dayNumber t' = dayNumber t + 1 ↔ ¬ IsLastOfYearZero t := by
  obtain ⟨m, hm, hmon, hoffset, hmday⟩ := h.exists_month
  obtain ⟨m', hm', hmon', hoffset', hmday'⟩ := h'.exists_month
  have hends := untilMonth_ends (IS_LEAP_YEAR t.year)
  unfold dayNumber
  rcases hnext with ⟨hyear, hsame, hday⟩ | ⟨hyear, hsucc, hday, hlast⟩ | ⟨hyear, hjan,
    hday, hdec, hlast⟩
  · obtain rfl : m' = m := by omega
    rw [hyear] at hoffset' hmday' ⊢
    refine iff_of_true (by omega) fun hend => ?_
    obtain rfl : m' = 11 := by have := hend.2.1; omega
    change t'.mday ≤ untilMonth (IS_LEAP_YEAR t.year) 12 - untilMonth
      (IS_LEAP_YEAR t.year) 11 at hmday'
    have := hend.2.2
    omega
  · obtain rfl : m' = m + 1 := by omega
    rw [hmon, entry] at hlast
    have hcast : ((m : ℤ) + 1).toNat = m + 1 := by omega
    rw [hcast, daysPerMon_getElem _ hm] at hlast
    have hlength := Option.some.inj hlast
    rw [hyear] at hoffset' ⊢
    refine iff_of_true (by omega) fun hend => ?_
    have := hend.2.1
    omega
  · obtain rfl : m' = 0 := by omega
    obtain rfl : m = 11 := by omega
    have hends' := untilMonth_ends (IS_LEAP_YEAR t'.year)
    have hnonneg := h.year_nonneg
    rw [hyear] at hoffset' hends' ⊢
    rcases hnonneg.eq_or_lt with hzero | hpos
    · have hstart : yearStart (0 + 1) = yearStart 0 + 365 := by decide
      have hleap : DAYS_PER_YEAR (IS_LEAP_YEAR t.year) = 366 := by rw [← hzero]; decide
      refine iff_of_false ?_ (not_not.mpr ⟨hzero.symm, hdec, hlast⟩)
      rw [← hzero] at hoffset' hends' ⊢
      omega
    · have hsucc := yearStart_succ (by omega : 1 ≤ t.year)
      refine iff_of_true (by omega) fun hend => ?_
      have := hend.1
      omega

lemma IsDate.comesBack_iff (h : IsDate t) (out : ObTime) :
    (∃ back, dateToObTime (dayNumber t) out = some back ∧ back.year = t.year ∧ back.mon = t.mon ∧
      back.mday = t.mday ∧ back.yday = dayOffset t + 1) ↔ ¬ IsLastOfYearZero t := by
  obtain ⟨hlow, hhigh⟩ := h.dayOffset_bounds
  obtain ⟨m, hm, hmon, hoffset, hmday⟩ := h.exists_month
  have hpos := h.mday_pos
  have hfar : dayNumber t ≠ ZERO_DATE := by
    have hstart := yearStart_sub h.year_nonneg
    have hyear0 : yearStart 0 = -719527 := by decide
    unfold dayNumber ZERO_DATE
    omega
  have hyear := yearLoop_eq h.year_nonneg h.year_le hlow hhigh
  by_cases hend : IsLastOfYearZero t
  · refine iff_of_false ?_ (not_not.mpr hend)
    rintro ⟨back, hback, hbackYear, -⟩
    rw [if_pos ⟨hend.1, (h.dayOffset_eq_last hend.1).mpr hend⟩] at hyear
    obtain ⟨other, hother, hotherYear, -⟩ := dateToObTime_eq out hfar hyear (by omega : 0 < 12)
      (by decide) (by decide)
    rw [hback] at hother
    rw [Option.some.inj hother, hotherYear, hend.1] at hbackYear
    exact absurd hbackYear (by decide)
  · refine iff_of_true ?_ hend
    rw [if_neg fun hlast => hend ((h.dayOffset_eq_last hlast.1).mp hlast.2)] at hyear
    obtain ⟨back, hback, hbackYear, hbackMon, hbackDay, hbackYday⟩ :=
      dateToObTime_eq out hfar hyear hm (by omega) (by omega)
    exact ⟨back, hback, hbackYear, by omega, by omega, hbackYday⟩

end Dates

/-- **Dates and day numbers.** Dates in order have numbers in order, the next day has the next
number, and the number gives back the date and the day of the year, with one exception: 0000-12-31
and 0001-01-01 have the same number. -/
theorem dateConvert_iff (t t' out : ObTime) (h : Accepted t) (h' : Accepted t') :
    ∃ value after value' after', obTimeToDate t = some (value, after) ∧
    obTimeToDate t' = some (value', after') ∧
      (Before t t' → (value < value' ↔ ¬ (IsLastOfYearZero t ∧ IsFirstOfYearOne t'))) ∧
      (IsNextDay t t' → (value' = value + 1 ↔ ¬ IsLastOfYearZero t)) ∧
      ((∃ back, dateToObTime value out = some back ∧ back.year = t.year ∧ back.mon = t.mon ∧
        back.mday = t.mday ∧ back.yday = after.yday) ↔ ¬ IsLastOfYearZero t) := by
  obtain ⟨after, hdate, hyday⟩ := obTimeToDate_eq h.isDate h.unmarked
  obtain ⟨after', hdate', -⟩ := obTimeToDate_eq h'.isDate h'.unmarked
  refine ⟨_, after, _, after', hdate, hdate', ?_, ?_, ?_⟩
  · exact h.isDate.dayNumber_lt_iff h'.isDate
  · exact h.isDate.dayNumber_next_iff h'.isDate
  · rw [hyday]
    exact h.isDate.comesBack_iff out

/-- 0000-12-31 -/
def lastOfYearZero : ObTime := { oracle := false, year := 0, mon := 12, mday := 31 }

/-- 0001-01-01 -/
def firstOfYearOne : ObTime := { oracle := false, year := 1, mon := 1, mday := 1 }

theorem dateConvert_yearZero : validateDatetime lastOfYearZero false = .ok lastOfYearZero ∧
    validateDatetime firstOfYearOne false = .ok firstOfYearOne ∧
    (obTimeToDate lastOfYearZero).map Prod.fst = some (-719162) ∧
    (obTimeToDate firstOfYearOne).map Prod.fst = some (-719162) ∧
    (dateToObTime (-719162) lastOfYearZero).map (fun t => (t.year, t.mon, t.mday)) = some
    (1, 1, 1) := by
  decide

/-- 2000-02-28 and 2000-02-29 -/
def beforeLeapDay : ObTime := { oracle := false, year := 2000, mon := 2, mday := 28 }

def leapDay : ObTime := { oracle := false, year := 2000, mon := 2, mday := 29 }

/-- A leap day has the number after that of the day before, which comes back; the last day of the
year zero has the number of the day after it, and does not. -/
theorem dateConvert_iff_leapDay : Accepted beforeLeapDay ∧ Accepted leapDay ∧
    (∃ value after value' after', obTimeToDate beforeLeapDay = some (value, after) ∧
      obTimeToDate leapDay = some (value', after') ∧ value < value' ∧ value' = value + 1 ∧
      ∃ back, dateToObTime value leapDay = some back ∧ back.year = 2000 ∧ back.mon = 2 ∧
        back.mday = 28 ∧ back.yday = after.yday) ∧
    Accepted lastOfYearZero ∧ Accepted firstOfYearOne ∧
    ∃ value after value' after', obTimeToDate lastOfYearZero = some (value, after) ∧
      obTimeToDate firstOfYearOne = some (value', after') ∧ ¬ value < value' ∧
      ¬ value' = value + 1 ∧ ¬ ∃ back, dateToObTime value leapDay = some back ∧ back.year = 0 ∧
        back.mon = 12 ∧ back.mday = 31 ∧ back.yday = after.yday := by
  have h : Accepted beforeLeapDay := ⟨⟨false, by decide⟩, by decide, by decide, by decide⟩
  have h' : Accepted leapDay := ⟨⟨false, by decide⟩, by decide, by decide, by decide⟩
  have hlast : Accepted lastOfYearZero := ⟨⟨false, by decide⟩, by decide, by decide, by decide⟩
  have hfirst : Accepted firstOfYearOne := ⟨⟨false, by decide⟩, by decide, by decide, by decide⟩
  obtain ⟨v, after, v', after', hv, hv', hlt, hnext, hback⟩ :=
    dateConvert_iff beforeLeapDay leapDay leapDay h h'
  obtain ⟨w, last, w', first, hw, hw', hlt', hnext', hback'⟩ :=
    dateConvert_iff lastOfYearZero firstOfYearOne leapDay hlast hfirst
  refine ⟨h, h', ⟨v, after, v', after', hv, hv', (hlt (by decide)).2 (by decide),
    (hnext (by decide)).2 (by decide), hback.2 (by decide)⟩, hlast, hfirst, w, last, w', first, hw,
    hw', ?_, ?_, ?_⟩
  · exact fun hbefore => (hlt' (by decide)).1 hbefore (by decide)
  · exact fun hsucc => (hnext' (by decide)).1 hsucc (by decide)
  · exact fun hcomes => hback'.1 hcomes (by decide)

end OceanBase.Time
