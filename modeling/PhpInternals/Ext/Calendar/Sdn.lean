import Mathlib.Tactic.IntervalCases
import Mathlib.Tactic.Ring

/-!
# Serial day numbers

Embedding of `SdnToGregorian`, `GregorianToSdn` (`ext/calendar/gregor.c`), `SdnToJulian` and
`JulianToSdn` (`ext/calendar/julian.c`). `zend_long` is ℤ, an `int` is an integer wrapped to 32
bits wherever the source stores one that may not fit.

The `…ToSdn` functions compute in an `int` and never exceed 31 December of year `2^31 - 4801`
(`gregorianToSdn_le`, `julianToSdn_le`); up to that day the round trips hold, and beyond it none
does.
-/

namespace PhpInternals.Ext.Calendar

/-- A value stored in an `int`. -/
def wrapInt (x : ℤ) : ℤ := x.bmod (2 ^ 32)

/-- Year, month and day; there is no year 0. -/
@[ext]
structure Date where
  year : ℤ
  month : ℤ
  day : ℤ
  deriving DecidableEq

/-- The end of both `SdnTo…` functions: month and day from `dayOfYear`, counted from March, and the
year in B.C./A.D. numbering. -/
def ofDayOfYear (year dayOfYear : ℤ) : Date :=
  let temp := dayOfYear * 5 - 3
  let month := temp / 153
  let year := wrapInt ((if month < 10 then year else wrapInt (year + 1)) - 4800)
  ⟨if year ≤ 0 then wrapInt (year - 1) else year,
    if month < 10 then month + 3 else month - 9, temp % 153 / 5 + 1⟩

/-- Source: `SdnToGregorian`. The dividends are positive. -/
def sdnToGregorian (sdn : ℤ) : Date :=
  if sdn ≤ 0 ∨ (2 ^ 63 - 1 - 4 * 32045) / 4 < sdn then ⟨0, 0, 0⟩
  else
    let temp := (sdn + 32045) * 4 - 1
    let century := wrapInt (temp / 146097)
    let temp := temp % 146097 / 4 * 4 + 3
    ofDayOfYear (wrapInt (wrapInt (century * 100) + temp / 1461)) (temp % 1461 / 4 + 1)

/-- Source: `SdnToJulian`. The guard on `yearl` comes before `year += 1`. -/
def sdnToJulian (sdn : ℤ) : Date :=
  if sdn ≤ 0 ∨ (2 ^ 63 - 1 - 32083 * 4 + 1) / 4 < sdn ∨ sdn < -2 ^ 63 / 4 then ⟨0, 0, 0⟩
  else
    let temp := sdn * 4 + (32083 * 4 - 1)
    let yearl := temp / 1461
    if 2 ^ 31 - 1 < yearl ∨ yearl < -2 ^ 31 then ⟨0, 0, 0⟩
    else ofDayOfYear yearl (temp % 1461 / 4 + 1)

/-- Make the year a positive number and let it start in March. -/
def marchYear (inputYear inputMonth : ℤ) : ℤ :=
  let year := wrapInt (inputYear + if inputYear < 0 then 4801 else 4800)
  if 2 < inputMonth then year else year - 1

/-- The month counted from March. -/
def marchMonth (inputMonth : ℤ) : ℤ :=
  if 2 < inputMonth then inputMonth - 3 else inputMonth + 9

/-- The field checks of both `…ToSdn` functions. -/
def InvalidDate (firstYear : ℤ) (d : Date) : Prop :=
  d.year = 0 ∨ d.year < firstYear ∨ d.month ≤ 0 ∨ 12 < d.month ∨ d.day ≤ 0 ∨ 31 < d.day
  deriving Decidable

/-- Source: `GregorianToSdn`; 0 for a date that is rejected. -/
def gregorianToSdn (d : Date) : ℤ :=
  if InvalidDate (-4714) d then 0
  else if d.year = -4714 ∧ (d.month < 11 ∨ d.month = 11 ∧ d.day < 25) then 0
  else
    let year := marchYear d.year d.month
    (year.tdiv 100 * 146097).tdiv 4 + (year.tmod 100 * 1461).tdiv 4
      + (marchMonth d.month * 153 + 2) / 5 + d.day - 32045

/-- Source: `JulianToSdn`. -/
def julianToSdn (d : Date) : ℤ :=
  if InvalidDate (-4713) d then 0
  else if d.year = -4713 ∧ d.month = 1 ∧ d.day = 1 then 0
  else
    (marchYear d.year d.month * 1461).tdiv 4 + (marchMonth d.month * 153 + 2) / 5 + d.day - 32083

/-! ## Dates of the calendars -/

/-- The year number with a year 0, in which the leap year rules are stated. -/
def Date.astronomical (d : Date) : ℤ := if d.year < 0 then d.year + 1 else d.year

/-- The leap year rule of the Gregorian calendar. -/
def GregorianLeap (n : ℤ) : Prop := n % 4 = 0 ∧ (n % 100 ≠ 0 ∨ n % 400 = 0)
  deriving Decidable

/-- The leap year rule of the Julian calendar. -/
def JulianLeap (n : ℤ) : Prop := n % 4 = 0
  deriving Decidable

/-- The length of a month. -/
def daysInMonth (leap : Prop) [Decidable leap] (month : ℤ) : ℤ :=
  if month = 2 then if leap then 29 else 28
  else if month = 4 ∨ month = 6 ∨ month = 9 ∨ month = 11 then 30 else 31

/-- A date of the calendar with the given leap year rule. -/
def Date.Valid (leap : ℤ → Prop) [DecidablePred leap] (d : Date) : Prop :=
  d.year ≠ 0 ∧ 1 ≤ d.month ∧ d.month ≤ 12 ∧ 1 ≤ d.day ∧
    d.day ≤ daysInMonth (leap d.astronomical) d.month
  deriving Decidable

/-! ## Within the year -/

lemma wrapInt_of_fits {x : ℤ} (h : -2 ^ 31 ≤ x) (h' : x < 2 ^ 31) : wrapInt x = x := by
  unfold wrapInt
  apply Int.bmod_eq_of_le <;> omega

lemma marchYear_eq {year m : ℤ} (h : -4801 ≤ year) (h' : year ≤ 2 ^ 31 - 4801) :
    marchYear year m = (if year < 0 then year + 4801 else year + 4800) -
      if 2 < m then 0 else 1 := by
  unfold marchYear
  rw [wrapInt_of_fits (by split_ifs <;> omega) (by split_ifs <;> omega)]
  split_ifs <;> ring

/-- The year that an `int` keeps is at most `2^31 - 1`, in January and February one less. -/
lemma marchYear_le (year m : ℤ) : marchYear year m ≤ 2 ^ 31 - 1 - if 2 < m then 0 else 1 := by
  have hw : ∀ x, wrapInt x < 2 ^ 31 := fun x => by
    have := Int.bmod_lt (x := x) (m := 2 ^ 32) (by norm_num)
    unfold wrapInt
    omega
  unfold marchYear
  have := hw (year + if year < 0 then 4801 else 4800)
  simp only
  split_ifs at this ⊢ <;> omega

/-- A day as the functions count it: the `n`th of the year `y` that begins in March, from the day
`first` of year 87 to the last December that an `int` counts. The 366th day is the 29th of February
of a leap year. -/
structure Position (leap : ℤ → Prop) (first y n : ℤ) : Prop where
  first_le : 87 < y ∨ y = 87 ∧ first ≤ n
  le_last : y < 2 ^ 31 - 1 ∨ y = 2 ^ 31 - 1 ∧ n ≤ 306
  one_le : 1 ≤ n
  le_days : n ≤ 365 ∨ n = 366 ∧ leap (y - 4799)

section Position

variable {leap : ℤ → Prop} {first y n : ℤ}

/-- At a position nothing wraps. -/
lemma ofDayOfYear_eq (h : Position leap first y n) : ofDayOfYear y n =
    let month := (n * 5 - 3) / 153
    let year := y - if month < 10 then 4800 else 4799
    ⟨if year ≤ 0 then year - 1 else year, if month < 10 then month + 3 else month - 9,
      (n * 5 - 3) % 153 / 5 + 1⟩ := by
  obtain ⟨hf, hl, -⟩ := h
  unfold ofDayOfYear
  simp only
  have hyr : wrapInt ((if (n * 5 - 3) / 153 < 10 then y else wrapInt (y + 1)) - 4800) =
      y - if (n * 5 - 3) / 153 < 10 then 4800 else 4799 := by
    split_ifs with hm
    · apply wrapInt_of_fits <;> omega
    · rw [wrapInt_of_fits (x := y + 1) (by omega) (by omega)]
      rw [wrapInt_of_fits (by omega) (by omega)]
      ring
  rw [hyr, wrapInt_of_fits (by split_ifs <;> omega) (by split_ifs <;> omega)]

/-- The `…ToSdn` functions find the position of a date again. -/
lemma ofDayOfYear_march (h : Position leap first y n) :
    let d := ofDayOfYear y n
    marchYear d.year d.month = y ∧ (marchMonth d.month * 153 + 2) / 5 + d.day = n ∧
      (if d.year < 0 then d.year + 4801 else d.year + 4800) = y + (if 2 < d.month then 0 else 1) ∧
      d.year ≠ 0 ∧ 0 < d.month ∧ d.month ≤ 12 ∧ 0 < d.day ∧ d.day ≤ 31 := by
  rw [ofDayOfYear_eq h]
  obtain ⟨hf, hl, hp, hdy⟩ := h
  simp only
  rw [marchYear_eq (by split_ifs <;> omega) (by split_ifs <;> omega)]
  unfold marchMonth
  refine ⟨?_, ?_, ?_, ?_⟩
  all_goals split_ifs <;> omega

variable [DecidablePred leap] {d : Date}

lemma marchMonth_day (hv : d.Valid leap) :
    let temp := ((marchMonth d.month * 153 + 2) / 5 + d.day) * 5 - 3
    temp / 153 = marchMonth d.month ∧ temp % 153 / 5 + 1 = d.day := by
  obtain ⟨-, h1, h2, h3, h4⟩ := hv
  have hdy : d.day ≤ 31 ∧ (d.month = 2 ∨ d.month = 4 ∨ d.month = 6 ∨ d.month = 9 ∨
      d.month = 11 → d.day ≤ 30) := by
    unfold daysInMonth at h4
    split_ifs at h4 <;> omega
  clear h4
  unfold marchMonth
  generalize d.month = month at *
  interval_cases month <;> omega

/-- Every valid date of the range has a position. -/
lemma exists_ofDayOfYear (first : ℤ) (hv : d.Valid leap) (hyr : -4714 ≤ d.year)
    (hf : 87 < marchYear d.year d.month ∨ marchYear d.year d.month = 87 ∧
      first ≤ (marchMonth d.month * 153 + 2) / 5 + d.day)
    (hl : d.year ≤ 2 ^ 31 - 4801) : ∃ y n, Position leap first y n ∧ ofDayOfYear y n = d := by
  obtain ⟨hmn, hdy⟩ := marchMonth_day hv
  obtain ⟨h0, h1, h2, h3, h4⟩ := hv
  have hy := marchYear_eq (m := d.month) (by omega) hl
  have hp : Position leap first (marchYear d.year d.month)
      ((marchMonth d.month * 153 + 2) / 5 + d.day) := by
    clear hdy
    refine ⟨hf, ?_, ?_, ?_⟩
    all_goals clear hf
    · unfold marchMonth at *
      split_ifs at hy hmn ⊢ <;> omega
    · unfold marchMonth
      split_ifs <;> omega
    · clear hmn
      have hlp : d.month = 2 → marchYear d.year d.month - 4799 = d.astronomical := by
        intro hm
        unfold Date.astronomical
        split_ifs at hy ⊢ <;> omega
      unfold daysInMonth at h4
      unfold marchMonth
      split_ifs at h4 ⊢ <;> grind
  refine ⟨_, _, hp, ?_⟩
  rw [ofDayOfYear_eq hp, hmn, hdy]
  unfold marchMonth
  ext
  all_goals simp only
  all_goals split_ifs <;> omega

end Position

/-! ## The Gregorian calendar -/

section Gregorian

variable {y n : ℤ}

lemma gregorianLeap_iff {c q : ℤ} (h : 0 ≤ q) (h' : q ≤ 99) :
    GregorianLeap (c * 100 + q - 4799) ↔ q % 4 = 3 ∧ (q ≠ 99 ∨ c % 4 = 3) := by
  unfold GregorianLeap
  omega

lemma gregorianToSdn_ofDayOfYear (h : Position GregorianLeap 270 y n) :
    gregorianToSdn (ofDayOfYear y n) = y / 100 * 146097 / 4 + y % 100 * 1461 / 4 + n - 32045 := by
  obtain ⟨hyr, hdy, hc, hv⟩ := ofDayOfYear_march h
  obtain ⟨hf, hl, hp, -⟩ := h
  generalize ofDayOfYear y n = d at *
  have hi : ¬ InvalidDate (-4714) d ∧
      ¬ (d.year = -4714 ∧ (d.month < 11 ∨ d.month = 11 ∧ d.day < 25)) := by
    unfold InvalidDate
    unfold marchMonth at hdy
    split_ifs at hc hdy <;> omega
  unfold gregorianToSdn
  rw [if_neg hi.1, hyr]
  simp only
  rw [Int.tdiv_eq_ediv_of_nonneg (a := y) (by omega), Int.tmod_eq_emod_of_nonneg (by omega),
    Int.tdiv_eq_ediv_of_nonneg (by omega), Int.tdiv_eq_ediv_of_nonneg (by omega)]
  omega

/-- The divisions of `SdnToGregorian` undo the sum of centuries, years and days. -/
lemma gregorian_digits {c q : ℤ} (hq : 0 ≤ q) (hq' : q ≤ 99) (hn : 1 ≤ n)
    (hdy : n ≤ 365 ∨ n = 366 ∧ q % 4 = 3 ∧ (q ≠ 99 ∨ c % 4 = 3)) :
    let temp := (c * 146097 / 4 + q * 1461 / 4 + n - 32045 + 32045) * 4 - 1
    let rest := temp % 146097 / 4 * 4 + 3
    temp / 146097 = c ∧ rest / 1461 = q ∧ rest % 1461 / 4 + 1 = n := by
  have h1 : 4 * (c * 146097 / 4) = 146097 * c - c % 4 := by omega
  have h2 : 4 * (q * 1461 / 4) = 1461 * q - q % 4 := by omega
  have hs : (c * 146097 / 4 + q * 1461 / 4 + n - 32045 + 32045) * 4 - 1 =
      146097 * c + (1461 * q - q % 4 - c % 4 + 4 * n - 1) := by omega
  have hc : (146097 * c + (1461 * q - q % 4 - c % 4 + 4 * n - 1)) / 146097 = c := by omega
  have hr : (146097 * c + (1461 * q - q % 4 - c % 4 + 4 * n - 1)) % 146097 / 4 * 4 + 3 =
      1461 * q - q % 4 + 4 * n - 1 := by omega
  simp only
  rw [hs, hc, hr]
  have hyr : (1461 * q - q % 4 + 4 * n - 1) / 1461 = q := by omega
  refine ⟨rfl, hyr, ?_⟩
  omega

lemma sdnToGregorian_position (h : Position GregorianLeap 270 y n) :
    sdnToGregorian (y / 100 * 146097 / 4 + y % 100 * 1461 / 4 + n - 32045) = ofDayOfYear y n := by
  obtain ⟨hf, hl, hp, hdy⟩ := h
  have hy : y / 100 * 100 + y % 100 = y := by omega
  rw [← hy, gregorianLeap_iff (by omega) (by omega)] at hdy
  obtain ⟨hc, hyr, hda⟩ := gregorian_digits (by omega) (by omega) hp hdy
  have hn : n ≤ 366 := by omega
  clear hdy
  unfold sdnToGregorian
  rw [if_neg (by omega)]
  simp only
  rw [hc, hyr, hda, wrapInt_of_fits (x := _ / 100) (by omega) (by omega)]
  rw [wrapInt_of_fits (x := _ * _) (by omega) (by omega), hy, wrapInt_of_fits (by omega) (by omega)]

lemma exists_position_gregorian {sdn : ℤ} (h : 0 < sdn) (hl : sdn ≤ 784352264200) :
    ∃ y n, Position GregorianLeap 270 y n ∧
      y / 100 * 146097 / 4 + y % 100 * 1461 / 4 + n - 32045 = sdn := by
  generalize hc : ((sdn + 32045) * 4 - 1) / 146097 = c
  generalize hr : ((sdn + 32045) * 4 - 1) % 146097 / 4 * 4 + 3 = rest
  have hcn : c < 21474836 ∨ c = 21474836 := by omega
  have h1 : 4 * (c * 146097 / 4) = 146097 * c - c % 4 := by omega
  have h2 : rest = (sdn + 32045) * 4 - 1 - 146097 * c + c % 4 := by omega
  have h3 : 4 * (rest / 1461 * 1461 / 4) = 1461 * (rest / 1461) - rest / 1461 % 4 := by omega
  have h4 : 4 * (rest % 1461 / 4) = rest % 1461 - 3 + rest / 1461 % 4 := by omega
  refine ⟨c * 100 + rest / 1461, rest % 1461 / 4 + 1, ⟨?_, ?_, ?_, ?_⟩, ?_⟩
  · omega
  · omega
  · omega
  · rw [gregorianLeap_iff (by omega) (by omega)]
    omega
  · have hy : (c * 100 + rest / 1461) / 100 = c := by omega
    have hy' : (c * 100 + rest / 1461) % 100 = rest / 1461 := by omega
    rw [hy]
    omega

lemma gregorianToSdn_le (d : Date) : gregorianToSdn d ≤ 784352264200 := by
  unfold gregorianToSdn
  split_ifs with hi
  · norm_num
  · norm_num
  have hy := marchYear_le d.year d.month
  unfold InvalidDate at hi
  generalize marchYear d.year d.month = y at *
  simp only
  have hm : marchMonth d.month ≤ if 2 < d.month then 9 else 11 := by
    unfold marchMonth
    split_ifs <;> omega
  rcases le_total 0 y with h0 | h0
  · rw [Int.tdiv_eq_ediv_of_nonneg h0, Int.tmod_eq_emod_of_nonneg h0,
      Int.tdiv_eq_ediv_of_nonneg (by omega), Int.tdiv_eq_ediv_of_nonneg (by omega)]
    split_ifs at hy hm <;> omega
  · have h1 := Int.tdiv_le_tdiv (show (0 : ℤ) < 100 by norm_num) h0
    have h2 : y.tmod 100 ≤ 0 := by
      have := Int.tmod_nonneg 100 (show 0 ≤ -y by omega)
      rw [Int.neg_tmod] at this
      omega
    have h3 := Int.tdiv_le_tdiv (show (0 : ℤ) < 4 by norm_num)
      (show y.tdiv 100 * 146097 ≤ 0 by rw [Int.zero_tdiv] at h1; omega)
    have h4 := Int.tdiv_le_tdiv (show (0 : ℤ) < 4 by norm_num)
      (show y.tmod 100 * 1461 ≤ 0 by omega)
    rw [Int.zero_tdiv] at h3 h4
    split_ifs at hm <;> omega

/-- **Round trips of the Gregorian calendar.** A day comes back if and only if it is not after the
last December that an `int` counts; every valid date up to then comes back. -/
theorem gregorian_round_trips (sdn : ℤ) (d : Date) :
    (0 < sdn → (gregorianToSdn (sdnToGregorian sdn) = sdn ↔
      sdn ≤ gregorianToSdn ⟨2 ^ 31 - 4801, 12, 31⟩)) ∧
    (d.Valid GregorianLeap →
      (-4714 < d.year ∨ d.year = -4714 ∧ (11 < d.month ∨ d.month = 11 ∧ 25 ≤ d.day)) →
      d.year ≤ 2 ^ 31 - 4801 → sdnToGregorian (gregorianToSdn d) = d) := by
  refine ⟨fun h => ⟨fun heq => ?_, fun hl => ?_⟩, ?_⟩
  · rw [← heq]
    exact gregorianToSdn_le _
  · obtain ⟨y, n, hp, rfl⟩ := exists_position_gregorian h hl
    rw [sdnToGregorian_position hp, gregorianToSdn_ofDayOfYear hp]
  · intro hv hf hl
    obtain ⟨y, n, hp, rfl⟩ := exists_ofDayOfYear 270 hv (by omega) (by
        rw [marchYear_eq (by omega) hl]
        obtain ⟨-, h1, h2, h3, -⟩ := hv
        unfold marchMonth
        split_ifs <;> omega) hl
    rw [gregorianToSdn_ofDayOfYear hp, sdnToGregorian_position hp]

/-- The first day, and a leap day. -/
theorem gregorian_round_trips_applies :
    gregorianToSdn (sdnToGregorian 1) = 1 ∧
      sdnToGregorian (gregorianToSdn ⟨2000, 2, 29⟩) = ⟨2000, 2, 29⟩ :=
  ⟨((gregorian_round_trips 1 ⟨2000, 2, 29⟩).1 (by decide)).mpr (by decide),
    (gregorian_round_trips 1 ⟨2000, 2, 29⟩).2 (by decide) (by decide) (by decide)⟩

/-- `century * 100` wraps for accepted day numbers. -/
theorem gregorian_century_overflow : 10 ^ 12 ≤ ((2 ^ 63 - 1 - 4 * 32045) / 4 : ℤ) ∧
    gregorianToSdn (sdnToGregorian (10 ^ 12)) = 0 := by
  decide

end Gregorian

/-! ## The Julian calendar -/

section Julian

variable {y n : ℤ}

lemma julianToSdn_ofDayOfYear (h : Position JulianLeap 308 y n) :
    julianToSdn (ofDayOfYear y n) = y * 1461 / 4 + n - 32083 := by
  obtain ⟨hyr, hdy, hc, hv⟩ := ofDayOfYear_march h
  obtain ⟨hf, hl, hp, -⟩ := h
  generalize ofDayOfYear y n = d at *
  have hi : ¬ InvalidDate (-4713) d ∧ ¬ (d.year = -4713 ∧ d.month = 1 ∧ d.day = 1) := by
    unfold InvalidDate
    unfold marchMonth at hdy
    split_ifs at hc hdy <;> omega
  unfold julianToSdn
  rw [if_neg hi.1, hyr, Int.tdiv_eq_ediv_of_nonneg (by omega)]
  omega

lemma sdnToJulian_position (h : Position JulianLeap 308 y n) :
    sdnToJulian (y * 1461 / 4 + n - 32083) = ofDayOfYear y n := by
  obtain ⟨hf, hl, hp, hdy⟩ := h
  unfold JulianLeap at hdy
  have hy : ((y * 1461 / 4 + n - 32083) * 4 + (32083 * 4 - 1)) / 1461 = y := by omega
  have hn : ((y * 1461 / 4 + n - 32083) * 4 + (32083 * 4 - 1)) % 1461 / 4 + 1 = n := by omega
  replace hdy : n ≤ 366 := by omega
  unfold sdnToJulian
  rw [if_neg (by omega)]
  simp only
  rw [hy, hn, if_neg (by omega)]

/-- `SdnToJulian` fails exactly where the year that begins in March does not fit in an `int`. -/
lemma sdnToJulian_fails_iff {sdn : ℤ} (h : 0 < sdn) :
    sdnToJulian sdn = ⟨0, 0, 0⟩ ↔ 2 ^ 31 ≤ (sdn * 4 + (32083 * 4 - 1)) / 1461 := by
  unfold sdnToJulian
  simp only
  split_ifs with hb hyr
  · simp only [true_iff]
    omega
  · simp only [true_iff]
    omega
  · have hm : (ofDayOfYear ((sdn * 4 + (32083 * 4 - 1)) / 1461)
        ((sdn * 4 + (32083 * 4 - 1)) % 1461 / 4 + 1)).month ≠ 0 := by
      unfold ofDayOfYear
      simp only
      split_ifs <;> omega
    constructor
    · intro hf
      rw [hf] at hm
      contradiction
    · omega

lemma exists_position_julian {sdn : ℤ} (h : 0 < sdn) (hl : sdn ≤ 784368370289) :
    ∃ y n, Position JulianLeap 308 y n ∧ y * 1461 / 4 + n - 32083 = sdn := by
  refine ⟨(sdn * 4 + (32083 * 4 - 1)) / 1461, (sdn * 4 + (32083 * 4 - 1)) % 1461 / 4 + 1,
    ⟨?_, ?_, ?_, ?_⟩, ?_⟩
  · omega
  · omega
  · omega
  · unfold JulianLeap
    by_cases hln : (sdn * 4 + (32083 * 4 - 1)) % 1461 = 1460 <;> omega
  · omega

lemma julianToSdn_le (d : Date) : julianToSdn d ≤ 784368370289 := by
  unfold julianToSdn
  split_ifs with hi
  · norm_num
  · norm_num
  have hq : ∀ q : ℤ, 0 ≤ q → marchYear d.year d.month ≤ q →
      (marchYear d.year d.month * 1461).tdiv 4 ≤ q * 1461 / 4 := fun q h0 hle => by
    rw [← Int.tdiv_eq_ediv_of_nonneg (by omega)]
    exact Int.tdiv_le_tdiv (by norm_num) (by omega)
  have hy := hq _ (by split_ifs <;> norm_num) (marchYear_le d.year d.month)
  unfold InvalidDate at hi
  unfold marchMonth
  split_ifs at hy ⊢ <;> omega

/-- The civil year of a day, without a bound on it. -/
def julianYear (sdn : ℤ) : ℤ :=
  let temp := sdn * 4 + (32083 * 4 - 1)
  let year := temp / 1461 - if temp % 1461 / 4 + 1 ≤ 306 then 4800 else 4799
  if year ≤ 0 then year - 1 else year

/-- The year that `SdnToJulian` returns, up to the last December that an `int` counts. -/
lemma sdnToJulian_year {sdn : ℤ} (h : 0 < sdn) (hl : sdn ≤ 784368370289) :
    (sdnToJulian sdn).year = julianYear sdn := by
  obtain ⟨y, n, hp, rfl⟩ := exists_position_julian h hl
  rw [sdnToJulian_position hp, ofDayOfYear_eq hp]
  obtain ⟨-, -, hn, hdy⟩ := hp
  unfold JulianLeap at hdy
  have hy : ((y * 1461 / 4 + n - 32083) * 4 + (32083 * 4 - 1)) / 1461 = y := by omega
  have hd : ((y * 1461 / 4 + n - 32083) * 4 + (32083 * 4 - 1)) % 1461 / 4 + 1 = n := by omega
  unfold julianYear
  simp only
  simp only [hy, hd, show (n * 5 - 3) / 153 < 10 ↔ n ≤ 306 by omega]

/-- `SdnToJulian` fails exactly for the years beyond an `int`, and otherwise the day comes back. -/
def JulianDayOk (sdn : ℤ) : Prop :=
  (sdnToJulian sdn = ⟨0, 0, 0⟩ ↔ 2 ^ 31 ≤ julianYear sdn) ∧
    (sdnToJulian sdn = ⟨0, 0, 0⟩ ∨ julianToSdn (sdnToJulian sdn) = sdn)

/-- **Round trips of the Julian calendar.** A day is treated as it should be if and only if its year
is not one of the last 4800 that fit in an `int`; every valid date before these comes back. -/
theorem julian_round_trips (sdn : ℤ) (d : Date) :
    (0 < sdn → (JulianDayOk sdn ↔ julianYear sdn ≤ 2 ^ 31 - 4801 ∨ 2 ^ 31 ≤ julianYear sdn) ∧
      (julianYear sdn ≤ 2 ^ 31 - 4801 → (sdnToJulian sdn).year = julianYear sdn)) ∧
    (d.Valid JulianLeap → -4713 ≤ d.year →
      ¬ (d.year = -4713 ∧ d.month = 1 ∧ d.day = 1) → d.year ≤ 2 ^ 31 - 4801 →
      sdnToJulian (julianToSdn d) = d) := by
  constructor
  · intro h
    have hy : (julianYear sdn ≤ 2 ^ 31 - 4801 ↔ sdn ≤ 784368370289) ∧
        (2 ^ 31 ≤ julianYear sdn → 2 ^ 31 ≤ (sdn * 4 + (32083 * 4 - 1)) / 1461) := by
      unfold julianYear
      simp only
      split_ifs <;> omega
    unfold JulianDayOk
    rw [sdnToJulian_fails_iff h, hy.1]
    refine ⟨?_, sdnToJulian_year h⟩
    constructor
    · -- a day that comes back is not after the last December
      rintro ⟨hf, hr | hr⟩
      · exact .inr (hf.mp hr)
      · exact .inl (hr ▸ julianToSdn_le _)
    · rintro (hl | hl)
      · have hb : julianYear sdn < 2 ^ 31 := by
          have := hy.1.mpr hl
          omega
        obtain ⟨y, n, hp, rfl⟩ := exists_position_julian h hl
        exact ⟨iff_of_false (by omega) (by omega),
          .inr (by rw [sdnToJulian_position hp, julianToSdn_ofDayOfYear hp])⟩
      · exact ⟨iff_of_true (hy.2 hl) hl, .inl (hy.2 hl)⟩
  · intro hv hyr hf hl
    obtain ⟨y, n, hp, rfl⟩ := exists_ofDayOfYear 308 hv (by omega) (by
        rw [marchYear_eq (by omega) hl]
        obtain ⟨-, h1, h2, h3, -⟩ := hv
        unfold marchMonth
        split_ifs <;> omega) hl
    rw [julianToSdn_ofDayOfYear hp, sdnToJulian_position hp]

/-- The first day in both directions. -/
theorem julian_round_trips_applies :
    JulianDayOk 1 ∧ sdnToJulian (julianToSdn ⟨-4713, 1, 2⟩) = ⟨-4713, 1, 2⟩ :=
  ⟨((julian_round_trips 1 ⟨-4713, 1, 2⟩).1 (by decide)).1.mpr (.inl (by decide)),
    (julian_round_trips 1 ⟨-4713, 1, 2⟩).2 (by decide) (by decide) (by decide) (by decide)⟩

end Julian

/-- `year += 1` wraps in the January after the last `yearl` that `SdnToJulian` accepts. -/
theorem julian_year_overflow :
    sdnToJulian 784368370290 = ⟨2 ^ 31 - 4800, 1, 1⟩ ∧ julianToSdn ⟨2 ^ 31 - 4800, 1, 1⟩ < 0 := by
  decide

end PhpInternals.Ext.Calendar
