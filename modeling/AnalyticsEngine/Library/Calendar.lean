import AnalyticsEngine.Library.Decimal
import Mathlib.Algebra.GroupWithZero.Nat

/-!
# The proleptic Gregorian calendar

Dates and their ordinals, day 1 being January 1 of year 1, with the decomposition into 400, 100,
4 and 1 year cycles that `datetime` uses. `toordinal_fromordinal` makes both the date of an
ordinal and its ISO text injective.
-/

namespace AnalyticsEngine.Library

structure Date where
  year : ℕ
  month : ℕ
  day : ℕ
  deriving DecidableEq

def isLeap (year : ℕ) : Bool := year % 4 = 0 ∧ (year % 100 ≠ 0 ∨ year % 400 = 0)

def daysBeforeYear (year : ℕ) : ℕ :=
  (year - 1) * 365 + (year - 1) / 4 - (year - 1) / 100 + (year - 1) / 400

def monthLengths (leap : Bool) : List ℕ :=
  [31, if leap then 29 else 28, 31, 30, 31, 30, 31, 31, 30, 31, 30, 31]

def daysBeforeMonth (leap : Bool) (month : ℕ) : ℕ := ((monthLengths leap).take (month - 1)).sum

def Date.toordinal (d : Date) : ℕ :=
  daysBeforeYear d.year + daysBeforeMonth (isLeap d.year) d.month + d.day

/-- The month and the day of the `n`-th day (from 0) behind the months before `month`. -/
def monthDay : List ℕ → ℕ → ℕ → ℕ × ℕ
  | [], month, n => (month, n + 1)
  | length :: later, month, n =>
    if n < length then (month, n + 1) else monthDay later (month + 1) (n - length)

def fromordinal (ordinal : ℕ) : Date :=
  let n := ordinal - 1
  let n400 := n / 146097
  let n100 := n % 146097 / 36524
  let n4 := n % 146097 % 36524 / 1461
  let n1 := n % 146097 % 36524 % 1461 / 365
  let year := n400 * 400 + 1 + n100 * 100 + n4 * 4 + n1
  if n1 = 4 ∨ n100 = 4 then ⟨year - 1, 12, 31⟩
  else
    let md := monthDay (monthLengths (isLeap year)) 1 (n % 146097 % 36524 % 1461 % 365)
    ⟨year, md.1, md.2⟩

def Date.isoformat (d : Date) : String :=
  String.ofList (padded 4 d.year ++ '-' :: (padded 2 d.month ++ '-' :: padded 2 d.day))

/-! ### Months -/

theorem monthDay_sum (before later : List ℕ) (n : ℕ) (hlast : n < later.sum) :
    ((before ++ later).take ((monthDay later (before.length + 1) n).1 - 1)).sum +
      (monthDay later (before.length + 1) n).2 = before.sum + n + 1 := by
  induction later generalizing before n with
  | nil => simp at hlast
  | cons length later ih =>
    unfold monthDay
    split_ifs with h
    · simp only [Nat.add_sub_cancel]
      rw [List.take_left']
      · omega
      · rfl
    · have hrest := ih (before ++ [length]) (n - length) (by
        rw [List.sum_cons] at hlast
        omega)
      rw [List.append_assoc, List.singleton_append, List.length_append, List.length_singleton,
        List.sum_append, List.sum_singleton] at hrest
      rw [hrest]
      omega

theorem monthDay_year (leap : Bool) {n : ℕ} (h : n < 365) :
    daysBeforeMonth leap (monthDay (monthLengths leap) 1 n).1 +
      (monthDay (monthLengths leap) 1 n).2 = n + 1 := by
  have hlast : n < (monthLengths leap).sum := by
    cases leap
    · exact h
    · exact Nat.lt_trans h (by decide)
  have hsum := monthDay_sum [] (monthLengths leap) n hlast
  simp only [List.nil_append, List.length_nil, List.sum_nil, Nat.zero_add] at hsum
  exact hsum

/-! ### Years -/

theorem daysBeforeYear_cycles {a b c d : ℕ} (hb : b ≤ 3) (hc : c ≤ 24) (hd : d ≤ 3) :
    daysBeforeYear (a * 400 + 1 + b * 100 + c * 4 + d) =
      a * 146097 + b * 36524 + c * 1461 + d * 365 := by
  unfold daysBeforeYear
  have hyear : a * 400 + 1 + b * 100 + c * 4 + d - 1 = a * 400 + b * 100 + c * 4 + d := by omega
  have h4 : (a * 400 + b * 100 + c * 4 + d) / 4 = a * 100 + b * 25 + c := by omega
  have h100 : (a * 400 + b * 100 + c * 4 + d) / 100 = a * 4 + b := by omega
  have h400 : (a * 400 + b * 100 + c * 4 + d) / 400 = a := by omega
  rw [hyear, h4, h100, h400]
  omega

theorem toordinal_lastDay {year : ℕ} (h : isLeap year = true) :
    (Date.mk year 12 31).toordinal = daysBeforeYear year + 366 := by
  unfold Date.toordinal daysBeforeMonth
  rw [h]
  rfl

theorem toordinal_fromordinal {n : ℕ} (hn : 1 ≤ n) : (fromordinal n).toordinal = n := by
  unfold fromordinal
  simp only
  generalize ha : (n - 1) / 146097 = a
  generalize hb : (n - 1) % 146097 / 36524 = b
  generalize hc : (n - 1) % 146097 % 36524 / 1461 = c
  generalize hd : (n - 1) % 146097 % 36524 % 1461 / 365 = d
  generalize hr : (n - 1) % 146097 % 36524 % 1461 % 365 = r
  have hn' : n - 1 = a * 146097 + b * 36524 + c * 1461 + d * 365 + r := by omega
  have hr' : r < 365 := by omega
  split_ifs with hlast
  · -- the last day of a leap year
    have hleap : isLeap (a * 400 + 1 + b * 100 + c * 4 + d - 1) = true := by
      unfold isLeap
      rw [decide_eq_true_eq]
      omega
    rw [toordinal_lastDay hleap]
    by_cases hcentury : b = 4
    · have hyear : a * 400 + 1 + b * 100 + c * 4 + d - 1 = a * 400 + 1 + 3 * 100 + 24 * 4 + 3 := by
        omega
      rw [hyear, daysBeforeYear_cycles (by omega) (by omega) (by omega)]
      omega
    · have hyear : a * 400 + 1 + b * 100 + c * 4 + d - 1 = a * 400 + 1 + b * 100 + c * 4 + 3 := by
        omega
      rw [hyear, daysBeforeYear_cycles (by omega) (by omega) (by omega)]
      omega
  · have hbd : b ≤ 3 ∧ c ≤ 24 ∧ d ≤ 3 := by omega
    have hmonth := monthDay_year (isLeap (a * 400 + 1 + b * 100 + c * 4 + d)) hr'
    unfold Date.toordinal
    simp only
    rw [daysBeforeYear_cycles hbd.1 hbd.2.1 hbd.2.2]
    omega

theorem fromordinal_inj {m n : ℕ} (hm : 1 ≤ m) (hn : 1 ≤ n) (h : fromordinal m = fromordinal n) :
    m = n := by
  have hordinal := congrArg Date.toordinal h
  rwa [toordinal_fromordinal hm, toordinal_fromordinal hn] at hordinal

theorem isoformat_inj {d e : Date} (h : d.isoformat = e.isoformat) : d = e := by
  unfold Date.isoformat at h
  have hlist := String.ofList_inj.mp h
  obtain ⟨hyear, hrest⟩ := digits_cancel isDigit_padded isDigit_padded (by decide) hlist
  obtain ⟨hmonth, hday⟩ := digits_cancel isDigit_padded isDigit_padded (by decide) hrest
  obtain ⟨year, month, day⟩ := d
  obtain ⟨year', month', day'⟩ := e
  obtain rfl : year = year' := padded_inj hyear
  obtain rfl : month = month' := padded_inj hmonth
  obtain rfl : day = day' := padded_inj hday
  rfl

end AnalyticsEngine.Library
