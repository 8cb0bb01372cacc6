import Mathlib.Tactic.IntervalCases

/-!
# The Gregorian calendar

The proleptic Gregorian calendar as the sequence of its days: each date has a next one, and day `n` is
the `n`-th after January 1, 1970. Months are counted from 0. `number` counts the days up to a date in
years that begin in March, so that the leap day is the last one of its year.
-/

namespace Gregorian

def leap (year : Nat) : Prop := year % 4 = 0 ∧ (year % 100 ≠ 0 ∨ year % 400 = 0)
deriving Decidable

def monthLength (year : Nat) : Nat → Nat
  | 1 => if leap year then 29 else 28
  | 3 | 5 | 8 | 10 => 30
  | _ => 31

structure Date where
  year : Nat
  month : Nat
  day : Nat
deriving DecidableEq

def Date.Valid (d : Date) : Prop := d.month < 12 ∧ 1 ≤ d.day ∧ d.day ≤ monthLength d.year d.month

def Date.next (d : Date) : Date :=
  if d.day < monthLength d.year d.month then { d with day := d.day + 1 }
  else if d.month < 11 then ⟨d.year, d.month + 1, 1⟩
  else ⟨d.year + 1, 0, 1⟩

def date : Nat → Date
  | 0 => ⟨1970, 0, 1⟩
  | n + 1 => (date n).next

def weekday : Nat → Nat
  | 0 => 4
  | n + 1 => (weekday n + 1) % 7

theorem weekday_eq (n : Nat) : weekday n = (4 + n) % 7 := by
  induction n with
  | zero => rfl
  | succ n ih =>
    rw [weekday, ih]
    omega

/-- The days of a year that begins in March, before a month. -/
def monthOffset : Nat → Nat
  | 0 => 306
  | 1 => 337
  | 2 => 0
  | 3 => 31
  | 4 => 61
  | 5 => 92
  | 6 => 122
  | 7 => 153
  | 8 => 184
  | 9 => 214
  | 10 => 245
  | _ => 275

def Date.marchYear (d : Date) : Nat := if d.month < 2 then d.year - 1 else d.year

def Date.marchDay (d : Date) : Nat := monthOffset d.month + d.day

def daysBefore (year : Nat) : Nat := 365 * year + year / 4 - year / 100 + year / 400

def Date.number (d : Date) : Nat := daysBefore d.marchYear + d.marchDay

theorem succ_div (year b : Nat) : (year + 1) / b = year / b + if (year + 1) % b = 0 then 1 else 0 := by
  rw [Nat.succ_div]
  simp only [Nat.dvd_iff_mod_eq_zero]

theorem daysBefore_succ (year : Nat) :
    daysBefore (year + 1) = daysBefore year + if leap (year + 1) then 366 else 365 := by
  have h1 : (year + 1) % 100 = 0 → (year + 1) % 4 = 0 := by omega
  have h2 : (year + 1) % 400 = 0 → (year + 1) % 100 = 0 := by omega
  unfold daysBefore leap
  rw [succ_div year 4, succ_div year 100, succ_div year 400]
  by_cases h4 : (year + 1) % 4 = 0 <;> by_cases h100 : (year + 1) % 100 = 0 <;>
    by_cases h400 : (year + 1) % 400 = 0 <;> simp [h4, h100, h400] at h1 h2 ⊢ <;> omega

theorem daysBefore_strictMono : StrictMono daysBefore := by
  refine strictMono_nat_of_lt_succ fun year => ?_
  rw [daysBefore_succ]
  split <;> omega

theorem monthLength_le (year m : Nat) : monthLength year m ≤ 31 := by
  unfold monthLength
  split <;> (try split) <;> omega

theorem valid_date (n : Nat) : (date n).Valid := by
  induction n with
  | zero => exact ⟨by decide, le_rfl, by decide⟩
  | succ n ih =>
    obtain ⟨hm, hd, hle⟩ := ih
    have hpos (y m : Nat) : 1 ≤ monthLength y m := by
      unfold monthLength
      split <;> (try split) <;> omega
    rw [date, Date.next]
    split
    · next h => exact ⟨hm, by dsimp only; omega, h⟩
    · split
      · next h => exact ⟨by dsimp only; omega, le_rfl, hpos _ _⟩
      · exact ⟨by dsimp only; omega, le_rfl, hpos _ _⟩

theorem year_pos (n : Nat) : 0 < (date n).year := by
  induction n with
  | zero => decide
  | succ n ih =>
    rw [date, Date.next]
    split
    · exact ih
    · split
      · exact ih
      · exact Nat.succ_pos _

theorem number_next {d : Date} (hv : d.Valid) (hy : 0 < d.year) : d.next.number = d.number + 1 := by
  obtain ⟨year, month, day⟩ := d
  obtain ⟨hm, hd, hle⟩ := hv
  dsimp only at hm hd hle hy
  rw [Date.next]
  dsimp only
  split
  · rfl
  · next hlast =>
    obtain rfl : day = monthLength year month := by omega
    by_cases hfeb : month = 1
    · -- a year that begins in March is over
      obtain ⟨y, rfl⟩ : ∃ y, year = y + 1 := ⟨year - 1, by omega⟩
      subst hfeb
      have hsucc := daysBefore_succ y
      by_cases h : leap (y + 1)
      · rw [if_pos h] at hsucc
        simp [Date.number, Date.marchYear, Date.marchDay, monthOffset, monthLength, h]
        omega
      · rw [if_neg h] at hsucc
        simp [Date.number, Date.marchYear, Date.marchDay, monthOffset, monthLength, h]
        omega
    · interval_cases month <;>
        simp [Date.number, Date.marchYear, Date.marchDay, monthOffset, monthLength] at hfeb ⊢

theorem number_date (n : Nat) : (date n).number = (date 0).number + n := by
  induction n with
  | zero => rfl
  | succ n ih =>
    change (date n).next.number = _
    rw [number_next (valid_date n) (year_pos n), ih, add_assoc]

end Gregorian
