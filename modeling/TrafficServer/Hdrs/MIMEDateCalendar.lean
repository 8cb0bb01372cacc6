import TrafficServer.Hdrs.MIMEDate
import TrafficServer.Lib.Gregorian

/-!
# Dates follow the calendar

`yearDays` counts days as the calendar does in years that begin in March, from another first day. So the
loop of the slow case stops at the year of the day, and the tables give the month and the day in it. The
parser does the same sum, and so returns the time that has been printed.
-/

namespace TrafficServer.MIMEDate

open Option List CInt Gregorian

/-! ### Years -/

theorem number_epoch : (date 0).number = 719469 := by decide

theorem yearDays_eq (a : Nat) : yearDays a = (daysBefore (1900 + a) : Int) - 693960 := by
  unfold yearDays daysBefore
  rw [Int.tdiv_eq_ediv_of_nonneg (by omega), Int.tdiv_eq_ediv_of_nonneg (by omega),
    Int.tdiv_eq_ediv_of_nonneg (by omega)]
  have h1 : (1900 + a) / 4 = 475 + a / 4 := by omega
  have h2 : (1900 + a) / 100 = 19 + a / 100 := by omega
  have h3 : (1900 + a) / 400 = 4 + (a / 100 + 3) / 4 := by omega
  rw [h1, h2, h3]
  omega

/-- The day before the March of a year since 1900. -/
def marchEve (a : Nat) : Int := daysBefore (1900 + a) - 719469

theorem yearDays_sub (a : Nat) : yearDays a - daysOffset - 1 = marchEve a := by
  rw [yearDays_eq, daysOffset, marchEve]
  omega

theorem marchEve_succ (a : Nat) : marchEve (a + 1) = marchEve a + if leap (1901 + a) then 366 else 365 := by
  rw [marchEve, marchEve, ← add_assoc, daysBefore_succ, add_right_comm]
  split <;> push_cast <;> ring

theorem marchEve_add_le (a k : Nat) : marchEve a + 365 * k ≤ marchEve (a + k) := by
  induction k with
  | zero => simp
  | succ k ih =>
    have := marchEve_succ (a + k)
    rw [← add_assoc]
    split at this <;> omega

variable {a : Nat}

theorem marchEve_mono {b : Nat} (h : a ≤ b) : marchEve a ≤ marchEve b := by
  have := marchEve_add_le a (b - a)
  rw [Nat.add_sub_cancel' h] at this
  omega

theorem refineYear_succ (mday : Int) (fuel g : Nat) (d : Int) : refineYear mday (fuel + 1) g d (marchEve g) =
      if marchEve g < mday then refineYear mday fuel (g + 1 : Nat) (marchEve g) (marchEve (g + 1))
      else some ((g : Int), d) := by
  rw [refineYear, ← Nat.cast_succ, yearDays_sub]

variable {mday d year : Int}

theorem refineYear_eq (h1 : marchEve a < mday) (h2 : mday ≤ marchEve (a + 1))
    (fuel g : Nat) (hg : g ≤ a) (d : Int) (hfuel : mday - marchEve g < fuel) :
    refineYear mday fuel g d (marchEve g) = some (((a + 1 : Nat) : Int), marchEve a) := by
  have hle := marchEve_mono hg
  induction fuel generalizing g d with
  | zero => omega
  | succ fuel ih =>
    rw [refineYear_succ, if_pos (by omega)]
    rcases lt_or_eq_of_le hg with hlt | rfl
    · have := marchEve_add_le g 1
      exact ih (g + 1) hlt _ (by push_cast at hfuel; omega) (marchEve_mono hlt)
    · obtain ⟨fuel, rfl⟩ : ∃ f, fuel = f + 1 := ⟨fuel - 1, by omega⟩
      rw [refineYear_succ, if_neg (by omega)]

theorem refineYear_cases (fuel g : Nat) {d' : Int}
    (h : refineYear mday fuel g d (marchEve g) = some (year, d')) : (year = g ∧ d' = d ∧ mday ≤ marchEve g) ∨
      ∃ a : Nat, g ≤ a ∧ year = (a + 1 : Nat) ∧ d' = marchEve a ∧ marchEve a < mday := by
  induction fuel generalizing g d with
  | zero => cases h
  | succ fuel ih =>
    rw [refineYear_succ] at h
    split at h
    · next hlt =>
      rcases ih (g + 1) h with ⟨hyear, hd, -⟩ | ⟨a, ha, hrest⟩
      · exact .inr ⟨g, le_rfl, hyear, hd, hlt⟩
      · exact .inr ⟨a, by omega, hrest⟩
    · next hge =>
      obtain ⟨rfl, rfl⟩ := Prod.mk.inj (some.inj h)
      exact .inl ⟨rfl, rfl, by omega⟩

/-! ### Months -/

theorem monthLength_le_leap (year m : Nat) : monthLength year m ≤ monthLength 0 m := by
  by_cases h : m = 1
  · rw [h, monthLength, monthLength]
    split <;> decide
  · unfold monthLength
    split <;> simp_all

theorem months_entries : months.length = 367 ∧ ∀ p ∈ months.zipIdx,
    p.1 < 12 ∧ monthOffset p.1 ≤ p.2 ∧ p.2 ≤ monthOffset p.1 + monthLength 0 p.1 ∧
      (0 < p.2 → monthOffset p.1 < p.2) := by
  decide +kernel

theorem months_getD {d : Nat} (hd : d < 367) : months.getD d 0 < 12 ∧ monthOffset (months.getD d 0) ≤ d ∧
    d ≤ monthOffset (months.getD d 0) + monthLength 0 (months.getD d 0) ∧
    (0 < d → monthOffset (months.getD d 0) < d) := by
  have hlt : d < months.length := by rw [months_entries.1]; exact hd
  have hget : months.getD d 0 = months[d] := by rw [getD_eq_getElem?_getD, getElem?_eq_getElem hlt, getD_some]
  rw [hget]
  exact months_entries.2 (months[d], d) (mk_mem_zipIdx_iff_getElem?.mpr (getElem?_eq_getElem hlt))

theorem days_getD : ∀ m < 12, days.getD m 0 = (monthOffset m : Int) - 1 := by decide

theorem monthOffset_disjoint : ∀ m < 12, ∀ m' < 12, m ≠ m' →
    monthOffset m + monthLength 0 m ≤ monthOffset m' ∨ monthOffset m' + monthLength 0 m' ≤ monthOffset m := by
  decide

variable {x : Date}

theorem table_of_valid (hv : x.Valid) : x.marchDay ≤ 366 ∧ months.getD x.marchDay 0 = x.month ∧
      days.getD x.month 0 = (monthOffset x.month : Int) - 1 := by
  obtain ⟨hm, hd, hle⟩ := hv
  -- no month is longer than in a leap year
  have hle' := hle.trans (monthLength_le_leap x.year x.month)
  have hday : x.marchDay ≤ 366 := by
    have : ∀ m < 12, monthOffset m + monthLength 0 m ≤ 366 := by decide
    have := this x.month hm
    rw [Date.marchDay]
    omega
  have hmarch : x.marchDay = monthOffset x.month + x.day := rfl
  refine ⟨hday, ?_, days_getD x.month hm⟩
  obtain ⟨hm', -, hhi, hlo⟩ := months_getD (d := x.marchDay) (by omega)
  by_contra hne
  have := monthOffset_disjoint _ hm' _ hm hne
  omega

/-! ### The slow case -/

theorem marchYear_add (x : Date) (hy : 1970 ≤ x.year) : ∃ a, 1900 + a = x.marchYear ∧ 69 ≤ a := by
  refine ⟨x.marchYear - 1900, ?_, ?_⟩ <;> unfold Date.marchYear <;> split <;> omega

theorem year_date (n : Nat) : 1970 ≤ (date n).year := by
  induction n with
  | zero => decide
  | succ n ih =>
    rw [date, Date.next]
    split
    · exact ih
    · split
      · exact ih
      · exact ih.trans (Nat.le_succ _)

theorem marchDay_le (hv : x.Valid) (ha : 1900 + a = x.marchYear) : marchEve a + x.marchDay ≤ marchEve (a + 1) := by
  rw [marchEve_succ]
  have htable := (table_of_valid hv).1
  split
  · omega
  · next hleap =>
    -- without a leap day the year ends on February 28
    suffices h : x.marchDay ≤ 365 by omega
    obtain ⟨hm, hd, hle⟩ := hv
    have hlen := monthLength_le x.year x.month
    unfold Date.marchDay
    by_cases hfeb : x.month = 1
    · have hy : x.year = 1901 + a := by
        unfold Date.marchYear at ha
        rw [if_pos (by omega)] at ha
        omega
      rw [hfeb, hy] at hle
      rw [monthLength, if_neg hleap] at hle
      rw [hfeb, monthOffset]
      omega
    · generalize x.month = m at hm hfeb ⊢
      interval_cases m <;> simp [monthOffset] at hfeb ⊢ <;> omega

variable {n : Nat}

theorem slowcase_unfold (hn : n < 2 ^ 31) : mimeDaysSinceEpochToMdySlowcase n =
      (refineYear n (((n : Int) - marchEve (n / 365 + 69)).toNat + 1) (n / 365 + 69 : Nat)
        (marchEve (n / 365 + 69)) (marchEve (n / 365 + 69))).bind fun p => mdyOf n p.1 p.2 := by
  have hmday : toInt32 n = n := toInt32_of_mem (by omega) (by omega)
  have hguess : (n : Int).tdiv 365 + 69 = (n / 365 + 69 : Nat) := by
    rw [Int.tdiv_eq_ediv_of_nonneg (by omega)]
    push_cast
    rfl
  rw [mimeDaysSinceEpochToMdySlowcase, hmday, hguess, yearDays_sub]

theorem marchEve_guess_lt (hn : n < 24837) : marchEve (n / 365 + 69) < n := by
  have h1 : (1900 + (n / 365 + 69)) / 4 ≤ 509 := by omega
  have h2 : 19 ≤ (1900 + (n / 365 + 69)) / 100 := by omega
  have h3 : (1900 + (n / 365 + 69)) / 400 ≤ 5 := by omega
  rw [marchEve, daysBefore]
  generalize (1900 + (n / 365 + 69)) / 4 = q1 at h1 ⊢
  generalize (1900 + (n / 365 + 69)) / 100 = q2 at h2 ⊢
  generalize (1900 + (n / 365 + 69)) / 400 = q3 at h3 ⊢
  omega

theorem mdyOf_eq (hv : x.Valid) (ha : 1900 + a = x.marchYear) (hn : marchEve a + x.marchDay = n) :
    mdyOf n (a + 1 : Nat) (marchEve a) = some ⟨x.month, x.day, x.year⟩ := by
  obtain ⟨hday, hmonth, hdays⟩ := table_of_valid hv
  have hd : (n : Int) - marchEve a = x.marchDay := by omega
  have hmarch : x.marchDay = monthOffset x.month + x.day := rfl
  rw [mdyOf, hd, Int.toNat_natCast, hmonth]
  dsimp only
  rw [hdays, if_neg (by omega)]
  simp only [some.injEq, Mdy.mk.injEq, true_and]
  refine ⟨by omega, ?_⟩
  rw [Date.marchYear] at ha
  split <;> split at ha <;> push_cast <;> omega

/-- **The slow case gives the date of the day**, up to the end of 2037. -/
theorem slowcase_eq (hn : n < 24837) : mimeDaysSinceEpochToMdySlowcase n =
      some ⟨(date n).month, (date n).day, (date n).year⟩ := by
  have hnum := number_date n
  have hv := valid_date n
  obtain ⟨a, ha, -⟩ := marchYear_add (date n) (year_date n)
  generalize date n = x at hnum hv ha ⊢
  have hday : marchEve a + x.marchDay = n := by
    rw [number_epoch, Date.number, ← ha] at hnum
    rw [marchEve]
    omega
  have hle := marchDay_le hv ha
  have hpos : 1 ≤ x.marchDay := by
    have := hv.2.1
    rw [Date.marchDay]
    omega
  have hearly := marchEve_guess_lt hn
  have hga : n / 365 + 69 ≤ a := by
    by_contra hlt
    have hmono := marchEve_mono (show a + 1 ≤ n / 365 + 69 by omega)
    omega
  rw [slowcase_unfold (by omega), refineYear_eq (a := a) (by omega) (by omega) _ _ hga _ (by omega),
    bind_some, mdyOf_eq hv ha hday]

theorem year_lt {fuel : Nat} (hn : n < 2 ^ 31)
    (h : refineYear n fuel (n / 365 + 69 : Nat) (marchEve (n / 365 + 69)) (marchEve (n / 365 + 69))
      = some (year, d)) (hd : 0 ≤ (n : Int) - d) : 0 ≤ year ∧ year < 60000 := by
  generalize hgen : n / 365 + 69 = g at h
  have hlow : (365 * g + g / 4 - g / 100 : Int) - 25969 ≤ marchEve g := by
    rw [marchEve, daysBefore]
    omega
  rcases refineYear_cases _ _ h with ⟨rfl, rfl, -⟩ | ⟨a, ha, rfl, rfl, hlt⟩
  · omega
  · have := marchEve_add_le g (a - g)
    rw [Nat.add_sub_cancel' ha] at this
    omega

theorem pack_of_slowcase (hn : n < 2 ^ 31) {x : Mdy}
    (h : mimeDaysSinceEpochToMdySlowcase n = some x) : x.pack = x := by
  rw [slowcase_unfold hn, bind_eq_some_iff] at h
  obtain ⟨⟨year, d⟩, hrefine, h⟩ := h
  rw [mdyOf] at h
  split at h
  · cases h
  · next hd =>
    push Not at hd
    have hyear := year_lt hn hrefine hd.1
    obtain ⟨hm, hlo, hhi, -⟩ := months_getD (d := (n - d).toNat) (by omega)
    have hdays := days_getD _ hm
    have hlen := monthLength_le 0 (months.getD (n - d).toNat 0)
    obtain rfl := some.inj h
    rw [Mdy.pack, hdays]
    dsimp only
    rw [Int.emod_eq_of_lt (by omega) (by omega), Int.emod_eq_of_lt (by omega) (by omega), Int.emod_eq_of_lt]
    · split <;> omega
    · split <;> omega

theorem lookup_eq (nowDays : Nat) (hnow : nowDays + 366 < 2 ^ 31) (n : Nat) :
    mimeDaysSinceEpochToMdy (mimeInitDateFormatTable nowDays) n = mimeDaysSinceEpochToMdySlowcase n := by
  rw [mimeDaysSinceEpochToMdy]
  split
  · next h =>
    obtain ⟨hfirst, hlast⟩ := h
    dsimp only [mimeInitDateFormatTable] at hfirst hlast ⊢
    have hi : n - (((nowDays : Int) - 366) % 2 ^ 32).toNat < 366 + 366 + 1 := by omega
    have harg : (((nowDays : Int) - (366 : Int) +
        ((n - (((nowDays : Int) - (366 : Int)) % 2 ^ 32).toNat : Nat) : Int)) % 2 ^ 32).toNat = n := by
      omega
    rw [getD_eq_getElem?_getD, getElem?_map, getElem?_range hi, map_some, getD_some, harg]
    cases hslow : mimeDaysSinceEpochToMdySlowcase n with
    | none => rfl
    | some x => rw [map_some, pack_of_slowcase (by omega) hslow]
  · rfl

end TrafficServer.MIMEDate
