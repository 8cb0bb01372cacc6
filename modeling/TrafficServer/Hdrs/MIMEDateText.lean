import TrafficServer.Hdrs.MIMEDateCalendar

/-!
# Dates as text

`httpDate` is the text of a time in the calendar. `mime_format_date` prints it, through the table or the
slow case, and both ways of `mime_parse_date` (the columns of the fast case, and the words one after the
other) read the same parts from it. The seconds of these parts are the time again, because day and year
count from March in both directions.
-/

namespace TrafficServer.MIMEDate

open Option List CInt ParseRules MIMECooked Gregorian

/-! ### The text -/

def decimal (k : Nat) : UInt8 := UInt8.ofNat (k % 10 + 48)

def twoDigits (n : Nat) : Bytes := [decimal (n / 10), decimal n]

def fourDigits (n : Nat) : Bytes :=
  [decimal (n / 1000), decimal (n / 100), decimal (n / 10), decimal n]

/-- Day of the week, date and time of day in the format of HTTP. -/
def dateText (wday : Nat) (x : Date) (hour min sec : Nat) : Bytes :=
  strBytes (daystrs.getD wday "") ++ [44, 32] ++ twoDigits x.day ++ [32] ++
    strBytes (monthstrs.getD x.month "") ++ [32] ++ fourDigits x.year ++ [32] ++
    twoDigits hour ++ [58] ++ twoDigits min ++ [58] ++ twoDigits sec ++ [32, 71, 77, 84]

def afterComma (x : Date) (hour min sec : Nat) : Bytes :=
  32 :: (twoDigits x.day ++ 32 :: (strBytes (monthstrs.getD x.month "") ++ 32 :: (fourDigits x.year ++
    32 :: (twoDigits hour ++ 58 :: (twoDigits min ++ 58 :: (twoDigits sec ++ [32, 71, 77, 84]))))))

theorem dateText_eq (w : Nat) (x : Date) (hour min sec : Nat) : dateText w x hour min sec =
    strBytes (daystrs.getD w "") ++ 44 :: afterComma x hour min sec := by
  simp only [dateText, afterComma, append_assoc, cons_append, nil_append]

def httpDate (t : Nat) : Bytes :=
  dateText (weekday (t / 86400)) (date (t / 86400)) (t / 3600 % 24) (t / 60 % 60) (t % 60)

theorem digit_facts : ∀ k < 10, isDigit (UInt8.ofNat (k + 48)) = true ∧
    isAlpha (UInt8.ofNat (k + 48)) = false ∧ UInt8.ofNat (k + 48) ≠ 0 ∧ UInt8.ofNat (k + 48) ≠ 45 ∧
    (UInt8.ofNat (k + 48)).toNat - 48 = k ∧ (UInt8.ofNat (k + 48)).toBitVec.toInt - 48 = k := by
  decide

variable (k : Nat)

theorem decimal_facts : isDigit (decimal k) = true ∧ isAlpha (decimal k) = false ∧
    decimal k ≠ 0 ∧ decimal k ≠ 45 ∧ (decimal k).toNat - 48 = k % 10 ∧
    (decimal k).toBitVec.toInt - 48 = (k % 10 : Nat) :=
  digit_facts (k % 10) (Nat.mod_lt k (by decide))

@[simp] theorem isDigit_decimal : isDigit (decimal k) = true := (decimal_facts k).1

@[simp] theorem decimal_ne_zero : decimal k ≠ 0 := (decimal_facts k).2.2.1

@[simp] theorem decimal_ne_minus : decimal k ≠ 45 := (decimal_facts k).2.2.2.1

@[simp] theorem decimal_toNat : (decimal k).toNat - 48 = k % 10 := (decimal_facts k).2.2.2.2.1

theorem decimal_toInt : (decimal k).toBitVec.toInt - 48 = (k % 10 : Nat) := (decimal_facts k).2.2.2.2.2

theorem day_names : ∀ w < 7, ∀ s, s = strBytes (daystrs.getD w "") →
    s = [s.getD 0 0, s.getD 1 0, s.getD 2 0] ∧ (∀ c ∈ s, c ≠ 0 ∧ isAlpha c = true) ∧
      wdayOf (threeChars s 0) = some w ∧ matchNames dayNames s = some w := by
  intro w hw s hs
  subst hs
  revert w
  decide +kernel

theorem month_names : ∀ m < 12, ∀ s, s = strBytes (monthstrs.getD m "") →
    s = [s.getD 0 0, s.getD 1 0, s.getD 2 0] ∧ (∀ c ∈ s, c ≠ 0 ∧ isAlpha c = true) ∧
      monOf (threeChars s 0) = some m ∧ matchNames monthNames s = some m := by
  intro m hm s hs
  subst hs
  revert m
  decide +kernel

theorem of_isAlpha : ∀ c : UInt8, isAlpha c = true → isWs c = false ∧ isDigit c = false := by
  intro c h
  grind [isAlpha, isWs, charSP, charHT, isDigit]

/-! ### Printing -/

variable {k n i m : Nat}

theorem digitByte_eq (hk : k < 10) : digitByte k = decimal k := by
  rw [digitByte, decimal, show ((k : Int) + 48).toNat = k + 48 by omega, Nat.mod_eq_of_lt hk]

theorem digitstrs_eq (hn : n < 100) : digitstrs n = twoDigits n := by
  have h1 : (n : Int) / 10 = (n / 10 : Nat) := by omega
  have h2 : (n : Int) % 10 = (n % 10 : Nat) := by omega
  rw [digitstrs, twoDigits, h1, h2, digitByte_eq (by omega), digitByte_eq (by omega), decimal,
    decimal, decimal, Nat.mod_mod]

theorem tdiv_ten : (k : Int).tdiv 10 = (k / 10 : Nat) := by
  rw [Int.tdiv_eq_ediv_of_nonneg (by omega)]
  omega

theorem digitByte_tmod : digitByte ((k : Int).tmod 10) = decimal k := by
  have h : (k : Int).tmod 10 = (k % 10 : Nat) := by
    rw [Int.tmod_eq_emod_of_nonneg (by omega)]
    omega
  rw [h, digitByte_eq (Nat.mod_lt k (by decide)), decimal, decimal, Nat.mod_mod]

theorem yearBytes_eq (y : Nat) : yearBytes y = fourDigits y := by
  rw [yearBytes]
  split
  · next h =>
    obtain ⟨k, rfl⟩ : ∃ k, y = 2000 + k := ⟨y - 2000, by omega⟩
    have hk : k < 10 := by omega
    interval_cases k <;> rfl
  · split
    · next h =>
      obtain ⟨k, rfl⟩ : ∃ k, y = 1990 + k := ⟨y - 1990, by omega⟩
      have hk : k < 10 := by omega
      interval_cases k <;> rfl
    · have h100 : y / 10 / 10 = y / 100 := by omega
      have h1000 : y / 100 / 10 = y / 1000 := by omega
      rw [tdiv_ten, tdiv_ten, h100, tdiv_ten, h1000, digitByte_tmod, digitByte_tmod, digitByte_tmod,
        digitByte_tmod, fourDigits]

theorem day_lt (h : (date n).year ≤ 2037) : n < 24837 := by
  have hnum := number_date n
  have hv := valid_date n
  rw [number_epoch] at hnum
  generalize date n = x at h hnum hv
  have hday := (table_of_valid hv).1
  obtain ⟨hm, hd, hle⟩ := hv
  have hlen := monthLength_le x.year x.month
  have hmono := daysBefore_strictMono.monotone
  rw [Date.number] at hnum
  by_cases hlast : x.marchYear = 2037
  · have hmonth : ¬x.month < 2 := by
      intro hlt
      unfold Date.marchYear at hlast
      rw [if_pos hlt] at hlast
      omega
    have hoff : monthOffset x.month ≤ 275 := by
      generalize x.month = m at hm hmonth
      interval_cases m <;> simp [monthOffset] at hmonth ⊢
    have : daysBefore 2037 = 743999 := by decide
    rw [hlast, Date.marchDay] at hnum
    omega
  · have hle' : x.marchYear ≤ 2036 := by
      have : x.marchYear ≤ x.year := by
        unfold Date.marchYear
        split <;> omega
      omega
    have h1 := hmono hle'
    have : daysBefore 2036 = 743634 := by decide
    omega

theorem day_lt_hundred {x : Date} (hv : x.Valid) : x.day < 100 :=
  lt_of_le_of_lt (hv.2.2.trans (monthLength_le x.year x.month)) (by decide)

variable {c : UInt8}

theorem mimeFormatDate_eq {nowDays t : Nat} (hnow : nowDays + 366 < 2 ^ 31) (ht : (date (t / 86400)).year ≤ 2037) :
    mimeFormatDate (mimeInitDateFormatTable nowDays) t = some (httpDate t) := by
  have hn := day_lt ht
  have hday : t / 60 / 60 / 24 = t / 86400 := by omega
  have hsmall : t / 86400 % 2 ^ 32 = t / 86400 := Nat.mod_eq_of_lt (by omega)
  have hhour : t / 60 / 60 % 24 = t / 3600 % 24 := by omega
  have hcomma : strBytes ", " = [44, 32] := rfl
  have hblank : strBytes " " = [32] := rfl
  have hcolon : strBytes ":" = [58] := rfl
  have hgmt : strBytes " GMT" = [32, 71, 77, 84] := rfl
  rw [mimeFormatDate]
  simp only [hday, hsmall, hhour, lookup_eq nowDays hnow, slowcase_eq hn, bind_eq_bind, bind_some]
  rw [digitstrs_eq (day_lt_hundred (valid_date _)), digitstrs_eq (by omega), digitstrs_eq (by omega),
    digitstrs_eq (by omega), yearBytes_eq, Int.toNat_natCast, ← weekday_eq, hcomma, hblank, hcolon,
    hgmt, httpDate, dateText]

/-! ### Parsing word by word -/

theorem mimeParseMday_skip (h : c ≠ 0 ∧ isDigit c = false ∧ c ≠ 45) (s : Bytes) :
    mimeParseMday (c :: s) = mimeParseMday s := by
  obtain ⟨h0, hd, hm⟩ := h
  rw [mimeParseMday, mimeParseMday, mimeParseInteger, mimeParseInteger, afterInteger, afterInteger]
  simp only [dropWhile_cons, h0, hd, hm, ne_eq, not_false_eq_true, decide_true, Bool.not_false,
    Bool.and_self, if_true]

def digitsValue (s : Bytes) : Int :=
  s.foldl (fun (v : Int) d => toInt32 (v * 10 + (d.toNat - 48 : Nat))) 0

variable {s : Bytes}

theorem digitsValue_append_decimal (h : digitsValue s = (k / 10 : Nat))
    (hk : k < 10000) : digitsValue (s ++ [decimal k]) = k := by
  rw [digitsValue] at h
  rw [digitsValue, foldl_append, h, foldl_cons, foldl_nil, decimal_toNat, toInt32_of_mem (by omega) (by omega)]
  omega

theorem digitsValue_decimal (hk : k < 10) : digitsValue [decimal k] = k := by
  have h : (0 : Int) = (k / 10 : Nat) := by omega
  exact digitsValue_append_decimal (s := []) h (by omega)

theorem digitsValue_twoDigits (hn : n < 100) : digitsValue (twoDigits n) = n := by
  rw [twoDigits, show [decimal (n / 10), decimal n] = [decimal (n / 10)] ++ [decimal n] from rfl]
  exact digitsValue_append_decimal (digitsValue_decimal (by omega)) (by omega)

theorem digitsValue_fourDigits (hn : n < 10000) : digitsValue (fourDigits n) = n := by
  have h2 : digitsValue (twoDigits (n / 100)) = (n / 10 / 10 : Nat) := by
    rw [digitsValue_twoDigits (by omega), Nat.div_div_eq_div_mul]
  have h4 := digitsValue_append_decimal (digitsValue_append_decimal h2 (by omega)) hn
  rw [twoDigits, Nat.div_div_eq_div_mul] at h4
  exact h4

theorem mimeParseMday_twoDigits (hn : n < 100) (hc : isDigit c = false) (s : Bytes) :
    mimeParseMday (twoDigits n ++ c :: s) = some ((n : Int), c :: s) := by
  have hval := digitsValue_twoDigits hn
  rw [digitsValue, twoDigits] at hval
  rw [mimeParseMday, mimeParseInteger, afterInteger, twoDigits]
  simp only [cons_append, nil_append, dropWhile_cons, takeWhile_cons,
    isDigit_decimal, hc, decimal_ne_zero, decimal_ne_minus, ne_eq, not_false_eq_true, decide_true,
    Bool.not_true, Bool.and_false, Bool.false_and, Bool.false_eq_true, if_false, if_true, map_some]
  rw [hval]

theorem mimeParseYear_skip (h0 : c ≠ 0) (hd : isDigit c = false) (s : Bytes) :
    mimeParseYear (c :: s) = mimeParseYear s := by
  rw [mimeParseYear, mimeParseYear]
  simp only [dropWhile_cons, h0, hd, ne_eq, not_false_eq_true, decide_true, Bool.not_false, Bool.and_self, if_true]

theorem mimeParseYear_fourDigits (hlo : 1900 ≤ n) (hn : n < 10000) (hc : isDigit c = false) (s : Bytes) :
    mimeParseYear (fourDigits n ++ c :: s) = some ((n : Int) - 1900, c :: s) := by
  have hval := digitsValue_fourDigits hn
  rw [digitsValue, fourDigits] at hval
  rw [mimeParseYear, fourDigits]
  simp only [cons_append, nil_append, dropWhile_cons, takeWhile_cons, isDigit_decimal, hc, decimal_ne_zero, ne_eq,
    not_false_eq_true, decide_true, Bool.not_true, Bool.and_false, Bool.false_eq_true, if_false, if_true]
  rw [hval, if_pos (by omega)]

theorem mimeParseWord_eq {names : List (List String)} {d : UInt8}
    (hthree : s = [s.getD 0 0, s.getD 1 0, s.getD 2 0]) (hs : ∀ x ∈ s, x ≠ 0 ∧ isAlpha x = true)
    (hmatch : matchNames names s = some i) (hd : isAlpha d = false) (r : Bytes) :
    mimeParseWord names (s ++ d :: r) = some (i, d :: r) := by
  rw [hthree] at hs hmatch ⊢
  obtain ⟨⟨ha, ha'⟩, ⟨hb, hb'⟩, hc, hc'⟩ := by
    simpa only [forall_mem_cons, not_mem_nil, false_imp_iff, forall_const, and_true] using hs
  rw [mimeParseWord]
  simp only [cons_append, nil_append, dropWhile_cons, takeWhile_cons, ha, ha', hb, hb',
    hc, hc', hd, ne_eq, not_false_eq_true, decide_true, Bool.not_true, Bool.and_false, Bool.false_eq_true,
    if_false, if_true, Bool.and_self]
  rw [hmatch, bind_eq_bind, bind_some]

theorem mimeParseMonth_name (hm : m < 12) (s : Bytes) :
    mimeParseMonth (32 :: (strBytes (monthstrs.getD m "") ++ 32 :: s)) = some (m, 32 :: s) := by
  obtain ⟨hthree, halpha, -, hmatch⟩ := month_names m hm _ rfl
  have hskip : ∀ s, mimeParseMonth (32 :: s) = mimeParseMonth s := by
    intro s
    rw [mimeParseMonth, mimeParseMonth, mimeParseWord, mimeParseWord, dropWhile_cons_of_pos rfl]
  rw [hskip]
  exact mimeParseWord_eq hthree halpha hmatch rfl s

variable {w : Nat}

theorem mimeParseDay_name (hw : w < 7) (s : Bytes) :
    mimeParseDay (strBytes (daystrs.getD w "") ++ 44 :: s) = some (w, 44 :: s) := by
  obtain ⟨hthree, halpha, -, hmatch⟩ := day_names w hw _ rfl
  exact mimeParseWord_eq hthree halpha hmatch rfl s

theorem mimeParseTime_eq {hour min sec : Nat} (hh : hour < 100) (hm : min < 100) (hs : sec < 100) (s : Bytes) :
    mimeParseTime (32 :: (twoDigits hour ++ 58 :: (twoDigits min ++ 58 :: (twoDigits sec ++ 32 :: s)))) =
      some (((hour : Int), (min : Int), (sec : Int)), 32 :: s) := by
  rw [mimeParseTime, mimeParseMday_skip (by decide), mimeParseMday_twoDigits hh (by decide)]
  simp only [bind_eq_bind, bind_some]
  rw [mimeParseMday_skip (by decide), mimeParseMday_twoDigits hm (by decide)]
  simp only [bind_some]
  rw [mimeParseMday_skip (by decide), mimeParseMday_twoDigits hs (by decide), bind_some]

def tmOf (x : Date) (hour min sec : Nat) : Tm where
  mday := x.day
  mon := x.month
  year := x.year - 1900
  hour := hour
  min := min
  sec := sec

variable {x : Date} {hour min sec : Nat}

theorem mimeParseMdayFirst_eq (hv : x.Valid) (hlo : 1900 ≤ x.year) (hhi : x.year < 10000)
    (hh : hour < 100) (hm : min < 100) (hs : sec < 100) :
    mimeParseMdayFirst (44 :: afterComma x hour min sec) = some (tmOf x hour min sec) := by
  rw [mimeParseMdayFirst, afterComma, mimeParseMday_skip (by decide), mimeParseMday_skip (by decide),
    mimeParseMday_twoDigits (day_lt_hundred hv) (by decide)]
  simp only [bind_eq_bind, bind_some]
  rw [mimeParseMonth_name hv.1]
  simp only [bind_some]
  rw [mimeParseYear_skip (by decide) (by decide), mimeParseYear_fourDigits hlo hhi (by decide)]
  simp only [bind_some]
  rw [mimeParseTime_eq hh hm hs, bind_some, tmOf]

/-! ### Parsing by columns -/

theorem threeChars_congr {s' : Bytes} {j : Nat} (h0 : s.getD i 0 = s'.getD j 0)
    (h1 : s.getD (i + 1) 0 = s'.getD (j + 1) 0) (h2 : s.getD (i + 2) 0 = s'.getD (j + 2) 0) :
    threeChars s i = threeChars s' j := by
  rw [threeChars, threeChars, h0, h1, h2]

theorem fastcase_columns {a b p q r d1 d0 y3 y2 y1 y0 h1 h0 m1 m0 s1 s0 : UInt8}
    (hw : wdayOf (threeChars [a, b, c] 0) = some w) (hm : monOf (threeChars [p, q, r] 0) = some m)
    (rest : Bytes) :
    mimeParseRfc822DateFastcase (a :: b :: c :: 44 :: 32 :: d1 :: d0 :: 32 :: p :: q :: r :: 32 ::
      y3 :: y2 :: y1 :: y0 :: 32 :: h1 :: h0 :: 58 :: m1 :: m0 :: 58 :: s1 :: s0 :: rest) =
    some {
      mday := (d1.toBitVec.toInt - 48) * 10 + (d0.toBitVec.toInt - 48)
      mon := m
      year := (y3.toBitVec.toInt - 48) * 1000 + (y2.toBitVec.toInt - 48) * 100 +
        (y1.toBitVec.toInt - 48) * 10 + (y0.toBitVec.toInt - 48) - 1900
      hour := (h1.toBitVec.toInt - 48) * 10 + (h0.toBitVec.toInt - 48)
      min := (m1.toBitVec.toInt - 48) * 10 + (m0.toBitVec.toInt - 48)
      sec := (s1.toBitVec.toInt - 48) * 10 + (s0.toBitVec.toInt - 48) } := by
  obtain ⟨s, hs⟩ : ∃ s, s = a :: b :: c :: 44 :: 32 :: d1 :: d0 :: 32 :: p :: q :: r :: 32 ::
    y3 :: y2 :: y1 :: y0 :: 32 :: h1 :: h0 :: 58 :: m1 :: m0 :: 58 :: s1 :: s0 :: rest := ⟨_, rfl⟩
  have hwday : threeChars s 0 = threeChars [a, b, c] 0 :=
    threeChars_congr (by rw [hs]; rfl) (by rw [hs]; rfl) (by rw [hs]; rfl)
  have hmon : threeChars s 8 = threeChars [p, q, r] 0 :=
    threeChars_congr (by rw [hs]; rfl) (by rw [hs]; rfl) (by rw [hs]; rfl)
  have hcolons : ¬(s.getD 19 0 ≠ 58 ∨ s.getD 22 0 ≠ 58) := by
    rw [hs]
    exact fun h => h.elim (· rfl) (· rfl)
  rw [← hs, mimeParseRfc822DateFastcase, hwday, hmon, hw, hm]
  simp only [some_or, bind_eq_bind, bind_some]
  rw [if_neg hcolons, hs]
  rfl

theorem twoDigits_value (hn : n < 100) :
    ((decimal (n / 10)).toBitVec.toInt - 48) * 10 + ((decimal n).toBitVec.toInt - 48) = n := by
  rw [decimal_toInt, decimal_toInt]
  omega

theorem fourDigits_value (hn : n < 10000) :
    ((decimal (n / 1000)).toBitVec.toInt - 48) * 1000 + ((decimal (n / 100)).toBitVec.toInt - 48) * 100 +
      ((decimal (n / 10)).toBitVec.toInt - 48) * 10 + ((decimal n).toBitVec.toInt - 48) = n := by
  have h := twoDigits_value (show n / 100 < 100 by omega)
  rw [show n / 100 / 10 = n / 1000 by omega] at h
  rw [decimal_toInt (n / 10), decimal_toInt n]
  omega

theorem fastcase_eq (hw : w < 7) (hv : x.Valid) (hhi : x.year < 10000) (hh : hour < 100)
    (hm : min < 100) (hs : sec < 100) :
    mimeParseRfc822DateFastcase (dateText w x hour min sec) = some (tmOf x hour min sec) := by
  obtain ⟨hday, -, hwday, -⟩ := day_names w hw _ rfl
  obtain ⟨hmonth, -, hmon, -⟩ := month_names x.month hv.1 _ rfl
  rw [dateText]
  generalize strBytes (daystrs.getD w "") = day at hday hwday ⊢
  generalize strBytes (monthstrs.getD x.month "") = month at hmonth hmon ⊢
  rw [hday] at hwday ⊢
  rw [hmonth] at hmon ⊢
  simp only [twoDigits, fourDigits, cons_append, nil_append]
  rw [fastcase_columns hwday hmon, twoDigits_value (day_lt_hundred hv), fourDigits_value hhi,
    twoDigits_value hh, twoDigits_value hm, twoDigits_value hs, tmOf]

theorem mimeParseTm_eq (hasEnd : Bool) (hw : w < 7) (hv : x.Valid) (hlo : 1900 ≤ x.year)
    (hhi : x.year < 10000) (hh : hour < 100) (hm : min < 100) (hs : sec < 100) :
    mimeParseTm hasEnd (dateText w x hour min sec) = some (tmOf x hour min sec) := by
  obtain ⟨hday, halpha, -, -⟩ := day_names w hw _ rfl
  obtain ⟨a, l, hal, hws, hdigit⟩ : ∃ a l, dateText w x hour min sec = a :: l ∧ isWs a = false ∧
      isDigit a = false := by
    rw [hday] at halpha
    rw [dateText_eq, hday, cons_append]
    exact ⟨_, _, rfl, of_isAlpha _ (halpha _ mem_cons_self).2⟩
  have hdrop : (dateText w x hour min sec).dropWhile isWs = dateText w x hour min sec := by
    rw [hal, dropWhile_cons_of_neg (by rw [hws]; decide)]
  have hfirst : ((dateText w x hour min sec).head?.map isDigit).getD false = false := by
    rw [hal, head?_cons, map_some, getD_some, hdigit]
  rw [mimeParseTm, hdrop]
  rw [hfirst, if_neg (by decide)]
  split
  · exact fastcase_eq hw hv hhi hh hm hs
  · rw [dateText_eq, mimeParseDay_name hw]
    simp only [bind_eq_bind, bind_some]
    rw [dropWhile_cons_of_neg (by decide), head?_cons, map_some, getD_some, if_pos (by decide)]
    exact mimeParseMdayFirst_eq hv hlo hhi hh hm hs

/-! ### The seconds -/

theorem tmSeconds_eq (hx : x.Valid) (hyear : 1970 ≤ x.year) (hlast : x.year ≤ 2037)
    (hnum : x.number = (date 0).number + n) (hbound : ((n * 24 + hour) * 60 + min) * 60 + sec < 2 ^ 31) :
    tmSeconds (tmOf x hour min sec) = (((n * 24 + hour) * 60 + min) * 60 + sec : Nat) := by
  obtain ⟨a, ha, -⟩ := marchYear_add x hyear
  obtain ⟨-, -, hdays⟩ := table_of_valid hx
  have hyear' : (if x.month < 2 then (x.year : Int) - 1900 - 1 else (x.year : Int) - 1900) = a := by
    unfold Date.marchYear at ha
    split <;> split at ha <;> omega
  have hsub := yearDays_sub a
  have hmarch : x.marchDay = monthOffset x.month + x.day := rfl
  rw [number_epoch, Date.number, ← ha] at hnum
  rw [marchEve] at hsub
  rw [tmSeconds, tmOf, if_neg (by dsimp only; omega), if_neg (by dsimp only; omega)]
  dsimp only
  rw [hyear', hdays]
  have hn : (x.day : Int) + ((monthOffset x.month : Int) - 1) + yearDays a - daysOffset = n := by omega
  rw [hn]
  exact_mod_cast toInt32_of_mem (by omega) (by omega)

/-- **Dates round trip and follow the calendar.** -/
theorem http_dates (nowDays : Nat) (hnow : nowDays + 366 < 2 ^ 31) : (∀ t : Nat, (date (t / 86400)).year ≤ 2037 →
      mimeFormatDate (mimeInitDateFormatTable nowDays) t = some (httpDate t) ∧
      ∀ hasEnd, mimeParseDate hasEnd (httpDate t) = t) ∧
    ∀ n, mimeDaysSinceEpochToMdy (mimeInitDateFormatTable nowDays) n = mimeDaysSinceEpochToMdySlowcase n := by
  refine ⟨fun t ht => ⟨mimeFormatDate_eq hnow ht, fun hasEnd => ?_⟩, lookup_eq nowDays hnow⟩
  have hday := day_lt ht
  have hyear := year_date (t / 86400)
  have hw : weekday (t / 86400) < 7 := by
    rw [weekday_eq]
    exact Nat.mod_lt _ (by decide)
  have ht' : ((t / 86400 * 24 + t / 3600 % 24) * 60 + t / 60 % 60) * 60 + t % 60 = t := by omega
  have hseconds : tmSeconds (tmOf (date (t / 86400)) (t / 3600 % 24) (t / 60 % 60) (t % 60)) =
      (((t / 86400 * 24 + t / 3600 % 24) * 60 + t / 60 % 60) * 60 + t % 60 : Nat) :=
    tmSeconds_eq (valid_date _) hyear ht (number_date _) (by rw [ht']; omega)
  rw [mimeParseDate, httpDate, mimeParseTm_eq hasEnd hw (valid_date _) (by omega) (by omega) (by omega)
    (by omega) (by omega)]
  rw [ht'] at hseconds
  exact hseconds

theorem http_dates_of_2009 : (∀ t : Nat, (date (t / 86400)).year ≤ 2037 →
      mimeFormatDate (mimeInitDateFormatTable (14400 : Nat)) t = some (httpDate t) ∧
      ∀ hasEnd, mimeParseDate hasEnd (httpDate t) = t) ∧
    ∀ n, mimeDaysSinceEpochToMdy (mimeInitDateFormatTable (14400 : Nat)) n = mimeDaysSinceEpochToMdySlowcase n :=
  http_dates 14400 (by decide)

example : httpDate 5129377 = strBytes "Sun, 01 Mar 1970 08:49:37 GMT" := by decide +kernel

end TrafficServer.MIMEDate
