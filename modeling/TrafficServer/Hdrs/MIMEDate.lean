import TrafficServer.Hdrs.MIMECooked

/-!
# Dates

`mime_format_date` and `mime_parse_date`, with the conversion from days to month, day and year that the
first one uses and the table of `mime_init_date_format_table` in front of it. A text ends with its list
or at its first NUL. The automata for the names of days and months are taken at their meaning.
-/

namespace TrafficServer.MIMEDate

open CInt ParseRules MIMECooked

/-- Month, day and year. -/
structure Mdy where
  m : Int
  d : Int
  y : Int
deriving DecidableEq

def daysOffset : Int := 25508

def months : List Nat := [
  2, 2, 2, 2, 2, 2, 2, 2, 2, 2, 2, 2, 2, 2, 2, 2,
  2, 2, 2, 2, 2, 2, 2, 2, 2, 2, 2, 2, 2, 2, 2, 2,
  3, 3, 3, 3, 3, 3, 3, 3, 3, 3, 3, 3, 3, 3, 3, 3,
  3, 3, 3, 3, 3, 3, 3, 3, 3, 3, 3, 3, 3, 3, 4, 4,
  4, 4, 4, 4, 4, 4, 4, 4, 4, 4, 4, 4, 4, 4, 4, 4,
  4, 4, 4, 4, 4, 4, 4, 4, 4, 4, 4, 4, 4, 5, 5, 5,
  5, 5, 5, 5, 5, 5, 5, 5, 5, 5, 5, 5, 5, 5, 5, 5,
  5, 5, 5, 5, 5, 5, 5, 5, 5, 5, 5, 6, 6, 6, 6, 6,
  6, 6, 6, 6, 6, 6, 6, 6, 6, 6, 6, 6, 6, 6, 6, 6,
  6, 6, 6, 6, 6, 6, 6, 6, 6, 6, 7, 7, 7, 7, 7, 7,
  7, 7, 7, 7, 7, 7, 7, 7, 7, 7, 7, 7, 7, 7, 7, 7,
  7, 7, 7, 7, 7, 7, 7, 7, 7, 8, 8, 8, 8, 8, 8, 8,
  8, 8, 8, 8, 8, 8, 8, 8, 8, 8, 8, 8, 8, 8, 8, 8,
  8, 8, 8, 8, 8, 8, 8, 9, 9, 9, 9, 9, 9, 9, 9, 9,
  9, 9, 9, 9, 9, 9, 9, 9, 9, 9, 9, 9, 9, 9, 9, 9,
  9, 9, 9, 9, 9, 9, 10, 10, 10, 10, 10, 10, 10, 10, 10, 10,
  10, 10, 10, 10, 10, 10, 10, 10, 10, 10, 10, 10, 10, 10, 10, 10,
  10, 10, 10, 10, 11, 11, 11, 11, 11, 11, 11, 11, 11, 11, 11, 11,
  11, 11, 11, 11, 11, 11, 11, 11, 11, 11, 11, 11, 11, 11, 11, 11,
  11, 11, 11, 0, 0, 0, 0, 0, 0, 0, 0, 0, 0, 0, 0, 0,
  0, 0, 0, 0, 0, 0, 0, 0, 0, 0, 0, 0, 0, 0, 0, 0,
  0, 0, 1, 1, 1, 1, 1, 1, 1, 1, 1, 1, 1, 1, 1, 1,
  1, 1, 1, 1, 1, 1, 1, 1, 1, 1, 1, 1, 1, 1, 1]

def days : List Int := [305, 336, -1, 30, 60, 91, 121, 152, 183, 213, 244, 274]

def yearDays (year : Int) : Int :=
  year * 365 + year.tdiv 4 - year.tdiv 100 + (year.tdiv 100 + 3).tdiv 4

def refineYear (mday : Int) : Nat → Int → Int → Int → Option (Int × Int)
  | 0, _, _, _ => none
  | fuel + 1, year, d, dp =>
    if dp < mday then
      refineYear mday fuel (year + 1) dp (yearDays (year + 1) - daysOffset - 1)
    else some (year, d)

/-- The month, the day and the year from the year of the loop and its `d`; `none` if the date is bad and
nothing is returned. -/
def mdyOf (mday year d : Int) : Option Mdy :=
  let d := mday - d
  if d < 0 ∨ d > 366 then none
  else
    let month := months.getD d.toNat 0
    let year := if month > 1 then year - 1 else year
    some ⟨month, d - days.getD month 0 - 1, year + 1900⟩

/-- A year more is at least a day more, so the loop ends. -/
def mimeDaysSinceEpochToMdySlowcase (daysSinceJan11970 : Nat) : Option Mdy :=
  let mday := toInt32 daysSinceJan11970
  let year := mday.tdiv 365 + 69
  let dp := yearDays year - daysOffset - 1
  (refineYear mday ((mday - dp).toNat + 1) year dp dp).bind fun p => mdyOf mday p.1 p.2

/-- An entry of the table, with fields of 8, 8 and 16 bits. -/
def Mdy.pack (x : Mdy) : Mdy := ⟨x.m % 2 ^ 8, x.d % 2 ^ 8, x.y % 2 ^ 16⟩

/-- The table that has been made on a day, one entry for each of its days. -/
structure MdyTable where
  firstDay : Nat
  lastDay : Nat
  entries : List (Option Mdy)

/-- `mime_init_date_format_table`; the first and the last day are unsigned. -/
def mimeInitDateFormatTable (nowDays : Int) : MdyTable where
  firstDay := ((nowDays - 366) % 2 ^ 32).toNat
  lastDay := ((nowDays + 366) % 2 ^ 32).toNat
  entries := (List.range (366 + 366 + 1)).map fun i =>
    (mimeDaysSinceEpochToMdySlowcase ((nowDays - 366 + i) % 2 ^ 32).toNat).map Mdy.pack

def mimeDaysSinceEpochToMdy (table : MdyTable) (daysSinceJan11970 : Nat) : Option Mdy :=
  if daysSinceJan11970 ≥ table.firstDay ∧ daysSinceJan11970 ≤ table.lastDay then
    table.entries.getD (daysSinceJan11970 - table.firstDay) none
  else mimeDaysSinceEpochToMdySlowcase daysSinceJan11970

/-! ### Printing -/

def daystrs : List String := ["Sun", "Mon", "Tue", "Wed", "Thu", "Fri", "Sat"]

def monthstrs : List String :=
  ["Jan", "Feb", "Mar", "Apr", "May", "Jun", "Jul", "Aug", "Sep", "Oct", "Nov", "Dec"]

def digitByte (n : Int) : UInt8 := UInt8.ofNat (n + 48).toNat

def digitstrs (n : Int) : Bytes := [digitByte (n / 10), digitByte (n % 10)]

def yearBytes (year : Int) : Bytes :=
  if year ≥ 2000 ∧ year ≤ 2009 then strBytes "200" ++ [digitByte (year - 2000)]
  else if year ≥ 1990 ∧ year ≤ 1999 then strBytes "199" ++ [digitByte (year - 1990)]
  else
    [digitByte (year.tdiv 10 |>.tdiv 10 |>.tdiv 10 |>.tmod 10),
      digitByte (year.tdiv 10 |>.tdiv 10 |>.tmod 10), digitByte (year.tdiv 10 |>.tmod 10),
      digitByte (year.tmod 10)]

def mimeFormatDate (table : MdyTable) (value : Nat) : Option Bytes := do
  let sec := value % 60
  let min := value / 60 % 60
  let hour := value / 60 / 60 % 24
  let day := value / 60 / 60 / 24
  let wday := (4 + day) % 7
  let date ← mimeDaysSinceEpochToMdy table (day % 2 ^ 32)
  some (strBytes (daystrs.getD wday "") ++ strBytes ", " ++ digitstrs date.d ++ strBytes " " ++
    strBytes (monthstrs.getD date.m.toNat "") ++ strBytes " " ++ yearBytes date.y ++ strBytes " " ++
    digitstrs hour ++ strBytes ":" ++ digitstrs min ++ strBytes ":" ++ digitstrs sec ++
    strBytes " GMT")

/-! ### Parsing -/

/-- The fields of a `tm` that are used. -/
structure Tm where
  mday : Int
  mon : Nat
  year : Int
  hour : Int
  min : Int
  sec : Int
deriving DecidableEq

def dayNames : List (List String) :=
  [["Sun", "Sunday"], ["Mon", "Monday"], ["Tue", "Tuesday"], ["Wed", "Wednesday"],
    ["Thu", "Thursday"], ["Fri", "Friday"], ["Sat", "Saturday"]]

def monthNames : List (List String) := monthstrs.map fun s => [s]

/-- The index of the names that match the whole text, up to case. -/
def matchNames (names : List (List String)) (s : Bytes) : Option Nat :=
  names.findIdx? fun ns => ns.any fun n => lower (strBytes n) = lower s

def mimeParseWord (names : List (List String)) (s : Bytes) : Option (Nat × Bytes) := do
  let s := s.dropWhile fun c => c ≠ 0 && !isAlpha c
  let i ← matchNames names (s.takeWhile fun c => c ≠ 0 && isAlpha c)
  some (i, s.dropWhile fun c => c ≠ 0 && isAlpha c)

def mimeParseDay (s : Bytes) : Option (Nat × Bytes) := mimeParseWord dayNames s

def mimeParseMonth (s : Bytes) : Option (Nat × Bytes) := mimeParseWord monthNames s

def afterInteger (s : Bytes) : Bytes :=
  match s.dropWhile fun c => c ≠ 0 && !isDigit c && c ≠ 45 with
  | [] => []
  | c :: r => (if c = 45 then r else c :: r).dropWhile isDigit

def mimeParseMday (s : Bytes) : Option (Int × Bytes) :=
  (mimeParseInteger s).map fun n => (n, afterInteger s)

def mimeParseYear (s : Bytes) : Option (Int × Bytes) :=
  match s.dropWhile fun c => c ≠ 0 && !isDigit c with
  | [] => none
  | c :: r =>
    if c = 0 then none
    else
      let val := ((c :: r).takeWhile isDigit).foldl
        (fun (v : Int) d => toInt32 (v * 10 + (d.toNat - 48 : Nat))) 0
      let val := if val ≥ 1900 then val - 1900 else if val < 70 then val + 100 else val
      some (val, (c :: r).dropWhile isDigit)

def mimeParseTime (s : Bytes) : Option ((Int × Int × Int) × Bytes) := do
  let (hour, s) ← mimeParseMday s
  let (min, s) ← mimeParseMday s
  let (sec, s) ← mimeParseMday s
  some ((hour, min, sec), s)

/-- Three characters as one number; `char` is signed. -/
def threeChars (s : Bytes) (i : Nat) : BitVec 32 :=
  (s.getD i 0).toBitVec.signExtend 32 <<< 16 ||| (s.getD (i + 1) 0).toBitVec.signExtend 32 <<< 8 |||
    (s.getD (i + 2) 0).toBitVec.signExtend 32

def wdayOf (x : BitVec 32) : Option Nat :=
  if x ≤ 0x53756E#32 then
    if x = 0x467269#32 then some 5
    else if x = 0x4D6F6E#32 then some 1
    else if x = 0x536174#32 then some 6
    else if x = 0x53756E#32 then some 0
    else none
  else
    if x = 0x546875#32 then some 4
    else if x = 0x547565#32 then some 2
    else if x = 0x576564#32 then some 3
    else none

def monOf (x : BitVec 32) : Option Nat :=
  if x ≤ 0x4A756C#32 then
    if x ≤ 0x446563#32 then
      if x = 0x417072#32 then some 3
      else if x = 0x417567#32 then some 7
      else if x = 0x446563#32 then some 11
      else none
    else
      if x = 0x466562#32 then some 1
      else if x = 0x4A616E#32 then some 0
      else if x = 0x4A756C#32 then some 6
      else none
  else
    if x ≤ 0x4D6179#32 then
      if x = 0x4A756E#32 then some 5
      else if x = 0x4D6172#32 then some 2
      else if x = 0x4D6179#32 then some 4
      else none
    else
      if x = 0x4E6F76#32 then some 10
      else if x = 0x4F6374#32 then some 9
      else if x = 0x536570#32 then some 8
      else none

def digitAt (s : Bytes) (i : Nat) : Int := (s.getD i 0).toBitVec.toInt - 48

/-- `mime_parse_rfc822_date_fastcase`. The automata are asked for the whole text. -/
def mimeParseRfc822DateFastcase (s : Bytes) : Option Tm := do
  let _ ← (wdayOf (threeChars s 0)).or (matchNames dayNames s)
  let mon ← (monOf (threeChars s 8)).or (matchNames monthNames s)
  let tm : Tm := {
    mday := digitAt s 5 * 10 + digitAt s 6
    mon := mon
    year := digitAt s 12 * 1000 + digitAt s 13 * 100 + digitAt s 14 * 10 + digitAt s 15 - 1900
    hour := digitAt s 17 * 10 + digitAt s 18
    min := digitAt s 20 * 10 + digitAt s 21
    sec := digitAt s 23 * 10 + digitAt s 24 }
  if s.getD 19 0 ≠ 58 ∨ s.getD 22 0 ≠ 58 then none else some tm

def mimeParseMdayFirst (s : Bytes) : Option Tm := do
  let (mday, s) ← mimeParseMday s
  let (mon, s) ← mimeParseMonth s
  let (year, s) ← mimeParseYear s
  let ((hour, min, sec), _) ← mimeParseTime s
  some { mday, mon, year, hour, min, sec }

def mimeParseAsctime (s : Bytes) : Option Tm := do
  let (mon, s) ← mimeParseMonth s
  let (mday, s) ← mimeParseMday s
  let ((hour, min, sec), s) ← mimeParseTime s
  let (year, _) ← mimeParseYear s
  some { mday, mon, year, hour, min, sec }

/-- The parts of a date, in any of the formats. Without `end` the fast case is not tried. -/
def mimeParseTm (hasEnd : Bool) (s : Bytes) : Option Tm :=
  let s := s.dropWhile isWs
  if (s.head?.map isDigit).getD false then mimeParseMdayFirst s
  else if hasEnd ∧ s.length ≥ 29 ∧ s.getD 3 0 = 44 then mimeParseRfc822DateFastcase s
  else do
    let (_, s) ← mimeParseDay s
    let s := s.dropWhile isWs
    if (s.head?.map fun c => c = 44 || isDigit c).getD false then mimeParseMdayFirst s
    else mimeParseAsctime s

def intMax : Int := 2 ^ 31 - 1

def tmSeconds (tm : Tm) : Int :=
  if tm.year > 137 then intMax
  else if tm.year < 70 then 0
  else
    let year := if tm.mon < 2 then tm.year - 1 else tm.year
    let mday := tm.mday + days.getD tm.mon 0 + yearDays year - daysOffset
    toInt32 (((mday * 24 + tm.hour) * 60 + tm.min) * 60 + tm.sec)

def mimeParseDate (hasEnd : Bool) (s : Bytes) : Int :=
  match mimeParseTm hasEnd s with
  | some tm => tmSeconds tm
  | none => 0

end TrafficServer.MIMEDate
