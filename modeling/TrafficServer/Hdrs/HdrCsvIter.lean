import TrafficServer.Hdrs.ParseRules

/-!
# The iterator over comma-separated values

`HdrCsvIter` goes along the values of a field and of its duplicates. A field is given by its value,
which may be null; positions are relative to the first byte of the current value. The functions are
partial: `none` stands for a loop that does not end.
-/

namespace TrafficServer

open ParseRules

/-- What `find_csv` has found at `done`. -/
structure CsvScan where
  cur : Nat
  csvStart : Option Nat
  lastData : Option Nat
deriving DecidableEq

/-- The loop over characters above the comma, which are compared as signed ones. -/
def csvSkip (sep : UInt8) : Nat → Bytes → Option Nat → Nat × Bytes × Option Nat
  | cur, c :: d :: r, last =>
    if sep = 44 ∧ c.toInt8 > 44 then csvSkip sep (cur + 1) (d :: r) (some cur)
    else (cur, c :: d :: r, last)
  | cur, r, last => (cur, r, last)

/-- From `parse_value`, or from `parse_value_quote` if `cur[-1]` is given. -/
def csvParse (sep : UInt8) :
    Nat → Option UInt8 → Nat → Bytes → Nat → Option Nat → Option CsvScan
  | 0, _, _, _, _, _ => none
  | fuel + 1, none, cur, rest, start, last =>
    match csvSkip sep cur rest last with
    | (cur, [], last) => some ⟨cur, some start, last⟩
    | (cur, c :: r, last) =>
      if c = sep then some ⟨cur, some start, last⟩
      else if c = 34 then
        csvParse sep fuel (some c) (cur + 1) r (if cur = start then start + 1 else start) last
      else csvParse sep fuel none (cur + 1) r start (if isWs c then last else some cur)
  | _ + 1, some _, cur, [], start, last => some ⟨cur, some start, last⟩
  | fuel + 1, some prev, cur, c :: r, start, last =>
    if c = 34 ∧ prev ≠ 92 then csvParse sep fuel none (cur + 1) r start last
    else csvParse sep fuel (some c) (cur + 1) r start (some cur)

/-- From `RETRY` on, with the bytes that are left of the value. -/
def csvLeading (sep : UInt8) : Nat → Bytes → Option CsvScan
  | cur, [] => some ⟨cur, none, none⟩
  | cur, c :: r =>
    if isWs c then csvLeading sep (cur + 1) r
    else csvParse sep (r.length + 2) none cur (c :: r) cur none

/-- The iterator. Of the fields from `m_cur_field` on it has the values. -/
structure HdrCsvIter where
  fields : List (Option Bytes)
  csvStart : Option Nat
  csvLen : Nat
  csvEnd : Nat
deriving DecidableEq

namespace HdrCsvIter

variable (sep : UInt8) (followDups : Bool)

def fieldInit (fields : List (Option Bytes)) : Option Nat :=
  fields.head?.bind fun v => v.map fun _ => 0

def scanField (value : Option Bytes) (start : Option Nat) : Option CsvScan :=
  match value, start with
  | some v, some i => csvLeading sep i (v.drop i)
  | _, _ => some ⟨0, none, none⟩

def findCsv : List (Option Bytes) → Option Nat → Option HdrCsvIter
  | [], _ => none
  | v :: dups, start => do
    let p ← scanField sep v start
    match p.lastData with
    | some d => some ⟨v :: dups, p.csvStart, d + 1 - p.csvStart.getD 0, p.cur⟩
    | none =>
      if dups ≠ [] ∧ followDups then findCsv dups (fieldInit dups)
      else some ⟨v :: dups, p.csvStart, 0, p.cur⟩

def getFirst (fields : List (Option Bytes)) : Option HdrCsvIter :=
  match fieldInit fields with
  | some i => findCsv sep followDups fields (some i)
  | none => some ⟨fields, none, 0, 0⟩

def getNext (it : HdrCsvIter) : Option HdrCsvIter :=
  match it.csvStart with
  | some _ => findCsv sep followDups it.fields (some (it.csvEnd + 1))
  | none => some it

/-- The bytes that `get_first` and `get_next` return; `none` is the null pointer. -/
def current (it : HdrCsvIter) : Option Bytes := do
  let start ← it.csvStart
  let v ← it.fields.head?.join
  some ((v.drop start).take it.csvLen)

/-- What `get_next` returns, call after call, to the null pointer. -/
def values : Nat → HdrCsvIter → Option (List Bytes)
  | 0, _ => none
  | fuel + 1, it =>
    match it.current with
    | none => some []
    | some x => do
      let it' ← getNext sep followDups it
      let l ← values fuel it'
      some (x :: l)

/-- The calls that are enough: no more than one for each byte and each field. -/
def fuel (fields : List (Option Bytes)) : Nat :=
  (fields.map fun v => (v.getD []).length + 2).sum + 1

def allValues (fields : List (Option Bytes)) : Option (List Bytes) := do
  let it ← getFirst sep followDups fields
  values sep followDups (fuel fields) it

end HdrCsvIter

end TrafficServer
