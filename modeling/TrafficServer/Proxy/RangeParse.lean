import Mathlib.Algebra.Group.Nat.Defs
import TrafficServer.Hdrs.HdrCsvElements
import TrafficServer.Hdrs.MIMECooked
import TrafficServer.Proxy.ControlBase

/-!
# Range resolution

`RangeTransform` resolves the specifiers of a `Range` field against the length of the document. The
numbers are read into variables of type `int`, in which -1 also stands for a number that is missing.

What the parser makes of a specifier depends on the two numbers reduced to `int` only, so it is right
exactly if the reduction does no harm (`RangeSpec.Faithful`). The loop stops at the first range that is
out of order, and what is behind that one stays unsatisfiable (`Exact`).
-/

namespace TrafficServer

open Option List CInt MIMECooked

/-- `RangeRecord`, with what the parser writes. -/
structure RangeRecord where
  start : Int := -1
  end_ : Int := -1
deriving DecidableEq

/-- What the parser leaves in a `RangeTransform`. -/
structure RangeTransform where
  ranges : List RangeRecord := []
  unsatisfiableRange : Bool := true
  notHandleRange : Bool := false
  currentRange : Nat := 0
deriving DecidableEq

namespace RangeTransform

def checkEntry (contentLength start end_ : Int) : RangeRecord :=
  if start = -1 ∧ end_ > 0 then
    ⟨contentLength - (if end_ > contentLength then contentLength else end_), contentLength - 1⟩
  else if start ≥ 0 ∧ end_ = -1 then
    if start ≥ contentLength then ⟨-1, end_⟩ else ⟨start, contentLength - 1⟩
  else if start ≥ 0 ∧ end_ ≥ 0 then
    if start > end_ ∨ start ≥ contentLength then ⟨-1, -1⟩
    else if end_ ≥ contentLength then ⟨start, contentLength - 1⟩
    else ⟨start, end_⟩
  else ⟨-1, -1⟩

def parseEntry (contentLength : Int) (value : Bytes) : RangeRecord :=
  match value.dropWhile (· ≠ 45) with
  | [] => {}
  | _ :: e =>
    checkEntry contentLength ((mimeParseInteger (value.takeWhile (· ≠ 45))).getD (-1))
      ((mimeParseInteger e).getD (-1))

/-- The loop over the values, with the `_end` of `prev_good_range`. The records behind the one that ends
the loop stay as they are. -/
def parseLoop (contentLength : Int) :
    List Bytes → Option Int → RangeTransform → RangeTransform
  | [], _, t => t
  | value :: values, prevEnd, t =>
    let r := parseEntry contentLength value
    let t' := { t with ranges := t.ranges ++ [r] }
    if r.start ≠ -1 then
      if t.unsatisfiableRange then
        parseLoop contentLength values (some r.end_)
          { t' with unsatisfiableRange := false, currentRange := t.ranges.length }
      else if prevEnd.any (r.start ≤ ·) then
        { t' with
          ranges := t'.ranges ++ List.replicate values.length {}
          notHandleRange := true }
      else parseLoop contentLength values (some r.end_) t'
    else parseLoop contentLength values prevEnd t'

def parseRangeAndCompare (contentLength : Int) (fields : List (Option Bytes)) :
    Option RangeTransform :=
  if contentLength ≤ 0 then some {}
  else do
    let values ← HdrCsvIter.allValues 44 true fields
    match values with
    | [] => some {}
    | value :: _ =>
      if ControlBase.ptrLenNcmp value (strBytes "bytes=") then some (parseLoop contentLength values none {})
      else some { ranges := List.replicate values.length {} }

end RangeTransform

/-! ### Range specifiers -/

/-- A decimal number of any length. -/
structure Decimal where
  digits : List (Fin 10)
  nonempty : digits ≠ []

namespace Decimal

def digitByte (k : Fin 10) : UInt8 := UInt8.ofNat (k + 48)

def text (d : Decimal) : Bytes := d.digits.map digitByte

def value (d : Decimal) : Nat := d.digits.foldl (fun v k => v * 10 + k.val) 0

end Decimal

open Decimal

/-- `first-last`, `first-` and `-suffix`. -/
inductive RangeSpec where
  | firstLast (first last : Decimal)
  | first (first : Decimal)
  | suffix (k : Decimal)

namespace RangeSpec

open RangeTransform

def text : RangeSpec → Bytes
  | firstLast a b => a.text ++ 45 :: b.text
  | first a => a.text ++ [45]
  | suffix k => 45 :: k.text

def rangeValue (specs : List RangeSpec) : Bytes :=
  strBytes "bytes=" ++ [44].intercalate (specs.map text)

/-- **The bytes that a specifier stands for**, the first and the last, in a document of `n` bytes. -/
def resolved (n : Nat) : RangeSpec → Option (Nat × Nat)
  | firstLast a b =>
    if a.value ≤ b.value ∧ a.value < n then some (a.value, min b.value (n - 1)) else none
  | first a => if a.value < n then some (a.value, n - 1) else none
  | suffix k => if 0 < k.value then some (n - min k.value n, n - 1) else none

def recordOf (range : Option (Nat × Nat)) : RangeRecord := range.elim {} fun (a, b) => ⟨a, b⟩

def Behind (r s : Nat × Nat) : Prop := r.2 < s.1

/-- **The specifiers are resolved as they should be.** -/
def Resolves (n : Nat) (specs : List RangeSpec) : Prop :=
  ∃ t, parseRangeAndCompare n [some (rangeValue specs)] = some t ∧
    t.ranges = specs.map (fun s => recordOf (s.resolved n)) ∧
    (t.unsatisfiableRange = true ↔ ∀ s ∈ specs, s.resolved n = none) ∧
    (t.notHandleRange = true ↔ ¬(specs.filterMap (resolved n)).IsChain Behind)

/-- The reduction of the numbers to `int` does no harm. -/
def Faithful (n : Nat) : RangeSpec → Prop
  | firstLast a b =>
    if a.value < 2 ^ 31 then
      b.value < 2 ^ 31 ∨ n ≤ a.value ∨ toInt32 b.value = -1 ∨ n - 1 ≤ toInt32 b.value
    else
      ¬(toInt32 a.value = -1 ∧ 0 < toInt32 b.value) ∧
        ¬(0 ≤ toInt32 a.value ∧ toInt32 a.value < n ∧
          (toInt32 b.value = -1 ∨ toInt32 a.value ≤ toInt32 b.value))
  | first a => a.value < 2 ^ 31 ∨ toInt32 a.value < 0 ∨ n ≤ toInt32 a.value
  | suffix k => k.value < 2 ^ 31 ∨ n ≤ toInt32 k.value

/-- **When the specifiers are resolved as they should be.** Up to the first range that is out of order the
reduction to `int` does no harm, and behind that range none is satisfiable; `prevEnd` is the end of the
range before. -/
def Exact (n : Nat) : Option Nat → List RangeSpec → Prop
  | _, [] => True
  | prevEnd, s :: specs =>
    s.Faithful n ∧ (s.resolved n).elim (Exact n prevEnd specs) fun (a, b) =>
      if prevEnd.any (a ≤ ·) then ∀ s' ∈ specs, s'.resolved n = none else Exact n (some b) specs

/-! ### Reading the numbers -/

section Numbers
variable {pre : Bytes} {d : Decimal}

theorem digitByte_facts : ∀ k : Fin 10, isDigit (digitByte k) = true ∧
    digitByte k ≠ 0 ∧ digitByte k ≠ 45 ∧ (digitByte k).toNat - 48 = k := by
  decide

theorem toInt32_digit (v : Nat) (k : Fin 10) :
    toInt32 (toInt32 v * 10 + ((digitByte k).toNat - 48 : Nat)) = toInt32 (v * 10 + k.val : Nat) := by
  rw [← toInt32_toInt32_add, toInt32_toInt32_mul, toInt32_toInt32_add, (digitByte_facts k).2.2.2]
  norm_cast

theorem foldl_digitByte (l : List (Fin 10)) (v : Nat) :
    (l.map digitByte).foldl (fun (v : Int) c => toInt32 (v * 10 + (c.toNat - 48 : Nat)))
      (toInt32 v) = toInt32 (l.foldl (fun v k => v * 10 + k.val) v : Nat) := by
  induction l generalizing v with
  | nil => rw [map_nil, foldl_nil, foldl_nil]
  | cons k l ih =>
    rw [map_cons, foldl_cons, foldl_cons, toInt32_digit]
    exact ih _

theorem isDigit_of_mem_text {c : UInt8} (hc : c ∈ d.text) : isDigit c = true := by
  obtain ⟨k, -, rfl⟩ := List.mem_map.mp hc
  exact (digitByte_facts k).1

section
variable (hpre : ∀ c ∈ pre, (c ≠ 0 && !isDigit c && c ≠ 45) = true)

include hpre

theorem mimeParseInteger_text : mimeParseInteger (pre ++ d.text) = some (toInt32 d.value) := by
  obtain ⟨k, l, hkl⟩ := exists_cons_of_ne_nil d.nonempty
  have hk := digitByte_facts k
  have htext : d.text = Decimal.digitByte k :: l.map Decimal.digitByte := by rw [Decimal.text, hkl, map_cons]
  have hdigits : d.text.takeWhile isDigit = d.text := takeWhile_eq_self_iff.mpr fun c hc => isDigit_of_mem_text hc
  have hzero := foldl_digitByte d.digits 0
  rw [mimeParseInteger, dropWhile_append_of_pos hpre, htext, dropWhile_cons_of_neg (by simp [hk.1])]
  dsimp only
  rw [if_neg hk.2.1, if_neg hk.2.2.1, if_neg hk.2.2.1, ← htext, hdigits]
  exact congrArg some hzero

theorem mimeParseInteger_none : mimeParseInteger pre = none := by rw [mimeParseInteger, dropWhile_eq_nil_iff.mpr hpre]

end

def numbers : RangeSpec → Int × Int
  | firstLast a b => (toInt32 a.value, toInt32 b.value)
  | first a => (toInt32 a.value, -1)
  | suffix k => (-1, toInt32 k.value)

theorem parseEntry_text {n : Int} (s : RangeSpec) (hpre : ∀ c ∈ pre, (c ≠ 0 && !isDigit c && c ≠ 45) = true) :
    parseEntry n (pre ++ s.text) = checkEntry n s.numbers.1 s.numbers.2 := by
  have hcut : ∀ x y : Bytes, (∀ c ∈ x, c ≠ 45) → parseEntry n (x ++ 45 :: y) =
      checkEntry n ((mimeParseInteger x).getD (-1)) ((mimeParseInteger y).getD (-1)) := by
    intro x y hx
    have hx' : ∀ c ∈ x, decide (c ≠ 45) = true := fun c hc => decide_eq_true (hx c hc)
    rw [parseEntry, dropWhile_append_of_pos hx', takeWhile_append_of_pos hx']
    simp
  have hminus : ∀ c ∈ pre, c ≠ 45 := fun c hc => by simpa using (Bool.and_eq_true_iff.mp (hpre c hc)).2
  have hdigits : ∀ d : Decimal, ∀ c ∈ pre ++ d.text, c ≠ 45 := by
    intro d c hc
    rcases mem_append.mp hc with hc | hc
    · exact hminus c hc
    · rintro rfl
      exact absurd (isDigit_of_mem_text hc) (by decide)
  have hread (d : Decimal) : mimeParseInteger d.text = some (toInt32 d.value) :=
    @mimeParseInteger_text [] d (forall_mem_nil _)
  cases s with
  | firstLast a b =>
    rw [text, ← append_assoc, hcut _ _ (hdigits a), mimeParseInteger_text hpre, hread, getD_some, getD_some, numbers]
  | first a =>
    rw [text, ← append_assoc, hcut _ _ (hdigits a), mimeParseInteger_text hpre,
      mimeParseInteger_none (forall_mem_nil _), getD_some, getD_none, numbers]
  | suffix k => rw [text, hcut _ _ hminus, mimeParseInteger_none hpre, hread, getD_some, getD_none, numbers]

/-- A number and what it is as an `int`. -/
structure Read (a : Nat) (a' : Int) : Prop where
  small : a < 2 ^ 31 ∧ a' = a ∨ 2 ^ 31 ≤ a
  lower : -2 ^ 31 ≤ a'
  upper : a' < 2 ^ 31

theorem read_toInt32 (a : Nat) : Read a (toInt32 a) where
  small := by
    by_cases h : a < 2 ^ 31
    · exact .inl ⟨h, toInt32_of_mem (by omega) (by omega)⟩
    · exact .inr (by omega)
  lower := le_toInt32 _
  upper := toInt32_lt _

variable {n a b : Nat} {a' b' : Int}

section Entry
variable (hn : 0 < n) (hlt : n < 2 ^ 31)
include hn hlt

theorem checkEntry_firstLast (ha : Read a a') (hb : Read b b') : checkEntry n a' b' =
        recordOf (if a ≤ b ∧ a < n then some (a, min b (n - 1)) else none) ↔
      if a < 2 ^ 31 then b < 2 ^ 31 ∨ n ≤ a ∨ b' = -1 ∨ n - 1 ≤ b'
      else ¬(a' = -1 ∧ 0 < b') ∧ ¬(0 ≤ a' ∧ a' < n ∧ (b' = -1 ∨ a' ≤ b')) := by
  obtain ⟨ha, ha1, ha2⟩ := ha
  obtain ⟨hb, hb1, hb2⟩ := hb
  unfold checkEntry
  split_ifs <;> simp only [recordOf, Option.elim, RangeRecord.mk.injEq, true_iff, true_and] <;> omega

theorem checkEntry_first (ha : Read a a') :
    checkEntry n a' (-1) = recordOf (if a < n then some (a, n - 1) else none) ↔ a < 2 ^ 31 ∨ a' < 0 ∨ n ≤ a' := by
  obtain ⟨ha, ha1, ha2⟩ := ha
  unfold checkEntry
  split_ifs <;> simp only [recordOf, Option.elim, RangeRecord.mk.injEq, true_iff] <;> omega

theorem checkEntry_suffix (ha : Read a a') : checkEntry n (-1) a' =
        recordOf (if 0 < a then some (n - min a n, n - 1) else none) ↔ a < 2 ^ 31 ∨ n ≤ a' := by
  obtain ⟨ha, ha1, ha2⟩ := ha
  unfold checkEntry
  split_ifs <;> simp only [recordOf, Option.elim, RangeRecord.mk.injEq, true_iff] <;> omega

theorem checkEntry_eq_iff (s : RangeSpec) :
    checkEntry n s.numbers.1 s.numbers.2 = recordOf (s.resolved n) ↔ s.Faithful n := by
  cases s with
  | firstLast a b => exact checkEntry_firstLast hn hlt (read_toInt32 _) (read_toInt32 _)
  | first a => exact checkEntry_first hn hlt (read_toInt32 _)
  | suffix k => exact checkEntry_suffix hn hlt (read_toInt32 _)

end Entry

end Numbers

/-! ### The loop -/

def entry (n : Nat) (s : RangeSpec) : RangeRecord :=
  checkEntry n s.numbers.1 s.numbers.2

theorem recordOf_eq_iff (range : Option (Nat × Nat)) : recordOf range = {} ↔ range = none := by
  cases range with
  | none => simp [recordOf]
  | some r => simp [recordOf]

section Loop
variable {n : Nat} {values : List Bytes} {specs : List RangeSpec} {prevEnd : Option Nat}
  {t : RangeTransform}

theorem parseLoop_ranges (prevEnd : Option Int) (t : RangeTransform) :
    t.ranges ++ (values.head?.map (parseEntry n)).toList <+: (parseLoop n values prevEnd t).ranges := by
  induction values generalizing prevEnd t with
  | nil => rw [parseLoop, head?_nil, map_none, toList_none, append_nil]
  | cons value values ih =>
    have hrest (prevEnd : Option Int) (t' : RangeTransform) (ht : t'.ranges = t.ranges ++ [parseEntry n value]) :
        t.ranges ++ [parseEntry n value] <+: (parseLoop n values prevEnd t').ranges :=
      ht ▸ (prefix_append _ _).trans (ih prevEnd t')
    rw [parseLoop, head?_cons, map_some, toList_some]
    split
    · split
      · exact hrest _ _ rfl
      · split
        · exact prefix_append _ _
        · exact hrest _ _ rfl
    · exact hrest _ _ rfl

/-- From a state of the loop on, the specifiers are resolved as they should be. -/
def LoopResolves (n : Nat) (prevEnd : Option Nat) (t t' : RangeTransform) (specs : List RangeSpec) :
    Prop :=
  t'.ranges = t.ranges ++ specs.map (fun s => recordOf (s.resolved n)) ∧
    (t'.unsatisfiableRange = true ↔ prevEnd = none ∧ ∀ s ∈ specs, s.resolved n = none) ∧
    (t'.notHandleRange = true ↔
      ¬((prevEnd.map (Prod.mk 0)).toList ++ specs.filterMap (resolved n)).IsChain Behind)

theorem isChain_behind_congr (a a' b : Nat) (l : List (Nat × Nat)) :
    ((a, b) :: l).IsChain Behind ↔ ((a', b) :: l).IsChain Behind := by
  cases l with
  | nil => simp
  | cons r l => rw [isChain_cons_cons, isChain_cons_cons, Behind, Behind]

theorem loopResolves_iff (hn : 0 < n) (hlt : n < 2 ^ 31) (hvalues : values.map (parseEntry n) = specs.map (entry n))
    (hunsat : t.unsatisfiableRange = true ↔ prevEnd = none) (hhandle : t.notHandleRange = false) :
    LoopResolves n prevEnd t (parseLoop n values (prevEnd.map (Nat.cast : Nat → Int)) t) specs ↔
      Exact n prevEnd specs := by
  induction values generalizing specs prevEnd t with
  | nil =>
    obtain rfl : specs = [] := by simpa using hvalues.symm
    rw [Exact, iff_true, parseLoop]
    refine ⟨by simp, by simpa using hunsat, ?_⟩
    cases prevEnd <;> simp [hhandle]
  | cons value values ih =>
    obtain ⟨s, specs, rfl⟩ : ∃ s specs', specs = s :: specs' := exists_cons_of_ne_nil (by rintro rfl; simp at hvalues)
    rw [map_cons, map_cons, List.cons.injEq] at hvalues
    obtain ⟨hentry, hvalues⟩ := hvalues
    rw [Exact, ← checkEntry_eq_iff hn hlt, ← entry]
    by_cases hr : entry n s = recordOf (s.resolved n)
    · rw [parseLoop, hentry, hr]
      cases hs : s.resolved n with
      | none =>
        have hloop := ih (t := { t with ranges := t.ranges ++ [{}] }) hvalues hunsat hhandle
        simpa [recordOf, LoopResolves, hs] using hloop
      | some r =>
        obtain ⟨a, b⟩ := r
        have hgood : recordOf (some (a, b)) = ⟨a, b⟩ := rfl
        have hstart : ((a : Int) ≠ -1) := by omega
        have hnext (current : Nat) := @ih specs (some b) ⟨t.ranges ++ [⟨a, b⟩], false, t.notHandleRange,
          current⟩ hvalues (by simp) hhandle
        rw [hgood, if_pos hstart]
        cases prevEnd with
        | none =>
          rw [if_pos (hunsat.mpr rfl)]
          refine Iff.trans ?_ ((hnext t.ranges.length).trans (by simp))
          simp [LoopResolves, hs, hgood, isChain_behind_congr a 0 b]
        | some p =>
          have hsat : t.unsatisfiableRange = false := by simpa using hunsat
          rw [if_neg (by rw [hsat]; decide)]
          by_cases hle : a ≤ p
          · have hrest : List.replicate values.length {} = specs.map (fun s => recordOf (s.resolved n)) ↔
                ∀ s ∈ specs, s.resolved n = none := by
              have hlen := congrArg List.length hvalues
              rw [length_map, length_map] at hlen
              rw [eq_comm, eq_replicate_iff]
              simp [hlen, recordOf_eq_iff]
            simp [LoopResolves, hs, hgood, hle, hsat, hrest, Behind]
          · refine Iff.trans ?_ (Iff.trans (hnext t.currentRange) ?_)
            · simp [LoopResolves, hs, hgood, hsat, hle, Behind, Nat.lt_of_not_le hle, isChain_behind_congr a 0 b]
            · simp [hle]
    · refine iff_of_false (fun h => hr ?_) fun h => hr h.1
      have hprefix := @parseLoop_ranges n (value :: values) (prevEnd.map (Nat.cast : Nat → Int)) t
      rw [h.1, prefix_append_right_inj, map_cons, head?_cons, map_some,
        toList_some, cons_prefix_cons, hentry] at hprefix
      exact hprefix.1

end Loop

/-! ### The field -/

theorem digitByte_bare : ∀ k : Fin 10, digitByte k ≠ 34 ∧ digitByte k ≠ 44 ∧
    ParseRules.isWs (digitByte k) = false := by
  decide

theorem bare_text {pre : Bytes} (hpre : ∀ c ∈ pre, c ≠ 34 ∧ c ≠ 44 ∧ ParseRules.isWs c = false)
    (s : RangeSpec) : Bare (pre ++ s.text) := by
  have hdigits (d : Decimal) : ∀ c ∈ d.text, c ≠ 34 ∧ c ≠ 44 ∧ ParseRules.isWs c = false := by
    intro c hc
    obtain ⟨k, -, rfl⟩ := List.mem_map.mp hc
    exact digitByte_bare k
  have hminus : (45 : UInt8) ≠ 34 ∧ (45 : UInt8) ≠ 44 ∧ ParseRules.isWs 45 = false := by decide
  refine ⟨?_, forall_mem_append.mpr ⟨hpre, ?_⟩⟩
  · cases s <;> simp [text]
  · cases s with
    | firstLast a b => exact forall_mem_append.mpr ⟨hdigits a, forall_mem_cons.mpr ⟨hminus, hdigits b⟩⟩
    | first a => exact forall_mem_append.mpr ⟨hdigits a, forall_mem_singleton.mpr hminus⟩
    | suffix k => exact forall_mem_cons.mpr ⟨hminus, hdigits k⟩

theorem rangeValue_cons (s : RangeSpec) (specs : List RangeSpec) :
    rangeValue (s :: specs) = [44].intercalate ((strBytes "bytes=" ++ s.text) :: specs.map text) := by
  rw [rangeValue, map_cons]
  cases specs with
  | nil => rw [map_nil, intercalate_singleton, intercalate_singleton]
  | cons s' specs =>
    rw [map_cons, intercalate_cons_cons, intercalate_cons_cons, append_assoc, append_assoc, append_assoc]

theorem ptrLenNcmp_append (x y : Bytes) : ControlBase.ptrLenNcmp (x ++ y) x = true := by
  induction x with
  | nil => cases y <;> rfl
  | cons c x ih => rw [cons_append, ControlBase.ptrLenNcmp, beq_self_eq_true, Bool.true_and, ih]

/-- **A `Range` field is resolved as it should be exactly if it is exact.** -/
theorem resolves_iff (n : Nat) (hn : 0 < n) (hlt : n < 2 ^ 31) (specs : List RangeSpec)
    (hne : specs ≠ []) : Resolves n specs ↔ Exact n none specs := by
  obtain ⟨s, specs, rfl⟩ := exists_cons_of_ne_nil hne
  have hunit : (∀ c ∈ strBytes "bytes=", (c ≠ 0 && !isDigit c && c ≠ 45) = true) ∧
      ∀ c ∈ strBytes "bytes=", c ≠ 34 ∧ c ≠ 44 ∧ ParseRules.isWs c = false := by decide +kernel
  have hnone (s : RangeSpec) : parseEntry n s.text = entry n s :=
    @parseEntry_text [] n s (forall_mem_nil _)
  have hvalues : ((strBytes "bytes=" ++ s.text) :: specs.map text).map (parseEntry n) =
      (s :: specs).map (entry n) := by
    rw [map_cons, map_cons, List.map_map, parseEntry_text s hunit.1, entry]
    exact congrArg _ (map_congr_left fun s _ => hnone s)
  have hbare : ∀ x ∈ (strBytes "bytes=" ++ s.text) :: specs.map text, Bare x :=
    forall_mem_cons.mpr ⟨bare_text hunit.2 s, List.forall_mem_map.mpr fun s _ =>
      @bare_text [] (forall_mem_nil _) s⟩
  have hparse : parseRangeAndCompare n [some (rangeValue (s :: specs))] =
      some (parseLoop n ((strBytes "bytes=" ++ s.text) :: specs.map text) none {}) := by
    rw [parseRangeAndCompare, if_neg (by omega), rangeValue_cons,
      HdrCsvIter.allValues_intercalate hbare (cons_ne_nil _ _), bind_eq_bind, bind_some]
    exact if_pos (ptrLenNcmp_append _ _)
  have hloop := @loopResolves_iff n _ _ none {} hn hlt hvalues (by simp) rfl
  rw [← hloop, Resolves, hparse]
  simp [LoopResolves]

/-- `bytes=0-1,20-,4-5,-3` of ten bytes. -/
theorem resolves_iff_three : Resolves 10 [firstLast ⟨[0], by decide⟩ ⟨[1], by decide⟩, first ⟨[2, 0], by decide⟩,
    firstLast ⟨[4], by decide⟩ ⟨[5], by decide⟩, suffix ⟨[3], by decide⟩] :=
  (resolves_iff 10 (by decide) (by decide) _ (cons_ne_nil _ _)).mpr
    ⟨.inl (by decide), .inl (by decide), .inl (by decide), .inl (by decide), trivial⟩

def wrapped : RangeSpec :=
  firstLast ⟨[4, 2, 9, 4, 9, 6, 7, 2, 9, 6], by decide⟩ ⟨[4, 2, 9, 4, 9, 6, 7, 2, 9, 7], by decide⟩

/-- A range far behind the document is taken for its first two bytes. -/
theorem wrapped_not_resolved : rangeValue [wrapped] = strBytes "bytes=4294967296-4294967297" ∧
      parseRangeAndCompare 10 [some (rangeValue [wrapped])] =
        some ⟨[⟨0, 1⟩], false, false, 0⟩ ∧ ¬Resolves 10 [wrapped] := by
  have hparse : parseRangeAndCompare 10 [some (rangeValue [wrapped])] =
      some ⟨[⟨0, 1⟩], false, false, 0⟩ := by decide +kernel
  refine ⟨by decide +kernel, hparse, ?_⟩
  rintro ⟨t, ht, hranges, -⟩
  obtain rfl := some.inj (ht.symm.trans hparse)
  exact absurd hranges (by decide +kernel)

end RangeSpec

end TrafficServer
