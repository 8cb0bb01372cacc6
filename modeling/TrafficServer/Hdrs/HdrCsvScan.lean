import TrafficServer.Hdrs.HdrCsvIter
import Mathlib.Data.List.DropRight

/-!
# What one call of `find_csv` finds

Each byte of a value gets a mark that says what it is to the quoting. The separators are the plain
commas, and a call scans the marks up to the next one. The pointer `last_data` is the position of
the last mark that is data, so what a call finds is its piece of the marks without the leading
white space, without a leading quote, and without all that follows the last data (`found`).
-/

namespace TrafficServer

open List ParseRules

inductive CsvKind where
  | plain
  | opening
  | quoted
  | closing
deriving DecidableEq

/-- A byte of a value and what it is to the quoting. -/
structure CsvByte where
  byte : UInt8
  kind : CsvKind
deriving DecidableEq

/-- The state of the quoting is the byte before, inside of a quoted string. -/
def csvNext : Option UInt8 → UInt8 → Option UInt8 × CsvKind
  | none, c => if c = 34 then (some c, .opening) else (none, .plain)
  | some prev, c => if c = 34 ∧ prev ≠ 92 then (none, .closing) else (some c, .quoted)

def csvMarks : Option UInt8 → Bytes → List CsvByte
  | _, [] => []
  | q, c :: r => ⟨c, (csvNext q c).2⟩ :: csvMarks (csvNext q c).1 r

namespace CsvByte

def isSep (m : CsvByte) : Bool := m = ⟨44, .plain⟩

def isBlank (m : CsvByte) : Bool := m.kind = .plain && isWs m.byte

def isDelim (m : CsvByte) : Bool := m.kind = .opening || m.kind = .closing

def isData (m : CsvByte) : Bool := !m.isBlank && !m.isDelim

variable (c : UInt8)

@[simp] theorem isBlank_plain : isBlank ⟨c, .plain⟩ = isWs c := by simp [isBlank]

@[simp] theorem isData_opening : isData ⟨c, .opening⟩ = false := rfl

@[simp] theorem isData_closing : isData ⟨c, .closing⟩ = false := rfl

@[simp] theorem isData_quoted : isData ⟨c, .quoted⟩ = true := rfl

@[simp] theorem isData_plain : isData ⟨c, .plain⟩ = !isWs c := by simp [isData, isDelim]

end CsvByte

open CsvByte

/-! ### Marks -/

section Marks
variable (q : Option UInt8) (l : Bytes) {c : UInt8} {r : Bytes}

@[simp] theorem map_byte_csvMarks : (csvMarks q l).map (·.byte) = l := by
  induction l generalizing q with
  | nil => rfl
  | cons c r ih => simp [csvMarks, ih]

@[simp] theorem length_csvMarks : (csvMarks q l).length = l.length := by rw [← length_map (·.byte), map_byte_csvMarks]

def firstPiece : List CsvByte := (csvMarks q l).takeWhile (!isSep ·)

@[simp] theorem firstPiece_nil : firstPiece q [] = [] := rfl

theorem firstPiece_length_le : (firstPiece q l).length ≤ l.length := by
  have h := ( takeWhile_prefix (l := csvMarks q l) (!isSep ·)).length_le
  rwa [length_csvMarks] at h

theorem map_byte_firstPiece : (firstPiece q l).map (·.byte) = l.take (firstPiece q l).length := by
  have h := List.IsPrefix.map CsvByte.byte ( takeWhile_prefix (l := csvMarks q l) (!isSep ·))
  rw [map_byte_csvMarks] at h
  have h' := prefix_iff_eq_take.mp h
  rwa [length_map] at h'

theorem firstPiece_cons {q' : Option UInt8} {k : CsvKind} (h : csvNext q c = (q', k))
    (hk : k = .plain → c ≠ 44) : firstPiece q (c :: r) = ⟨c, k⟩ :: firstPiece q' r := by
  have hs : isSep ⟨c, k⟩ = false := by
    simp only [isSep, CsvByte.mk.injEq, decide_eq_false_iff_not]
    exact fun hc => hk hc.2 hc.1
  rw [firstPiece, csvMarks, h, takeWhile_cons]
  simp [hs, firstPiece]

theorem firstPiece_sep : firstPiece none (44 :: r) = [] := rfl

theorem firstPiece_opening : firstPiece none (34 :: r) = ⟨34, .opening⟩ :: firstPiece (some 34) r :=
  firstPiece_cons none rfl (by simp)

theorem firstPiece_plain (h : c ≠ 34) (hc : c ≠ 44) : firstPiece none (c :: r) = ⟨c, .plain⟩ :: firstPiece none r :=
  firstPiece_cons none (if_neg h) fun _ => hc

theorem firstPiece_closing {prev : UInt8} (h : c = 34 ∧ prev ≠ 92) :
    firstPiece (some prev) (c :: r) = ⟨c, .closing⟩ :: firstPiece none r :=
  firstPiece_cons _ (if_pos h) (by simp)

theorem firstPiece_quoted {prev : UInt8} (h : ¬(c = 34 ∧ prev ≠ 92)) :
    firstPiece (some prev) (c :: r) = ⟨c, .quoted⟩ :: firstPiece (some c) r :=
  firstPiece_cons _ (if_neg h) (by simp)

theorem csvMarks_splitOnP : (csvMarks q l).splitOnP isSep = firstPiece q l ::
      if (firstPiece q l).length < l.length then
        (csvMarks none (l.drop ((firstPiece q l).length + 1))).splitOnP isSep else [] := by
  induction l generalizing q with
  | nil => rfl
  | cons c r ih =>
    obtain ⟨q', k, h⟩ : ∃ q' k, csvNext q c = (q', k) := ⟨_, _, rfl⟩
    by_cases hs : k = .plain ∧ c = 44
    · obtain ⟨rfl, rfl⟩ := hs
      obtain ⟨rfl, rfl⟩ : q = none ∧ q' = none := by
        cases q with
        | none => simpa [csvNext] using h.symm
        | some prev => simp [csvNext] at h
      rw [csvMarks, h, splitOnP_cons_eq_if_modifyHead]
      simp [firstPiece_sep, isSep]
    · have hk : k = .plain → c ≠ 44 := fun hk hc => hs ⟨hk, hc⟩
      have hs : isSep ⟨c, k⟩ = false := by
        simp only [isSep, CsvByte.mk.injEq, decide_eq_false_iff_not]
        exact fun hc => hk hc.2 hc.1
      rw [firstPiece_cons q h hk, csvMarks, h, splitOnP_cons_eq_if_modifyHead, ih q']
      simp [hs]

end Marks

/-! ### The position of the last data -/

/-- `last_data` after the marks from `cur` on. -/
def lastData : Nat → Option Nat → List CsvByte → Option Nat
  | _, last, [] => last
  | cur, last, m :: ms => lastData (cur + 1) (if m.isData then some cur else last) ms

theorem lastData_concat (cur : Nat) (last : Option Nat) (ms : List CsvByte) (m : CsvByte) :
    lastData cur last (ms ++ [m]) = if m.isData then some (cur + ms.length) else lastData cur last ms := by
  induction ms generalizing cur last with
  | nil => rfl
  | cons a ms ih => simp [lastData, ih, add_comm, add_left_comm]

def throughData (ms : List CsvByte) : List CsvByte := ms.rdropWhile (!isData ·)

theorem lastData_spec (cur : Nat) (ms : List CsvByte) : (lastData cur none ms = none ∧ throughData ms = []) ∨
      ∃ d < ms.length, lastData cur none ms = some (cur + d) ∧ throughData ms = ms.take (d + 1) := by
  induction ms using List.reverseRecOn with
  | nil => exact .inl ⟨rfl, rfl⟩
  | append_singleton ms m ih =>
    rw [lastData_concat, throughData, rdropWhile_concat]
    cases hm : m.isData with
    | true => exact .inr ⟨ms.length, by simp, by simp, by simp⟩
    | false =>
      simp only [Bool.false_eq_true, if_false, Bool.not_false, if_true]
      obtain h | ⟨d, hd, hl, ht⟩ := ih
      · exact .inl h
      · refine .inr ⟨d, by simp; omega, hl, ?_⟩
        rw [take_append_of_le_length (by omega)]
        exact ht

/-! ### The scan -/

section Scan
variable {cur start : Nat} {last : Option Nat} {rest : Bytes}

theorem plain_of_gt_comma {c : UInt8} (h : c.toInt8 > 44) : c ≠ 34 ∧ c ≠ 44 ∧ isWs c = false := by
  refine ⟨?_, ?_, ?_⟩
  · rintro rfl
    exact absurd h (by decide)
  · rintro rfl
    exact absurd h (by decide)
  · refine Bool.eq_false_iff.mpr fun hw => ?_
    simp only [isWs, Bool.or_eq_true, beq_iff_eq, charSP, charHT] at hw
    rcases hw with rfl | rfl <;> exact absurd h (by decide)

theorem csvSkip_spec {cur' : Nat} {rest' : Bytes} {last' : Option Nat}
    (h : csvSkip 44 cur rest last = (cur', rest', last')) :
    cur' + (firstPiece none rest').length = cur + (firstPiece none rest).length ∧
      lastData cur' last' (firstPiece none rest') = lastData cur last (firstPiece none rest) ∧
      rest'.length ≤ rest.length ∧ cur ≤ cur' ∧ (cur' = cur → rest' = rest) := by
  fun_induction csvSkip 44 cur rest last with
  | case1 cur c d r last hc ih =>
    obtain ⟨h34, h44, hw⟩ := plain_of_gt_comma hc.2
    obtain ⟨hp, hl, hr, hcur, -⟩ := ih h
    have hf : firstPiece none (c :: d :: r) = ⟨c, .plain⟩ :: firstPiece none (d :: r) := firstPiece_plain h34 h44
    refine ⟨?_, ?_, ?_, by omega, by omega⟩
    · rw [hf, hp, length_cons]
      omega
    · rw [hf, hl, lastData]
      simp [hw]
    · exact le_trans hr (by simp)
  | case2 cur c d r last hc =>
    obtain ⟨rfl, rfl, rfl⟩ : cur = cur' ∧ c :: d :: r = rest' ∧ last = last' := by simpa using h
    simp
  | case3 cur r last hr =>
    obtain ⟨rfl, rfl, rfl⟩ : cur = cur' ∧ r = rest' ∧ last = last' := by simpa using h
    simp

theorem csvParse_eq {fuel : Nat} {q : Option UInt8} (hf : rest.length < fuel) (hs : start ≤ cur)
    (hq : q = none → start = cur → rest.head? ≠ some 34) : csvParse 44 fuel q cur rest start last =
      some ⟨cur + (firstPiece q rest).length, some start, lastData cur last (firstPiece q rest)⟩ := by
  induction fuel generalizing q cur rest last with
  | zero => omega
  | succ fuel ih =>
    cases q with
    | none =>
      obtain ⟨cur', rest', last', hk⟩ :
          ∃ cur' rest' last', csvSkip 44 cur rest last = (cur', rest', last') := ⟨_, _, _, rfl⟩
      obtain ⟨hp, hl, hr, hcur, hsame⟩ := csvSkip_spec hk
      rw [csvParse, hk, ← hp, ← hl]
      cases rest' with
      | nil => rfl
      | cons c r =>
        by_cases hc : c = 44
        · subst hc
          simp [firstPiece_sep, lastData]
        by_cases hc' : c = 34
        · subst hc'
          have hne : cur' ≠ start := by
            intro he
            have := hsame (by omega)
            exact hq rfl (by omega) (by simp [← this])
          have hr' : r.length < fuel := by simp at hr; omega
          simp only [hc, if_false, if_true, if_neg hne]
          rw [ih hr' (by omega) (by simp), firstPiece_opening]
          simp [lastData]
          omega
        · have hr' : r.length < fuel := by simp at hr; omega
          simp only [hc, hc', if_false]
          have hlast : (if isWs c then last' else some cur') =
              if (⟨c, .plain⟩ : CsvByte).isData then some cur' else last' := by
            cases hw : isWs c <;> simp [hw]
          rw [hlast, ih hr' (by omega) (by omega), firstPiece_plain hc' hc]
          simp [lastData]
          omega
    | some prev =>
      cases rest with
      | nil => rfl
      | cons c r =>
        have hr' : r.length < fuel := by simp at hf; omega
        rw [csvParse]
        split_ifs with hc
        · rw [ih hr' (by omega) (by omega), firstPiece_closing hc]
          simp [lastData]
          omega
        · rw [ih hr' (by omega) (by simp), firstPiece_quoted hc]
          simp [lastData]
          omega

end Scan

/-! ### One call -/

def dropOpening : List CsvByte → List CsvByte
  | ⟨_, .opening⟩ :: ms => ms
  | ms => ms

def found (piece : List CsvByte) : List CsvByte :=
  throughData (dropOpening (piece.dropWhile isBlank))

/-- The outcome of a call that scans the piece from `i` on, when there are `n` bytes. -/
inductive Finds (i n : Nat) (piece : List CsvByte) (p : CsvScan) : Prop
  | data (s d : Nat) (hcur : p.cur = i + piece.length) (hs : p.csvStart = some (i + s))
      (hd : p.lastData = some (i + d)) (hlt : d < piece.length) (hle : s ≤ d)
      (hfound : found piece = (piece.drop s).take (d + 1 - s))
  | nothing (hcur : p.cur = i + piece.length) (hd : p.lastData = none) (hfound : found piece = [])
      (hs : p.csvStart = none → piece.length = n)

theorem Finds.ofLastData {i n k : Nat} {piece tail : List CsvByte}
    (hfound : found piece = throughData tail) (htail : piece.drop k = tail) (hk : k ≤ piece.length) :
    Finds i n piece ⟨i + piece.length, some (i + k), lastData (i + k) none tail⟩ := by
  obtain ⟨hl, ht⟩ | ⟨d, hd, hl, ht⟩ := lastData_spec (i + k) tail
  · exact .nothing rfl hl (hfound.trans ht) (by simp)
  · have hlen : tail.length = piece.length - k := by rw [← htail, length_drop]
    refine .data k (k + d) rfl rfl (by rw [hl, add_assoc]) (by omega) (by omega) ?_
    rw [hfound, ht, htail]
    congr 1
    omega

theorem csvLeading_spec (i : Nat) (rest : Bytes) :
    ∃ p, csvLeading 44 i rest = some p ∧ Finds i rest.length (firstPiece none rest) p := by
  induction rest generalizing i with
  | nil => exact ⟨_, rfl, .nothing rfl rfl rfl (by simp)⟩
  | cons c r ih =>
    rw [csvLeading]
    by_cases hw : isWs c
    · -- white space is skipped, and belongs to the piece
      have h34 : c ≠ 34 := by rintro rfl; exact absurd hw (by decide)
      have h44 : c ≠ 44 := by rintro rfl; exact absurd hw (by decide)
      obtain ⟨p, hp, hf⟩ := ih (i + 1)
      rw [if_pos hw, firstPiece_plain h34 h44]
      have hfound : found (⟨c, .plain⟩ :: firstPiece none r) = found (firstPiece none r) := by
        rw [found, dropWhile_cons_of_pos (by simpa using hw), found]
      refine ⟨p, hp, ?_⟩
      cases hf with
      | data s d hcur hs hd hlt hle hf =>
        refine .data (s + 1) (d + 1) ?_ ?_ ?_ (by simpa using hlt) (by omega) ?_
        · rw [hcur, length_cons]
          omega
        · rw [hs]
          congr 1
          omega
        · rw [hd]
          congr 1
          omega
        · rw [hfound, hf, drop_succ_cons]
          congr 1
          omega
      | nothing hcur hd hf hs =>
        refine .nothing ?_ hd (hfound.trans hf) fun h => by simp [hs h]
        rw [hcur, length_cons]
        omega
    · rw [if_neg hw]
      by_cases h44 : c = 44
      · subst h44
        have hp : csvParse 44 (r.length + 2) none i (44 :: r) i none = some ⟨i, some i, none⟩ := by
          rw [csvParse_eq (by simp) le_rfl (by simp)]
          rfl
        exact ⟨_, hp, .nothing rfl rfl rfl (by simp)⟩
      by_cases h34 : c = 34
      · -- a leading quote: the element starts behind it
        subst h34
        have hp : csvParse 44 (r.length + 2) none i (34 :: r) i none =
            csvParse 44 (r.length + 1) (some 34) (i + 1) r (i + 1) none := by
          rw [csvParse]
          cases r with
          | nil => simp [csvSkip]
          | cons d r =>
            rw [csvSkip, if_neg (by decide)]
            simp
        rw [hp, csvParse_eq (by simp) le_rfl (by simp), firstPiece_opening]
        have hcur : i + 1 + (firstPiece (some 34) r).length =
            i + ((⟨34, .opening⟩ : CsvByte) :: firstPiece (some 34) r).length := by
          rw [length_cons]
          omega
        rw [hcur]
        exact ⟨_, rfl, Finds.ofLastData (k := 1) rfl rfl (by simp)⟩
      · have hp : csvParse 44 (r.length + 2) none i (c :: r) i none = _ :=
          csvParse_eq (by simp) le_rfl (by simpa using h34)
        rw [hp, firstPiece_plain h34 h44]
        refine ⟨_, rfl, Finds.ofLastData (k := 0) ?_ rfl (by simp)⟩
        rw [found, dropWhile_cons_of_neg (by simpa using hw)]
        rfl

end TrafficServer
