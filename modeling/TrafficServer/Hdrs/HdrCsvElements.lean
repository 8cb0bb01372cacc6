import TrafficServer.Hdrs.HdrCsvScan
import Mathlib.Algebra.Order.BigOperators.Group.List
import Mathlib.Algebra.Order.Ring.Nat

/-!
# The elements that the iteration sees

A value is cut at its separators; an element is a piece without outer white space, without a leading
quote, and without the quote that closes that one (`element`). The iteration goes through the pieces
of a field with `found` for `element`, and leaves the field at the first piece in which nothing is
found if there is another field (`seenFrom`).

`found` never takes more bytes than `element`, and no piece is seen twice, so the iteration returns
all the elements only if each piece is found as it is and no piece that was left has any bytes.
-/

namespace TrafficServer

open List ParseRules CsvByte

def csvBytes (ms : List CsvByte) : Bytes := ms.map (·.byte)

def fieldPieces : Option Bytes → List (List CsvByte)
  | none => []
  | some v => (csvMarks none v).splitOnP isSep

def trim (piece : List CsvByte) : List CsvByte :=
  (piece.dropWhile isBlank).rdropWhile isBlank

/-- Behind a leading quote: the quote that closes it is the last one. -/
def closes (ms : List CsvByte) : Bool :=
  ms.getLast?.any isDelim && ms.dropLast.all (·.kind = .quoted)

def unquote : List CsvByte → List CsvByte
  | ⟨_, .opening⟩ :: ms => if closes ms then ms.dropLast else ms
  | ms => ms

def element (piece : List CsvByte) : List CsvByte := unquote (trim piece)

/-- The elements of all the fields in order, the empty ones too. -/
def allElements (fields : List (Option Bytes)) : List (List CsvByte) :=
  (fields.flatMap fieldPieces).map element

def elements (fields : List (Option Bytes)) : List Bytes :=
  ((allElements fields).filter (· ≠ [])).map csvBytes

/-- The piece does not end in a quote, apart from the leading one and the one that closes it. -/
def Tidy (piece : List CsvByte) : Prop :=
  (trim piece).getLast?.any isDelim →
    ∃ c ms, trim piece = ⟨c, .opening⟩ :: ms ∧ (ms = [] ∨ closes ms)

/-! ### What is found of an element -/

section Found
variable {l ms piece : List CsvByte}

theorem throughData_append_of_not_data (h : ∀ m ∈ ms, isData m = false) : throughData (l ++ ms) = throughData l := by
  induction ms using List.reverseRecOn with
  | nil => rw [append_nil]
  | append_singleton ms m ih =>
    rw [← append_assoc, throughData, rdropWhile_concat_pos _ _ _ (by simp [h m])]
    exact ih fun x hx => h x (by simp [hx])

theorem throughData_eq_self_iff : throughData ms = ms ↔ ∀ m ∈ ms.getLast?, isData m := by
  rw [throughData, rdropWhile_eq_self_iff]
  constructor
  · intro h m hm
    obtain ⟨hne, rfl⟩ := mem_getLast?_eq_getLast hm
    simpa using h hne
  · intro h hne
    simpa using h _ (getLast_mem_getLast? hne)

theorem trim_last {m : CsvByte} (h : m ∈ (trim piece).getLast?) : isBlank m = false := by
  obtain ⟨hne, rfl⟩ := mem_getLast?_eq_getLast h
  exact Bool.eq_false_iff.mpr (rdropWhile_last_not isBlank _ hne)

theorem found_eq (piece : List CsvByte) : found piece = throughData (dropOpening (trim piece)) := by
  generalize hb : piece.dropWhile isBlank = b
  generalize hws : b.rtakeWhile isBlank = ws
  have hsplit : b = trim piece ++ ws := by rw [trim, hb, ← hws, rdropWhile_append_rtakeWhile]
  have hblank : ∀ m ∈ ws, isData m = false := by
    intro m hm
    rw [← hws] at hm
    simp [isData, mem_rtakeWhile_imp hm]
  rw [found, hb]
  cases ht : trim piece with
  | nil =>
    -- the first byte of the piece behind white space is not white space
    have hbn : b = [] := by
      rw [trim, hb, rdropWhile_eq_nil_iff] at ht
      have hhead := head?_dropWhile_not isBlank piece
      cases hbc : b with
      | nil => rfl
      | cons m r =>
        have hm := ht m (by simp [hbc])
        rw [hb, hbc] at hhead
        simp [hm] at hhead
    rw [hbn]
  | cons m t =>
    rw [hsplit, ht]
    have hd : dropOpening (m :: t ++ ws) = dropOpening (m :: t) ++ ws := by
      obtain ⟨c, k⟩ := m
      cases k <;> rfl
    rw [hd, throughData_append_of_not_data hblank]

theorem isData_iff {m : CsvByte} (h : isBlank m = false) : isData m ↔ ¬ isDelim m := by simp [isData, h]

theorem throughData_of_closes (h : closes ms) : throughData ms = ms.dropLast := by
  rw [closes, Bool.and_eq_true] at h
  obtain ⟨hlast, hq⟩ := h
  obtain ⟨body, q, rfl⟩ : ∃ body q, ms = body ++ [q] := by
    cases ms using List.reverseRecOn with
    | nil => simp at hlast
    | append_singleton body q => exact ⟨body, q, rfl⟩
  rw [dropLast_concat] at hq ⊢
  have hdelim : isData q = false := by
    have : isDelim q := by simpa using hlast
    simp [isData, this]
  rw [throughData_append_of_not_data (by simpa using hdelim), throughData_eq_self_iff]
  intro m hm
  obtain ⟨c, k⟩ := m
  have hk := all_eq_true.mp hq _ (mem_of_mem_getLast? hm)
  obtain rfl : k = .quoted := by simpa using hk
  rfl

theorem throughData_trim_iff (piece : List CsvByte) {t : List CsvByte} (h : t <:+ trim piece) :
    throughData t = t ↔ ¬ t.getLast?.any isDelim := by
  rw [throughData_eq_self_iff]
  cases hl : t.getLast? with
  | none => simp
  | some m =>
    have hm : m ∈ (trim piece).getLast? := by
      obtain ⟨a, ha⟩ := h
      rw [← ha, getLast?_append, hl]
      rfl
    simp [isData_iff (trim_last hm)]

theorem opening_or (t : List CsvByte) : (∃ c ms, t = ⟨c, .opening⟩ :: ms) ∨
      (¬ ∃ c ms, t = ⟨c, .opening⟩ :: ms) ∧ dropOpening t = t ∧ unquote t = t := by
  cases t with
  | nil => exact .inr ⟨by simp, rfl, rfl⟩
  | cons m t =>
    obtain ⟨c, k⟩ := m
    cases k with
    | opening => exact .inl ⟨c, t, rfl⟩
    | plain | quoted | closing => exact .inr ⟨by simp, rfl, rfl⟩

theorem found_eq_element_iff : found piece = element piece ↔ Tidy piece := by
  rw [found_eq, element, Tidy]
  generalize ht : trim piece = t
  obtain ⟨c, ms, rfl⟩ | ⟨ho, hd, hu⟩ := opening_or t
  · rw [dropOpening, unquote]
    split_ifs with hc
    · rw [throughData_of_closes hc]
      exact iff_of_true rfl fun _ => ⟨c, ms, rfl, .inr hc⟩
    · rw [throughData_trim_iff piece (by rw [ht]; exact suffix_cons _ _)]
      cases ms with
      | nil => exact iff_of_true (by simp) fun _ => ⟨c, [], rfl, .inl rfl⟩
      | cons m ms =>
        rw [getLast?_cons_cons]
        constructor
        · exact fun h h' => absurd h' h
        · intro h h'
          obtain ⟨c', ms', he, hms⟩ := h h'
          obtain ⟨rfl, rfl⟩ : c = c' ∧ m :: ms = ms' := by simpa using he
          simp [hc] at hms
  · rw [hd, hu, throughData_trim_iff piece (by rw [ht])]
    constructor
    · exact fun h h' => absurd h' h
    · intro h h'
      obtain ⟨c, ms, he, -⟩ := h h'
      exact ho ⟨c, ms, he⟩

theorem found_le (piece : List CsvByte) : found piece <+: element piece := by
  have hle (ms : List CsvByte) : throughData ms <+: ms := rdropWhile_prefix _ ms
  rw [found_eq, element]
  obtain ⟨c, ms, ht⟩ | ⟨-, hd, hu⟩ := opening_or (trim piece)
  · rw [ht, dropOpening, unquote]
    split
    · next hc => rw [throughData_of_closes hc]
    · exact hle ms
  · rw [hd, hu]
    exact hle _

end Found

/-! ### The iteration -/

/-- What the iteration finds in the pieces that are left of a field and in its duplicates. -/
def seenFrom (pieces : List (List CsvByte)) : List (Option Bytes) → List (List CsvByte)
  | [] => (pieces.map found).filter (· ≠ [])
  | v :: dups => (pieces.map found).takeWhile (· ≠ []) ++ seenFrom (fieldPieces v) dups

def seenFields : List (Option Bytes) → List (List CsvByte)
  | [] => []
  | v :: dups => seenFrom (fieldPieces v) dups

def piecesAt (v : Bytes) (i : Nat) : List (List CsvByte) :=
  if i ≤ v.length then fieldPieces (some (v.drop i)) else []

variable {piece : List CsvByte} {start : Option Nat}

namespace HdrCsvIter

/-- What one scan of a field finds of its pieces. -/
inductive Scans (v : Bytes) (i : Nat) (p : CsvScan) : Prop
  | past (hp : piecesAt v i = []) (hd : p.lastData = none) (hs : p.csvStart = none)
  | data (piece : List CsvByte) (s d : Nat) (hp : piecesAt v i = piece :: piecesAt v (p.cur + 1))
      (hs : p.csvStart = some s) (hd : p.lastData = some d) (hne : found piece ≠ [])
      (hb : (v.drop s).take (d + 1 - s) = csvBytes (found piece))
  | nothing (piece : List CsvByte) (hp : piecesAt v i = piece :: piecesAt v (p.cur + 1))
      (hd : p.lastData = none) (hf : found piece = [])
      (hs : p.csvStart = none → piecesAt v (p.cur + 1) = [])

theorem scanField_spec (v : Bytes) (i : Nat) : ∃ p, scanField 44 (some v) (some i) = some p ∧ Scans v i p := by
  by_cases hi : i ≤ v.length
  · obtain ⟨p, hp, hf⟩ := csvLeading_spec i (v.drop i)
    generalize hpiece : firstPiece none (v.drop i) = piece at hf
    have hlen := firstPiece_length_le none (v.drop i)
    have hcur : p.cur = i + piece.length := by cases hf <;> assumption
    have hsplit : piecesAt v i = piece :: piecesAt v (p.cur + 1) := by
      rw [piecesAt, if_pos hi, fieldPieces, csvMarks_splitOnP, hpiece, piecesAt, hcur, length_drop, drop_drop]
      simp only [fieldPieces, add_assoc]
      congr 1
      split <;> split <;> first | rfl | omega
    refine ⟨p, hp, ?_⟩
    cases hf with
    | data s d _ hs hd hlt hle hfound =>
      refine .data piece (i + s) (i + d) hsplit hs hd ?_ ?_
      · rw [hfound]
        intro h
        have := congrArg List.length h
        simp at this
        omega
      · have hbytes := map_byte_firstPiece none (v.drop i)
        rw [hpiece] at hbytes
        rw [hfound, csvBytes, map_take, map_drop, hbytes, drop_take, take_take, drop_drop]
        congr 1
        omega
    | nothing _ hd hfound hs =>
      refine .nothing piece hsplit hd hfound fun h => ?_
      rw [piecesAt, if_neg]
      have := hs h
      rw [length_drop] at this
      omega
  · have hdrop : v.drop i = [] := drop_eq_nil_of_le (by omega)
    refine ⟨⟨i, none, none⟩, ?_, .past (by rw [piecesAt, if_neg hi]) rfl rfl⟩
    simp [scanField, hdrop, csvLeading]

/-- From an iterator on, the calls return these elements, apart from empty ones. -/
def Yields (fuel : Nat) (it : Option HdrCsvIter) (l : List (List CsvByte)) : Prop :=
  ∃ it' out, it = some it' ∧ values 44 true fuel it' = some out ∧
    out.filter (· ≠ []) = l.map csvBytes

theorem Yields.null {fuel : Nat} {fields : List (Option Bytes)} {n e : Nat}
    (h : 0 < fuel) : Yields fuel (some ⟨fields, none, n, e⟩) [] := by
  obtain ⟨fuel, rfl⟩ := Nat.exists_eq_succ_of_ne_zero h.ne'
  exact ⟨_, [], rfl, rfl, rfl⟩

variable {l : List (List CsvByte)}

theorem Yields.next {fuel s n e : Nat} {v : Bytes} {dups : List (Option Bytes)}
    (hb : (v.drop s).take n = csvBytes piece) (h : Yields fuel (findCsv 44 true (some v :: dups) (some (e + 1))) l) :
    Yields (fuel + 1) (some ⟨some v :: dups, some s, n, e⟩) ([piece].filter (· ≠ []) ++ l) := by
  obtain ⟨it', out, hit, hout, hl⟩ := h
  refine ⟨_, csvBytes piece :: out, rfl, ?_, ?_⟩
  · simp [values, current, getNext, hit, hout, hb]
  · rw [map_append, ← hl]
    cases piece <;> simp [csvBytes]

variable {v : Option Bytes}

theorem findCsv_of_data {dups : List (Option Bytes)} {p : CsvScan}
    {d : Nat} (h : scanField 44 v start = some p) (hd : p.lastData = some d) :
    findCsv 44 true (v :: dups) start = some ⟨v :: dups, p.csvStart, d + 1 - p.csvStart.getD 0, p.cur⟩ := by
  simp [findCsv, h, hd]

theorem findCsv_of_nothing {dups : List (Option Bytes)} {p : CsvScan}
    (h : scanField 44 v start = some p) (hd : p.lastData = none) : findCsv 44 true (v :: dups) start =
      if dups = [] then some ⟨v :: dups, p.csvStart, 0, p.cur⟩ else findCsv 44 true dups (fieldInit dups) := by
  by_cases hn : dups = [] <;> simp [findCsv, h, hd, hn]

theorem seenFrom_nil (dups : List (Option Bytes)) : seenFrom [] dups = seenFields dups := by cases dups <;> rfl

theorem seenFrom_cons_data (pieces : List (List CsvByte)) (dups : List (Option Bytes)) (h : found piece ≠ []) :
    seenFrom (piece :: pieces) dups = found piece :: seenFrom pieces dups := by
  cases dups <;> simp [seenFrom, h]

theorem seenFrom_cons_nothing (pieces : List (List CsvByte))
    {dups : List (Option Bytes)} (h : found piece = []) : seenFrom (piece :: pieces) dups =
      if dups = [] then seenFrom pieces [] else seenFields dups := by
  cases dups <;> simp [seenFrom, seenFields, h]

def pieceCount (fields : List (Option Bytes)) : Nat :=
  (fields.map fun v => (fieldPieces v).length).sum

theorem findCsv_field (v : Bytes) (dups : List (Option Bytes))
    (hdups : dups ≠ [] → ∀ fuel, pieceCount dups < fuel →
      Yields fuel (findCsv 44 true dups (fieldInit dups)) (seenFields dups)) :
    ∀ fuel i, (piecesAt v i).length + pieceCount dups < fuel →
      Yields fuel (findCsv 44 true (some v :: dups) (some i)) (seenFrom (piecesAt v i) dups) := by
  intro fuel
  induction fuel with
  | zero => intro i h; omega
  | succ fuel ih =>
    intro i h
    obtain ⟨p, hp, hscan⟩ := scanField_spec v i
    cases hscan with
    | past hpieces hd hs =>
      rw [findCsv_of_nothing hp hd, hpieces, seenFrom_nil, hs]
      split
      · next hn =>
        subst hn
        exact .null (by omega)
      · next hn => exact hdups hn _ (by omega)
    | data piece s d hpieces hs hd hne hb =>
      rw [hpieces, length_cons] at h
      rw [findCsv_of_data hp hd, hpieces, seenFrom_cons_data _ _ hne, hs]
      have hnext := Yields.next hb (ih (p.cur + 1) (by omega))
      simpa [hne] using hnext
    | nothing piece hpieces hd hf hs =>
      rw [hpieces, length_cons] at h
      rw [findCsv_of_nothing hp hd, hpieces, seenFrom_cons_nothing _ hf]
      split
      · next hn =>
        -- the last field: an empty element is returned, unless the value is at its end
        subst hn
        cases hstart : p.csvStart with
        | none =>
          rw [hs hstart]
          exact .null (by omega)
        | some s =>
          have hb : (v.drop s).take 0 = csvBytes [] := rfl
          have hnext := Yields.next hb (ih (p.cur + 1) (by omega))
          simpa using hnext
      · next hn => exact hdups hn _ (by omega)

theorem findCsv_fields (fields : List (Option Bytes)) (hne : fields ≠ []) : ∀ fuel, pieceCount fields < fuel →
      Yields fuel (findCsv 44 true fields (fieldInit fields)) (seenFields fields) := by
  induction fields with
  | nil => exact absurd rfl hne
  | cons v dups ih =>
    intro fuel h
    cases v with
    | none =>
      have hp : scanField 44 none (fieldInit (none :: dups)) = some ⟨0, none, none⟩ := rfl
      rw [findCsv_of_nothing hp rfl, seenFields, fieldPieces, seenFrom_nil]
      simp only [pieceCount, map_cons, sum_cons] at h
      split
      · next hn =>
        subst hn
        exact .null (by omega)
      · next hn => exact ih hn _ (by simp only [pieceCount]; omega)
    | some v =>
      have h0 : piecesAt v 0 = fieldPieces (some v) := by simp [piecesAt]
      have hfield := findCsv_field v dups (fun hn => ih hn) fuel 0
      rw [h0] at hfield
      exact hfield (by simpa [pieceCount] using h)

def seen (fields : List (Option Bytes)) : List (List CsvByte) :=
  if fields.head? = some none then [] else seenFields fields

theorem fieldPieces_length_le (v : Option Bytes) : (fieldPieces v).length ≤ (v.getD []).length + 1 := by
  cases v with
  | none => simp [fieldPieces]
  | some v =>
    have h (ms : List CsvByte) : (ms.splitOnP isSep).length ≤ ms.length + 1 := by
      induction ms with
      | nil => simp
      | cons m ms ih =>
        rw [splitOnP_cons_eq_if_modifyHead]
        split <;> simp <;> omega
    simpa [fieldPieces] using h (csvMarks none v)

theorem pieceCount_lt_fuel (fields : List (Option Bytes)) : pieceCount fields < fuel fields := by
  have h : pieceCount fields ≤ (fields.map fun v => (v.getD []).length + 2).sum :=
    sum_le_sum fun v _ => le_trans (fieldPieces_length_le v) (by omega)
  rw [fuel]
  omega

theorem allValues_spec (fields : List (Option Bytes)) :
    ∃ out, allValues 44 true fields = some out ∧ out.filter (· ≠ []) = (seen fields).map csvBytes := by
  have hall {it : Option HdrCsvIter} {l : List (List CsvByte)}
      (hit : getFirst 44 true fields = it) (h : Yields (fuel fields) it l) :
      ∃ out, allValues 44 true fields = some out ∧ out.filter (· ≠ []) = l.map csvBytes := by
    obtain ⟨it', out, rfl, hout, hl⟩ := h
    exact ⟨out, by simp [allValues, hit, hout], hl⟩
  rcases fields with _ | ⟨_ | v, dups⟩
  · exact hall rfl (.null (by simp [fuel]))
  · exact hall rfl (.null (by simp [fuel]))
  · exact hall rfl (findCsv_fields _ (by simp) _ (pieceCount_lt_fuel _))

/-! ### What is lost -/

def total (l : List (List CsvByte)) : Nat := (l.map List.length).sum

@[simp] theorem total_append (l l' : List (List CsvByte)) : total (l ++ l') = total l + total l' := by simp [total]

@[simp] theorem total_cons (x : List CsvByte) (l : List (List CsvByte)) : total (x :: l) = x.length + total l := by
  simp [total]

theorem total_filter (l : List (List CsvByte)) : total (l.filter (· ≠ [])) = total l := by
  induction l with
  | nil => rfl
  | cons x l ih =>
    by_cases hx : x = []
    · simpa [hx] using ih
    · simpa [hx] using ih

theorem total_eq_zero : total l = 0 ↔ ∀ x ∈ l, x = [] := by
  rw [total, sum_eq_zero_iff]
  simp

/-- Behind an empty element there are only empty ones. -/
def NothingBehind (l : List (List CsvByte)) : Prop := l.Pairwise fun x y => x = [] → y = []

theorem NothingBehind.of_nil (h : ∀ x ∈ l, x = []) : NothingBehind l :=
  List.Pairwise.imp_mem.mpr (pairwise_of_forall fun _ y _ hy _ => h y hy)

theorem takeWhile_eq_filter (h : NothingBehind l) : l.takeWhile (· ≠ []) = l.filter (· ≠ []) := by
  induction l with
  | nil => rfl
  | cons x l ih =>
    obtain ⟨hx, hl⟩ := pairwise_cons.mp h
    by_cases hn : x = []
    · subst hn
      simpa using hx
    · simpa [hn] using ih hl

theorem total_takeWhile (l : List (List CsvByte)) : total (l.takeWhile (· ≠ [])) ≤ total l ∧
      (total (l.takeWhile (· ≠ [])) = total l → NothingBehind l) := by
  induction l with
  | nil => exact ⟨le_rfl, fun _ => List.Pairwise.nil⟩
  | cons x l ih =>
    by_cases hn : x = []
    · subst hn
      refine ⟨by simp [total], fun h => .of_nil (total_eq_zero.mp ?_)⟩
      simpa [total] using h.symm
    · simp only [hn, ne_eq, not_false_eq_true, decide_true, takeWhile_cons_of_pos, total_cons]
      refine ⟨by simpa using ih.1, fun h => pairwise_cons.mpr ⟨by simp [hn], ih.2 ?_⟩⟩
      simpa using h

theorem total_found (pieces : List (List CsvByte)) : total (pieces.map found) ≤ total (pieces.map element) ∧
      (total (pieces.map found) = total (pieces.map element) → ∀ p ∈ pieces, Tidy p) := by
  induction pieces with
  | nil => simp [total]
  | cons p pieces ih =>
    have hp := (found_le p).length_le
    simp only [map_cons, total_cons]
    refine ⟨by omega, fun h => forall_mem_cons.mpr ⟨?_, ih.2 (by omega)⟩⟩
    exact found_eq_element_iff.mp ((found_le p).eq_of_length (by omega))

theorem map_found {pieces : List (List CsvByte)} (h : ∀ p ∈ pieces, Tidy p) : pieces.map found = pieces.map element :=
  map_congr_left fun p hp => found_eq_element_iff.mpr (h p hp)

/-- Nothing is lost: no element ends in a quote other than the leading one and its closing one, and,
in a field that has another one behind it, behind an empty element there are only empty ones. -/
structure Keeps (fields : List (Option Bytes)) : Prop where
  tidy : ∀ v ∈ fields, ∀ piece ∈ fieldPieces v, Tidy piece
  behind : ∀ v ∈ fields.dropLast, NothingBehind ((fieldPieces v).map element)

theorem keeps_cons {w : Option Bytes} {dups : List (Option Bytes)} :
    Keeps (v :: w :: dups) ↔ (∀ piece ∈ fieldPieces v, Tidy piece) ∧
      NothingBehind ((fieldPieces v).map element) ∧ Keeps (w :: dups) := by
  constructor
  · rintro ⟨ht, hb⟩
    rw [dropLast_cons_cons, forall_mem_cons] at hb
    rw [forall_mem_cons] at ht
    exact ⟨ht.1, hb.1, ht.2, hb.2⟩
  · rintro ⟨ht, hb, h⟩
    refine ⟨forall_mem_cons.mpr ⟨ht, h.tidy⟩, ?_⟩
    rw [dropLast_cons_cons, forall_mem_cons]
    exact ⟨hb, h.behind⟩

theorem allElements_cons (v : Option Bytes) (dups : List (Option Bytes)) :
    allElements (v :: dups) = (fieldPieces v).map element ++ allElements dups := by
  simp [allElements]

theorem seenFields_of_keeps {fields : List (Option Bytes)} (h : Keeps fields) :
    seenFields fields = (allElements fields).filter (· ≠ []) := by
  match fields with
  | [] => rfl
  | [v] =>
    rw [seenFields, seenFrom, map_found (h.tidy v (by simp))]
    simp [allElements]
  | v :: w :: dups =>
    obtain ⟨ht, hb, hw⟩ := keeps_cons.mp h
    rw [seenFields, seenFrom, map_found ht, takeWhile_eq_filter hb, allElements_cons,
      filter_append, ← seenFields_of_keeps hw, seenFields]

theorem total_seenFields (fields : List (Option Bytes)) :
    total (seenFields fields) ≤ total (allElements fields) ∧
      (total (seenFields fields) = total (allElements fields) → Keeps fields) := by
  match fields with
  | [] => exact ⟨le_rfl, fun _ => ⟨by simp, by simp⟩⟩
  | [v] =>
    have hf := total_found (fieldPieces v)
    rw [seenFields, seenFrom, total_filter, allElements_cons]
    simp only [allElements, flatMap_nil, map_nil, append_nil]
    refine ⟨hf.1, fun h => ⟨by simpa using hf.2 h, by simp⟩⟩
  | v :: w :: dups =>
    have hf := total_found (fieldPieces v)
    have ht := total_takeWhile ((fieldPieces v).map found)
    have hw := total_seenFields (w :: dups)
    rw [seenFields, seenFrom, allElements_cons, total_append, total_append, ← seenFields]
    refine ⟨by omega, fun h => ?_⟩
    have htidy := hf.2 (by omega)
    have hbehind := ht.2 (by omega)
    rw [map_found htidy] at hbehind
    exact keeps_cons.mpr ⟨htidy, hbehind, hw.2 (by omega)⟩

theorem seen_eq_iff (fields : List (Option Bytes)) : (seen fields).map csvBytes = elements fields ↔
      (fields.head? = some none → elements fields = []) ∧ Keeps fields := by
  have hlen (l : List (List CsvByte)) : ((l.map csvBytes).map List.length).sum = total l := by
    simp [total, csvBytes, Function.comp_def]
  have htotal := total_seenFields fields
  rw [seen]
  constructor
  · intro h
    have hsum := congrArg (fun l => (l.map List.length).sum) h
    simp only [elements, hlen, total_filter] at hsum
    split at h
    · next hn =>
      rw [if_pos hn] at hsum
      exact ⟨fun _ => h.symm, htotal.2 (le_antisymm htotal.1 (by rw [← hsum]; exact Nat.zero_le _))⟩
    · next hn =>
      rw [if_neg hn] at hsum
      exact ⟨fun h' => absurd h' hn, htotal.2 hsum⟩
  · rintro ⟨hn, hk⟩
    split
    · next hnull => exact (hn hnull).symm
    · rw [seenFields_of_keeps hk, elements]

/-- **The iteration with duplicates ends, and the elements it returns are those of all the fields
exactly if nothing is lost on the way:** a null value does not hide elements behind it, no element
ends in a quote other than a leading one and the one that closes it, and in a field that has another
one behind it no element follows an empty one. -/
theorem csv_iteration_complete_iff (fields : List (Option Bytes)) :
    ∃ out, allValues 44 true fields = some out ∧ (out.filter (· ≠ []) = elements fields ↔
        (fields.head? = some none → elements fields = []) ∧ Keeps fields) := by
  obtain ⟨out, hout, hseen⟩ := allValues_spec fields
  exact ⟨out, hout, by rw [hseen, seen_eq_iff]⟩

/-- The field `a,,b` with the duplicate `c`: the element `b` is lost. -/
theorem empty_element_hides_next : allValues 44 true [some [97, 44, 44, 98], some [99]] = some [[97], [99]] ∧
      elements [some [97, 44, 44, 98], some [99]] = [[97], [98], [99]] := by
  decide

end HdrCsvIter

/-! ### Elements without quotes and white space -/

def Bare (x : Bytes) : Prop := x ≠ [] ∧ ∀ c ∈ x, c ≠ 34 ∧ c ≠ 44 ∧ isWs c = false

section Bare
variable {x : Bytes} {ls : List Bytes}

def plainMarks (x : Bytes) : List CsvByte := x.map (⟨·, .plain⟩)

theorem csvMarks_append (h : Bare x) (r : Bytes) : csvMarks none (x ++ r) = plainMarks x ++ csvMarks none r := by
  have hquote := fun c hc => (h.2 c hc).1
  clear h
  induction x with
  | nil => rfl
  | cons c x ih =>
    obtain ⟨hc, hx⟩ := forall_mem_cons.mp hquote
    rw [cons_append, csvMarks, csvNext, if_neg hc, ih hx]
    rfl

theorem fieldPieces_intercalate (h : ∀ x ∈ ls, Bare x) (hne : ls ≠ []) :
    fieldPieces (some ([44].intercalate ls)) = ls.map plainMarks := by
  have hsep {x : Bytes} (hx : Bare x) : ∀ m ∈ plainMarks x, isSep m = false := by
    intro m hm
    obtain ⟨c, hc, rfl⟩ := mem_map.mp hm
    simpa [isSep] using (hx.2 c hc).2.1
  induction ls with
  | nil => exact absurd rfl hne
  | cons x ls ih =>
    obtain ⟨hx, hls⟩ := forall_mem_cons.mp h
    cases ls with
    | nil =>
      have hmarks := csvMarks_append hx []
      rw [append_nil] at hmarks
      rw [fieldPieces, intercalate_singleton, hmarks, csvMarks, append_nil, splitOnP_eq_singleton (hsep hx)]
      rfl
    | cons y ls =>
      have hrest := ih hls (cons_ne_nil y ls)
      rw [fieldPieces, intercalate_cons_cons, append_assoc, csvMarks_append hx,
        singleton_append, csvMarks, map_cons, ← hrest]
      exact splitOnP_append_cons_of_forall_mem (hsep hx) _ rfl _

theorem found_plainMarks (h : Bare x) : found (plainMarks x) = plainMarks x := by
  have hdata : ∀ m ∈ plainMarks x, isData m ∧ ¬isBlank m ∧ m.kind = .plain := by
    intro m hm
    obtain ⟨c, hc, rfl⟩ := mem_map.mp hm
    simp [(h.2 c hc).2.2]
  have hblank : (plainMarks x).dropWhile isBlank = plainMarks x :=
    dropWhile_eq_self_iff.mpr fun hl => (hdata _ (getElem_mem hl)).2.1
  have hopen : dropOpening (plainMarks x) = plainMarks x := by cases x <;> rfl
  rw [found, hblank, hopen, throughData_eq_self_iff]
  exact fun m hm => (hdata m (mem_of_getLast? hm)).1

namespace HdrCsvIter

theorem values_length {fuel : Nat} {it : HdrCsvIter} {out : List Bytes}
    (h : values 44 true fuel it = some out) : out.length < fuel ∧ ∀ n, values 44 true (fuel + n) it = some out := by
  induction fuel generalizing it out with
  | zero => simp [values] at h
  | succ fuel ih =>
    rw [values] at h
    simp only [add_right_comm fuel 1, values]
    cases hc : it.current with
    | none =>
      rw [hc] at h
      obtain rfl := Option.some.inj h
      exact ⟨Nat.succ_pos _, fun _ => rfl⟩
    | some x =>
      simp only [hc, Option.bind_eq_bind, Option.bind_eq_some_iff, Option.some.injEq] at h ⊢
      obtain ⟨it', hit, l, hl, rfl⟩ := h
      obtain ⟨hlen, hmore⟩ := ih hl
      exact ⟨Nat.succ_lt_succ hlen, fun n => ⟨it', hit, l, hmore n, rfl⟩⟩

/-- **The iteration returns the elements of a list that have neither quotes nor white space.** -/
theorem allValues_intercalate (h : ∀ x ∈ ls, Bare x) (hne : ls ≠ []) :
    allValues 44 true [some ([44].intercalate ls)] = some ls := by
  have hpieces := fieldPieces_intercalate h hne
  have hcount : pieceCount [some ([44].intercalate ls)] = ls.length := by simp [pieceCount, hpieces]
  obtain ⟨it, out, hit, hout, hl⟩ := findCsv_fields [some ([44].intercalate ls)] (by simp) (ls.length + 1) (by omega)
  obtain ⟨hlen, hmore⟩ := values_length hout
  have hseen : (seenFields [some ([44].intercalate ls)]).map csvBytes = ls := by
    have hfound : (ls.map plainMarks).map found = ls.map plainMarks := by
      rw [map_map]
      exact map_congr_left fun x hx => found_plainMarks (h x hx)
    have hnonempty : ∀ m ∈ ls.map plainMarks, decide (m ≠ []) = true := by
      intro m hm
      obtain ⟨x, hx, rfl⟩ := mem_map.mp hm
      simpa [plainMarks] using (h x hx).1
    rw [seenFields, seenFrom, hpieces, hfound, filter_eq_self.mpr hnonempty, map_map]
    exact (map_congr_left fun x _ => by simp [csvBytes, plainMarks, Function.comp_def]).trans (map_id ls)
  have hall : out = ls := by
    rw [hseen] at hl
    rw [← hl]
    refine (filter_sublist.eq_of_length_le ?_).symm
    rw [hl]
    omega
  have hlt := pieceCount_lt_fuel [some ([44].intercalate ls)]
  obtain ⟨n, hn⟩ : ∃ n, fuel [some ([44].intercalate ls)] = ls.length + 1 + n :=
    ⟨_, (Nat.add_sub_of_le (by omega)).symm⟩
  have hfirst : getFirst 44 true [some ([44].intercalate ls)] = some it := hit
  rw [allValues, hfirst, Option.bind_eq_bind, Option.bind_some, hn, hmore n, hall]

end HdrCsvIter

end Bare

end TrafficServer
