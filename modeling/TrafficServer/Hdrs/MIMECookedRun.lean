import TrafficServer.Hdrs.MIMEHdrRun

/-!
# Cooked values in runs

The iteration and the cooking do not depend on the case of the values, so that the fast paths agree
with the loop because they do on one spelling. In a run that attaches no field without a value to a
cooked name with other live fields, the cooked values are always those of the live fields.
-/

namespace TrafficServer

open Option List ParseRules HdrToken MIMECooked Relation

/-! ### Case -/

variable (c : UInt8)

theorem toInt8_gt_iff : c.toInt8 > 44 ↔ 44 < c ∧ c ≤ 127 := by
  rw [gt_iff_lt, Int8.lt_iff_toInt_lt, UInt8.lt_iff_toNat_lt, UInt8.le_iff_toNat_le]
  have htoInt : c.toInt8.toInt = (c.toNat : Int).bmod 256 := BitVec.toInt_eq_toNat_bmod c.toBitVec
  have hc := c.toNat_lt
  have h44 : (44 : Int8).toInt = 44 := rfl
  have h44' : (44 : UInt8).toNat = 44 := rfl
  have h127 : (127 : UInt8).toNat = 127 := rfl
  rw [htoInt, h44, h44', h127, Int.bmod_def]
  omega

theorem inkTolower_skip : (inkTolower c).toInt8 > 44 ↔ c.toInt8 > 44 := by
  rw [toInt8_gt_iff, toInt8_gt_iff]
  obtain ⟨h1, h2, h⟩ | ⟨-, h⟩ := inkTolower_cases c
  · rw [h]
    grind
  · rw [h]

theorem inkTolower_eq_iff {d : UInt8} (hd : d = 0 ∨ d = 34 ∨ d = 44 ∨ d = 45 ∨ d = 92) (c : UInt8) :
    inkTolower c = d ↔ c = d := by
  obtain ⟨h1, h2, h⟩ | ⟨-, h⟩ := inkTolower_cases c
  · rw [h]
    grind
  · rw [h]

theorem isWs_inkTolower : isWs (inkTolower c) = isWs c := by
  obtain ⟨h1, h2, h⟩ | ⟨-, h⟩ := inkTolower_cases c
  · rw [h]
    grind [isWs, charSP, charHT]
  · rw [h]

theorem isToken_of_letter {c : UInt8} (h : 65 ≤ c ∧ c ≤ 90 ∨ 97 ≤ c ∧ c ≤ 122) : isToken c = true := by
  have hno : ∀ d ∈ [40, 41, 60, 62, 64, 44, 59, 58, 92, 34, 47, 91, 93, 63, 61, 123, 125, charSP,
      charHT], ¬(65 ≤ d ∧ d ≤ 90 ∨ 97 ≤ d ∧ d ≤ 122) := by simp [charSP, charHT]
  have hspecial : isTspecials c = false := by
    rw [isTspecials, contains_eq_mem, decide_eq_false_iff_not]
    exact fun hmem => hno c hmem h
  rw [isToken, hspecial]
  grind [isChar, isCtl]

theorem isToken_inkTolower : isToken (inkTolower c) = isToken c := by
  obtain ⟨h1, h2, h⟩ | ⟨-, h⟩ := inkTolower_cases c
  · rw [h, isToken_of_letter (.inl ⟨h1, h2⟩), isToken_of_letter (.inr (by grind))]
  · rw [h]

theorem isDigit_inkTolower : isDigit (inkTolower c) = isDigit c := by
  obtain ⟨h1, h2, h⟩ | ⟨-, h⟩ := inkTolower_cases c
  · rw [h]
    grind [isDigit]
  · rw [h]

theorem inkTolower_of_isDigit : isDigit c → inkTolower c = c := by
  intro hd
  obtain ⟨h1, h2, h⟩ | ⟨-, h⟩ := inkTolower_cases c
  · grind [isDigit]
  · exact h

namespace HdrCsvIter

/-! ### The iteration -/

theorem csvSkip_lower (rest : Bytes) (cur : Nat) (last : Option Nat) : csvSkip 44 cur (lower rest) last =
      ((csvSkip 44 cur rest last).1, lower (csvSkip 44 cur rest last).2.1, (csvSkip 44 cur rest last).2.2) := by
  induction rest generalizing cur last with
  | nil => rfl
  | cons c r ih =>
    cases r with
    | nil => rfl
    | cons d r =>
      simp only [lower, map_cons, csvSkip, inkTolower_skip]
      split
      · exact ih _ _
      · rfl

theorem csvParse_lower (fuel : Nat) (prev : Option UInt8) (cur : Nat) (rest : Bytes) (start : Nat)
    (last : Option Nat) : csvParse 44 fuel (prev.map inkTolower) cur (lower rest) start last =
      csvParse 44 fuel prev cur rest start last := by
  induction fuel generalizing prev cur rest start last with
  | zero => rfl
  | succ fuel ih =>
    cases prev with
    | none =>
      simp only [map_none, csvParse, csvSkip_lower]
      obtain ⟨cur', rest', last'⟩ := csvSkip 44 cur rest last
      cases rest' with
      | nil => rfl
      | cons c r =>
        simp only [lower, map_cons, inkTolower_eq_iff (d := 44) (by simp),
          inkTolower_eq_iff (d := 34) (by simp), isWs_inkTolower]
        split
        · rfl
        split
        · exact ih (some c) _ r _ _
        · exact ih none _ r _ _
    | some p =>
      cases rest with
      | nil => rfl
      | cons c r =>
        simp only [map_some, lower, map_cons, csvParse,
          inkTolower_eq_iff (d := 34) (by simp), ne_eq, inkTolower_eq_iff (d := 92) (by simp)]
        split
        · exact ih none _ r _ _
        · exact ih (some c) _ r _ _

theorem csvLeading_lower (rest : Bytes) (cur : Nat) :
    csvLeading 44 cur (lower rest) = csvLeading 44 cur rest := by
  induction rest generalizing cur with
  | nil => rfl
  | cons c r ih =>
    have hparse := csvParse_lower (r.length + 2) none cur (c :: r) cur none
    simp only [lower, map_cons, csvLeading, isWs_inkTolower, length_map] at ih ⊢
    split
    · exact ih _
    · exact hparse

def lowerFields (fields : List (Option Bytes)) : List (Option Bytes) :=
  fields.map fun v => v.map lower

theorem scanField_lower (value : Option Bytes) (start : Option Nat) :
    scanField 44 (value.map lower) start = scanField 44 value start := by
  cases value with
  | none => rfl
  | some v =>
    cases start with
    | none => rfl
    | some i =>
      simp only [map_some, scanField, lower, ← map_drop]
      exact csvLeading_lower (v.drop i) i

theorem fieldInit_lower (fields : List (Option Bytes)) :
    fieldInit (lowerFields fields) = fieldInit fields := by
  cases fields with
  | nil => rfl
  | cons v dups => cases v <;> rfl

def lowerIter (it : HdrCsvIter) : HdrCsvIter := { it with fields := lowerFields it.fields }

variable (b : Bool)

theorem findCsv_lower (fields : List (Option Bytes)) (start : Option Nat) :
    findCsv 44 b (lowerFields fields) start = (findCsv 44 b fields start).map lowerIter := by
  induction fields generalizing start with
  | nil => rfl
  | cons v dups ih =>
    have hdups : lowerFields dups = [] ↔ dups = [] := map_eq_nil_iff
    change findCsv 44 b (v.map lower :: lowerFields dups) start = _
    rw [findCsv, findCsv, scanField_lower]
    cases scanField 44 v start with
    | none => rfl
    | some p =>
      simp only [bind_eq_bind, bind_some, ne_eq, hdups]
      cases p.lastData with
      | some d => rfl
      | none =>
        dsimp only
        split
        · rw [fieldInit_lower, ih]
        · rfl

theorem getFirst_lower (fields : List (Option Bytes)) :
    getFirst 44 b (lowerFields fields) = (getFirst 44 b fields).map lowerIter := by
  rw [getFirst, getFirst, fieldInit_lower]
  cases fieldInit fields with
  | none => rfl
  | some i => exact findCsv_lower b fields (some i)

theorem getNext_lower (it : HdrCsvIter) : getNext 44 b (lowerIter it) = (getNext 44 b it).map lowerIter := by
  obtain ⟨fields, start, len, e⟩ := it
  cases start with
  | none => rfl
  | some i => exact findCsv_lower b _ _

theorem current_lower (it : HdrCsvIter) : current (lowerIter it) = (current it).map lower := by
  obtain ⟨fields, start, len, e⟩ := it
  cases start with
  | none => rfl
  | some i =>
    rcases fields with _ | ⟨_ | v, dups⟩
    · rfl
    · rfl
    · simp [current, lowerIter, lowerFields, lower, map_drop, map_take]

theorem values_lower (fuel : Nat) (it : HdrCsvIter) :
    values 44 b fuel (lowerIter it) = (values 44 b fuel it).map (·.map lower) := by
  induction fuel generalizing it with
  | zero => rfl
  | succ fuel ih =>
    rw [values, values, current_lower, getNext_lower]
    cases current it with
    | none => rfl
    | some x =>
      cases getNext 44 b it with
      | none => rfl
      | some it' =>
        simp only [map_some, bind_eq_bind, bind_some, ih]
        cases values 44 b fuel it' <;> rfl

/-- **The iteration does not depend on the case of the values.** -/
theorem allValues_lower (fields : List (Option Bytes)) :
    allValues 44 b (lowerFields fields) = (allValues 44 b fields).map (·.map lower) := by
  have hfuel : fuel (lowerFields fields) = fuel fields := by
    rw [fuel, fuel, lowerFields, List.map_map]
    congr 3
    funext v
    cases v <;> simp [lower]
  rw [allValues, allValues, getFirst_lower, hfuel]
  cases getFirst 44 b fields with
  | none => rfl
  | some it => exact values_lower b _ it

end HdrCsvIter

/-! ### The fast paths -/

namespace MIMECooked

open HdrCsvIter

variable (s : Bytes)

theorem takeWhile_isToken_lower : (lower s).takeWhile isToken = lower (s.takeWhile isToken) := by
  have h : isToken ∘ inkTolower = isToken := funext isToken_inkTolower
  rw [lower, takeWhile_map, h, lower]

theorem dropWhile_isToken_lower : (lower s).dropWhile isToken = lower (s.dropWhile isToken) := by
  have h : isToken ∘ inkTolower = isToken := funext isToken_inkTolower
  rw [lower, dropWhile_map, h, lower]

theorem takeWhile_isDigit_lower : (lower s).takeWhile isDigit = s.takeWhile isDigit := by
  have h : isDigit ∘ inkTolower = isDigit := funext isDigit_inkTolower
  rw [lower, takeWhile_map, h]
  conv_rhs => rw [← List.map_id (s.takeWhile isDigit)]
  exact map_congr_left fun c hc => inkTolower_of_isDigit c (mem_takeWhile_imp hc)

theorem mimeParseInteger_lower : mimeParseInteger (lower s) = mimeParseInteger s := by
  have h : (fun c : UInt8 => c ≠ 0 && !isDigit c && c ≠ 45) ∘ inkTolower =
      fun c : UInt8 => c ≠ 0 && !isDigit c && c ≠ 45 := by
    funext c
    simp [inkTolower_eq_iff, isDigit_inkTolower]
  rw [mimeParseInteger, mimeParseInteger, lower, dropWhile_map, h]
  cases s.dropWhile fun c : UInt8 => c ≠ 0 && !isDigit c && c ≠ 45 with
  | nil => rfl
  | cons c r =>
    simp only [map_cons, inkTolower_eq_iff (d := 0) (by simp), inkTolower_eq_iff (d := 45) (by simp)]
    split
    · rfl
    · have htake : (if c = 45 then r.map inkTolower else inkTolower c :: r.map inkTolower).takeWhile
          isDigit = (if c = 45 then r else c :: r).takeWhile isDigit := by
        split
        · exact takeWhile_isDigit_lower r
        · exact takeWhile_isDigit_lower (c :: r)
      rw [htake]

theorem cookDirective_lower (cc : MIMECookedCacheControl) (s : Bytes) :
    cookDirective cc (lower s) = cookDirective cc s := by
  rw [cookDirective, cookDirective, takeWhile_isToken_lower, dropWhile_isToken_lower,
    hdrtokenTokenize_congr (lower_lower _), mimeParseInteger_lower]

theorem cookPragmaElement_lower (b : Bool) (s : Bytes) :
    cookPragmaElement b (lower s) = cookPragmaElement b s := by
  rw [cookPragmaElement, cookPragmaElement, takeWhile_isToken_lower, hdrtokenTokenize_congr (lower_lower _)]

theorem cacheControlLoop_lower (values : List (Option Bytes)) :
    cacheControlLoop (lowerFields values) = cacheControlLoop values := by
  rw [cacheControlLoop, allValues_lower, Option.map_map, cacheControlLoop]
  congr 1
  funext l
  simp [foldl_map, cookDirective_lower]

theorem pragmaLoop_lower (values : List (Option Bytes)) :
    pragmaLoop (lowerFields values) = pragmaLoop values := by
  rw [pragmaLoop, allValues_lower, Option.map_map, pragmaLoop]
  congr 1
  funext l
  simp [foldl_map, cookPragmaElement_lower]

theorem lowerFields_of_casecmpEq {value : Option Bytes} {s : String}
    (hs : strBytes s ≠ []) (h : casecmpEq value s) : lowerFields [value] = [some (lower (strBytes s))] := by
  cases value with
  | none =>
    have h : lower [] = lower (strBytes s) := by simpa [casecmpEq] using h
    exact absurd (map_eq_nil_iff.mp h.symm) hs
  | some v =>
    have h : lower v = lower (strBytes s) := by simpa [casecmpEq] using h
    rw [← h]
    rfl

theorem cookCacheControl_eq_loop (values : List (Option Bytes)) :
    cookCacheControl values = cacheControlLoop values := by
  rw [cookCacheControl]
  split
  · rfl
  next hfast =>
  rcases values with _ | ⟨value, _ | ⟨_, _⟩⟩
  · exact absurd rfl hfast
  · rw [← cacheControlLoop_lower]
    simp only [fastMask] at hfast ⊢
    split at hfast
    · next h =>
      rw [if_pos h, lowerFields_of_casecmpEq (by decide +kernel) h]
      decide +kernel
    · next h1 =>
      split at hfast
      · next h =>
        rw [if_neg h1, if_pos h, lowerFields_of_casecmpEq (by decide +kernel) h]
        decide +kernel
      · exact absurd rfl hfast
  · exact absurd rfl hfast

theorem cookPragma_eq_loop (values : List (Option Bytes)) : cookPragma values = pragmaLoop values := by
  rw [cookPragma]
  split
  · next hfast =>
    rcases values with _ | ⟨value, _ | ⟨_, _⟩⟩
    · cases hfast
    · rw [← pragmaLoop_lower, lowerFields_of_casecmpEq (by decide +kernel) hfast]
      decide +kernel
    · cases hfast
  · rfl

end MIMECooked

/-! ### Runs -/

namespace MIMEHdr

variable {h g : MIMEHdr}

theorem Fresh.run (hrun : ReflTransGen MIMEOp.ShownStep g h) (hi : Inv g) (hf : Fresh g) :
    Inv h ∧ Fresh h := by
  induction hrun with
  | refl => exact ⟨hi, hf⟩
  | tail _ hstep ih =>
    obtain ⟨op, hfits, hshown, hop⟩ := hstep
    obtain ⟨g', hg', hi', hf'⟩ := MIMEOp.apply_spec ih.1 hfits
    rw [hop] at hg'
    cases hg'
    exact ⟨hi', hf' hshown ih.2⟩

theorem Fresh.recompute (hi : Inv h) (hf : Fresh h) : h.recomputeCookedStuff none = some h := by
  obtain ⟨⟨cc, p⟩, hc, hcc, hp⟩ := hi.recompute none
  rw [if_neg (by simp), hf.cacheControl] at hcc
  rw [if_neg (by simp), hf.pragma] at hp
  rw [hc]
  cases hcc
  cases hp
  rfl

/-- **In every header of such a run** the cooked values are those of the live fields, in the order of
their slots, and computing them from scratch changes nothing. The fast paths do not matter. -/
theorem cooked_stuff_of_run {addr : Nat} (hrun : ReflTransGen MIMEOp.ShownStep (create addr) h) :
    cacheControlLoop (h.valuesOf ccName) = some h.cookedStuff.cacheControl ∧
      pragmaLoop (h.valuesOf pragmaName) = some h.cookedStuff.pragmaNoCache ∧ h.recomputeCookedStuff none = some h ∧
      ∀ values, MIMECooked.cookCacheControl values = MIMECooked.cacheControlLoop values ∧
        MIMECooked.cookPragma values = MIMECooked.pragmaLoop values := by
  obtain ⟨hi, hf⟩ := Fresh.run hrun (inv_create addr) (fresh_create addr)
  refine ⟨?_, ?_, hf.recompute hi, fun values => ?_⟩
  · rw [← cookCacheControl_eq_loop]
    exact hf.cacheControl
  · rw [← cookPragma_eq_loop]
    exact hf.pragma
  · exact ⟨MIMECooked.cookCacheControl_eq_loop values, MIMECooked.cookPragma_eq_loop values⟩

/-- Two fields that are cooked together, and a `Pragma` that is deleted. -/
def directiveHeader : Option MIMEHdr :=
  MIMEOp.run (MIMEOp.fields [("Cache-Control", "max-age=60"), ("Pragma", "no-cache"),
    ("Cache-Control", "no-store")] ++ [.delete 1 true]) (create 0)

theorem cooked_stuff_of_directives : ∃ g, directiveHeader = some g ∧
    g.cookedStuff = { cacheControl := { mask := 5, secsMaxAge := 60 } } ∧ g.recomputeCookedStuff none = some g := by
  have hrun : directiveHeader.map (·.cookedStuff) =
      some { cacheControl := { mask := 5, secsMaxAge := 60 } } := by
    decide +kernel
  obtain ⟨g, hg, hcooked⟩ := Option.map_eq_some_iff.1 hrun
  exact ⟨g, hg, hcooked, (cooked_stuff_of_run (MIMEOp.shown_of_run hg)).2.2.1⟩

/-- The field in slot 1 has the value `no-store`. The one in slot 0 has no value when it is attached,
so that nothing is cooked; from scratch the iteration would stop at it. -/
theorem attach_without_value_stale : ((([.fieldCreate 4096, .fieldCreate 4096, .nameSet 0 (.wks wksidxCacheControl),
        .nameSet 1 (.wks wksidxCacheControl), .valueSet 1 (some (strBytes "no-store")),
        .attach 1, .attach 0] : List MIMEOp).foldlM (fun h op => MIMEOp.apply op h) (create 0)).bind
      fun h => (h.recomputeCookedStuff none).map fun g =>
        (h.cookedStuff.cacheControl.mask, g.cookedStuff.cacheControl.mask)) = some (1#32 <<< 2, 0) := by
  decide +kernel

end MIMEHdr

end TrafficServer
