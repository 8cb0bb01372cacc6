import TrafficServer.Lib.Transducer
import TrafficServer.Hdrs.MIMEScanner

/-!
# The scanner as a transducer

What the scanner does to its input, byte by byte: it builds up a logical line (`Pending`) and emits
it. The fast path, the jumps of the switch and the buffer are all equal to a run of this transducer
(`get_spec`). At the end of a chunk there is one thing to be noted (`Pending.mark`): a line whose LF
is in the buffer already keeps it when it is continued.
-/

namespace TrafficServer.MIMEScanner

open Option List ParseRules Transducer

/-- The logical line that is being built. A line that may be continued is fresh if its LF came with
the current chunk. -/
inductive Pending
  | start
  | char2
  | body (line : Bytes)
  | ended (line : Bytes) (fresh : Bool)
  | folding (line : Bytes)
deriving DecidableEq

namespace Pending

def mark : Pending → Pending
  | ended line _ => ended line false
  | q => q

end Pending

open Pending

section Step
variable (type : MIMEScannerType)

def stepStart (c : UInt8) : Pending × List Bytes :=
  if c = charCR then (char2, []) else if c = charLF then (start, [[c]]) else (body [c], [])

def stepBody (line : Bytes) (c : UInt8) : Pending × List Bytes :=
  if c = charLF then
    if type = .line then (start, [line ++ [c]]) else (ended (line ++ [c]) true, [])
  else (body (line ++ [c]), [])

def step : Pending → UInt8 → Pending × List Bytes
  | start, c => stepStart c
  | char2, c => if c = charLF then (start, [[charCR, c]]) else (body [charCR, c], [])
  | body line, c => stepBody type line c
  | ended line fresh, c =>
    if isWs c then (folding (if fresh then trimLine line else line), [])
    else ((stepStart c).1, line :: (stepStart c).2)
  | folding line, c => if isWs c then (folding line, []) else stepBody type line c

/-- The end of the input: a line that waits for a continuation is complete. -/
def finish : Pending → List Bytes × MIMEParseResult
  | start => ([], .done)
  | char2 => ([], .error)
  | ended line _ => ([line], .done)
  | body line | folding line => ([], if line = [] then .done else .error)

def outcome (eof : Bool) (q : Pending) (raw : Bytes) :
    List Bytes × Pending × MIMEParseResult :=
  let r := run (step type) q raw
  if eof then (r.2 ++ (finish r.1).1, start, (finish r.1).2) else (r.2, r.1.mark, .cont)

end Step

/-! ### Runs over pieces of a line -/

variable {type : MIMEScannerType} {eof : Bool} {line l r raw : Bytes} {c : UInt8}

theorem run_body_of_none (h : throughLF r = none) : run (step type) (body line) r = (body (line ++ r), []) := by
  induction r generalizing line with
  | nil => simp
  | cons c r ih =>
    rw [throughLF] at h
    split at h
    · cases h
    · next hc =>
      have hstep : step type (body line) c = (body (line ++ [c]), []) := if_neg hc
      rw [run_cons_of_quiet hstep, ih (by simpa using h), append_assoc]
      rfl

variable {p : Bytes × Bytes}

theorem run_body_of_some (h : throughLF r = some p) : run (step type) (body line) r = if type = .line then
        ((run (step type) start p.2).1, (line ++ p.1) :: (run (step type) start p.2).2)
      else run (step type) (ended (line ++ p.1) true) p.2 := by
  induction r generalizing line p with
  | nil => cases h
  | cons c r ih =>
    rw [throughLF] at h
    split at h
    · next hc =>
      cases h
      by_cases htype : type = .line
      · have hstep : step type (body line) c = (start, [line ++ [c]]) := by
          rw [step, stepBody, if_pos hc, if_pos htype]
        rw [run_cons_of_emit hstep, if_pos htype]
        rfl
      · have hstep : step type (body line) c = (ended (line ++ [c]) true, []) := by
          rw [step, stepBody, if_pos hc, if_neg htype]
        rw [run_cons_of_quiet hstep, if_neg htype]
    · next hc =>
      obtain ⟨p', hp', rfl⟩ := map_eq_some_iff.1 h
      have hstep : step type (body line) c = (body (line ++ [c]), []) := if_neg hc
      rw [run_cons_of_quiet hstep, ih hp', append_assoc]
      rfl

theorem run_ended_of_ws (hc : isWs c = true) (fresh : Bool) : run (step type) (ended line fresh) (c :: r) =
      run (step type) (folding (if fresh then trimLine line else line)) (c :: r) := by
  have hstep : ∀ l, step type (folding l) c = (folding l, []) := fun l => if_pos hc
  refine run_congr ?_
  rw [hstep]
  exact if_pos hc

theorem run_ended_of_not_ws (hc : isWs c = false) (fresh : Bool) : run (step type) (ended line fresh) (c :: r) =
      ((run (step type) start (c :: r)).1, line :: (run (step type) start (c :: r)).2) := by
  have hstep : step type (ended line fresh) c = ((stepStart c).1, line :: (stepStart c).2) := by
    rw [step, hc]
    rfl
  rw [run_cons_of_emit hstep, run]
  rfl

theorem run_folding (line r : Bytes) : run (step type) (folding line) r = match r.dropWhile isWs with
      | [] => (folding line, [])
      | c :: r' => run (step type) (body line) (c :: r') := by
  induction r with
  | nil => rfl
  | cons c r ih =>
    cases hc : isWs c with
    | true =>
      have hstep : step type (folding line) c = (folding line, []) := if_pos hc
      rw [run_cons_of_quiet hstep, ih, dropWhile_cons_of_pos hc]
    | false =>
      rw [dropWhile_cons_of_neg (by simp [hc])]
      exact run_congr (if_neg (by simp [hc]))

/-! ### The switch -/

def Rep (state : MIMEScannerState) (buffer : Bytes) : Pending → Prop
  | start => state = .start ∧ buffer = []
  | char2 => state = .char2 ∧ buffer = [charCR]
  | body line => state = .scanningForLF ∧ buffer = line
  | ended line fresh => state = .scanningForContinuation ∧ buffer = line ∧ fresh = false
  | folding line => state = .eatingWS ∧ buffer = line

/-- The switch leaves with a line, at the white space of a continuation line, or out of data. -/
inductive Switched (type : MIMEScannerType) (eof : Bool) (buffer : Bytes) (q : Pending)
    (raw : Bytes) (p : Scan) : Prop
  | line (hstate : p.state = .done)
      (hout : outcome type eof q raw =
        ((buffer ++ p.data) :: (outcome type eof start p.rest).1, (outcome type eof start p.rest).2))
      (hlt : p.rest.length < raw.length ∨ q ≠ start ∧ p.rest.length ≤ raw.length)
  | fold (hstate : p.state = .eatingWS) (hne : p.rest ≠ [])
      (hout : outcome type eof q raw =
        outcome type eof (folding (if p.data = [] then buffer else trimLine (buffer ++ p.data))) p.rest)
      (hlt : p.rest.length < raw.length ∨ (∃ l, q = ended l false) ∧ p.rest.length ≤ raw.length)
  | out (q' : Pending) (hstate : p.state ≠ .done) (hrest : p.rest = [])
      (htrim : p.state = .eatingWS → p.data = [])
      (hout : run (step type) q raw = (q', []))
      (heof : eof = true → ∀ l fresh, q' ≠ ended l fresh)
      (hrep : Rep p.state (buffer ++ p.data) q'.mark)

variable {q : Pending}

variable {raw raw' : Bytes}

theorem outcome_of_run {q' : Pending} (h : run (step type) q raw = run (step type) q' raw') :
    outcome type eof q raw = outcome type eof q' raw' := by
  rw [outcome, outcome, h]

theorem outcome_of_emit {q' : Pending}
    (h : run (step type) q raw = ((run (step type) q' raw').1, line :: (run (step type) q' raw').2)) :
    outcome type eof q raw = (line :: (outcome type eof q' raw').1, (outcome type eof q' raw').2) := by
  rw [outcome, outcome, h]
  cases eof <;> rfl

variable {buffer data : Bytes}

theorem switched_continuation {fresh : Bool}
    (hq : run (step type) q raw = run (step type) (ended (buffer ++ data) fresh) r)
    (hfresh : fresh = true ↔ data ≠ [])
    (hlt : r.length < raw.length ∨ (∃ l, q = ended l false) ∧ r.length ≤ raw.length) :
    Switched type eof buffer q raw (scanContinuation eof data r) := by
  have hlt' : r.length < raw.length ∨ q ≠ start ∧ r.length ≤ raw.length := by
    refine hlt.imp_right ?_
    rintro ⟨⟨l, rfl⟩, hle⟩
    exact ⟨nofun, hle⟩
  cases r with
  | nil =>
    cases eof with
    | true =>
      refine .line rfl ?_ hlt'
      rw [outcome, hq]
      rfl
    | false => exact .out _ nofun rfl nofun hq nofun ⟨rfl, rfl, rfl⟩
  | cons c r =>
    cases hc : isWs c with
    | true =>
      rw [run_ended_of_ws hc] at hq
      have hscan : scanContinuation eof data (c :: r) = ⟨.eatingWS, data, c :: r⟩ := by
        rw [scanContinuation, hc]
        rfl
      rw [hscan]
      refine .fold rfl (cons_ne_nil c r) ((outcome_of_run hq).trans ?_) hlt
      by_cases hdata : data = []
      · rw [if_pos hdata, if_neg fun h => hfresh.1 h hdata, hdata, append_nil]
      · rw [if_neg hdata, if_pos (hfresh.2 hdata)]
    | false =>
      rw [run_ended_of_not_ws hc] at hq
      have hscan : scanContinuation eof data (c :: r) = ⟨.done, data, c :: r⟩ := by
        rw [scanContinuation, hc]
        rfl
      rw [hscan]
      exact .line rfl (outcome_of_emit hq) hlt'

theorem throughLF_length (h : throughLF r = some p) : r = p.1 ++ p.2 ∧ p.1 ≠ [] := by
  induction r generalizing p with
  | nil => cases h
  | cons c r ih =>
    rw [throughLF] at h
    split at h
    · cases h
      exact ⟨rfl, cons_ne_nil _ _⟩
    · obtain ⟨p', hp', rfl⟩ := map_eq_some_iff.1 h
      exact ⟨by rw [(ih hp').1]; rfl, cons_ne_nil _ _⟩

theorem switched_LF (hq : run (step type) q raw = run (step type) (body (buffer ++ data)) r)
    (hle : r.length ≤ raw.length) : Switched type eof buffer q raw (scanLF type eof data r) := by
  rw [scanLF]
  cases hthrough : throughLF r with
  | none =>
    rw [run_body_of_none hthrough] at hq
    refine .out _ nofun rfl nofun hq nofun ⟨rfl, ?_⟩
    rw [append_assoc]
  | some p =>
    obtain ⟨hr, hne⟩ := throughLF_length hthrough
    have hlt : p.2.length < raw.length := by
      have := length_pos_of_ne_nil hne
      have := congrArg List.length hr
      rw [length_append] at this
      omega
    rw [run_body_of_some hthrough] at hq
    by_cases htype : type = .line
    · rw [if_pos htype, append_assoc] at hq
      simp only [if_pos htype]
      exact .line rfl (outcome_of_emit hq) (.inl hlt)
    · rw [if_neg htype, append_assoc] at hq
      simp only [if_neg htype]
      exact switched_continuation hq (by simp [hne]) (.inl hlt)

theorem switched_char2 (hbuffer : buffer ++ data = [charCR])
    (hq : run (step type) q raw = run (step type) char2 r) (hle : r.length ≤ raw.length) :
    Switched type eof buffer q raw (scanChar2 type eof data r) := by
  cases r with
  | nil => exact .out _ nofun rfl nofun hq nofun ⟨rfl, hbuffer⟩
  | cons c r =>
    rw [scanChar2]
    rw [length_cons] at hle
    by_cases hc : c = charLF
    · have hstep : step type char2 c = (start, [[charCR, c]]) := if_pos hc
      rw [run_cons_of_emit hstep] at hq
      rw [if_pos hc]
      refine .line rfl ((outcome_of_emit hq).trans ?_) (.inl hle)
      rw [← append_assoc, hbuffer]
      rfl
    · have hstep : step type char2 c = (body [charCR, c], []) := if_neg hc
      rw [run_cons_of_quiet hstep] at hq
      rw [if_neg hc]
      refine switched_LF (hq.trans ?_) (by omega)
      rw [← append_assoc, hbuffer]
      rfl

theorem switched_start : Switched type eof [] start raw (scanStart type eof raw) := by
  cases raw with
  | nil => exact .out _ nofun rfl nofun rfl nofun ⟨rfl, rfl⟩
  | cons c r =>
    rw [scanStart]
    by_cases hcr : c = charCR
    · have hstep : step type start c = (char2, []) := if_pos hcr
      rw [if_pos hcr]
      exact switched_char2 (by rw [hcr]; rfl) (run_cons_of_quiet hstep) (by simp)
    · rw [if_neg hcr]
      by_cases hlf : c = charLF
      · have hstep : step type start c = (start, [[c]]) := by rw [step, stepStart, if_neg hcr, if_pos hlf]
        rw [if_pos hlf]
        exact .line rfl (outcome_of_emit (run_cons_of_emit hstep)) (.inl (by simp))
      · have hstep : step type start c = (body [c], []) := by rw [step, stepStart, if_neg hcr, if_neg hlf]
        rw [if_neg hlf]
        exact switched_LF (run_cons_of_quiet hstep) (by simp)

theorem switched_WS : Switched type eof buffer (folding buffer) raw (scanWS type eof raw) := by
  have hrun : run (step type) (folding buffer) raw = _ := run_folding buffer raw
  have hle := (dropWhile_suffix (p := isWs) (l := raw)).length_le
  rw [scanWS]
  cases hdrop : raw.dropWhile isWs with
  | nil =>
    rw [hdrop] at hrun
    exact .out _ nofun rfl (fun _ => rfl) hrun nofun ⟨rfl, append_nil _⟩
  | cons c r =>
    rw [hdrop] at hrun hle
    exact switched_LF (by rw [append_nil]; exact hrun) hle

variable {state : MIMEScannerState}

theorem scan_spec (h : Rep state buffer q) :
    ∃ p, scan type eof raw state = some p ∧ Switched type eof buffer q raw p := by
  cases q with
  | start =>
    obtain ⟨rfl, rfl⟩ := h
    exact ⟨_, rfl, switched_start⟩
  | char2 =>
    obtain ⟨rfl, rfl⟩ := h
    exact ⟨_, rfl, switched_char2 rfl rfl le_rfl⟩
  | body line =>
    obtain ⟨rfl, rfl⟩ := h
    exact ⟨_, rfl, switched_LF (by rw [append_nil]) le_rfl⟩
  | ended line fresh =>
    obtain ⟨rfl, rfl, rfl⟩ := h
    exact ⟨_, rfl, switched_continuation (by rw [append_nil]) (by simp) (.inr ⟨⟨_, rfl⟩, le_rfl⟩)⟩
  | folding line =>
    obtain ⟨rfl, rfl⟩ := h
    exact ⟨_, rfl, switched_WS⟩

/-! ### `mime_scanner_get` -/

/-- The rounds that are enough. Only a line that waits for a continuation may lead to a round that
reads nothing. -/
def rounds (q : Pending) (raw : Bytes) : Nat :=
  match q with
  | ended _ _ => raw.length + 2
  | _ => raw.length + 1

variable {S : MIMEScanner} {fuel : Nat}

def chunkOutcome (type : MIMEScannerType) :
    Pending → List Bytes → Bytes → List Bytes × MIMEParseResult
  | q, [], last => ((outcome type true q last).1, (outcome type true q last).2.2)
  | q, c :: cs, last =>
    ((run (step type) q c).2 ++ (chunkOutcome type (run (step type) q c).1.mark cs last).1,
      (chunkOutcome type (run (step type) q c).1.mark cs last).2)

/-- The fields of the lines to the first that is blank, and whether there is one. -/
def fieldsOf : List Bytes → List (Bytes × Bytes) × Bool
  | [] => ([], false)
  | line :: ls =>
    if isBlankLine line then ([], true)
    else ((parseFieldLine line).toList.map storedField ++ (fieldsOf ls).1, (fieldsOf ls).2)

def parsed (o : List Bytes × MIMEParseResult) :
    List (Bytes × Bytes) × MIMEParseResult :=
  ((fieldsOf o.1).1, if (fieldsOf o.1).2 then .done else o.2)

end TrafficServer.MIMEScanner
