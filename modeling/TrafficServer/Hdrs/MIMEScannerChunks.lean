import Mathlib.Data.List.DropRight
import TrafficServer.Hdrs.MIMEScannerLines

/-!
# Cuts of the input

A cut matters only directly behind a line that is continued. The scan of the whole input (`Unsplit`)
and that of the chunks go together to the first such cut. From there on the line that is built up in
the chunks has an LF inside it (`Tainted`), so it is another line when it comes out; if it never does,
there is a difference only if the scan of the whole input has nothing left at the end, which is so for
a line of CRs that are all taken for parts of line ends (`Hollow`).
-/

namespace TrafficServer.MIMEScanner

open List ParseRules Transducer Pending

def lastLine (a : Bytes) : Bytes := a.rtakeWhile (· != charLF)

/-- The input ends with the LF of a line that is not blank. -/
def AfterLine (a : Bytes) : Prop :=
  a.getLast? = some charLF ∧ lastLine a.dropLast ≠ [] ∧ lastLine a.dropLast ≠ [charCR]
deriving Decidable

/-- Each LF is followed by SP or HT, so that the logical line does not end. -/
def Unfinished : Bytes → Prop
  | [] => True
  | c :: r => (c = charLF → r.head?.any isWs = true) ∧ Unfinished r

/-- CRs, LFs with SP or HT behind each, and white space behind those only. From no byte on are there
more CRs than LFs, so that every CR is cut off as the CR of some line end. -/
def Drains : Bytes → Prop
  | [] => True
  | c :: r => Drains r ∧ (c :: r).count charCR ≤ (c :: r).count charLF ∧
    if c = charLF then r.head?.any isWs = true
    else if c = charCR then r.head?.any isWs = false
    else isWs c = true

/-- The last logical line begins with CR CR, and folding leaves nothing of it. -/
def Hollow (text : Bytes) : Prop :=
  ∃ pre line, text = pre ++ charCR :: charCR :: line ∧ lastLine pre = [] ∧
    Drains (charCR :: charCR :: line)

variable {q u v : Pending} {c : UInt8} {a b pre raw L M : Bytes}

theorem lastLine_LF (a : Bytes) : lastLine (a ++ [charLF]) = [] := by simp [lastLine]

theorem lastLine_snoc (a : Bytes) (hc : c ≠ charLF) : lastLine (a ++ [c]) = lastLine a ++ [c] := by
  rw [lastLine, rtakeWhile_concat_pos _ _ _ (by simpa using hc)]
  rfl

theorem lastLine_snoc_ne (hc : c ≠ charLF) (h : lastLine a = [] → c ≠ charCR) :
    lastLine (a ++ [c]) ≠ [] ∧ lastLine (a ++ [c]) ≠ [charCR] := by
  rw [lastLine_snoc a hc]
  refine ⟨by simp, fun heq => ?_⟩
  cases hl : lastLine a with
  | nil =>
    rw [hl] at heq
    exact h hl (by simpa using heq)
  | cons x l => simp [hl] at heq

theorem afterLine_LF (a : Bytes) : AfterLine (a ++ [charLF]) ↔ lastLine a ≠ [] ∧ lastLine a ≠ [charCR] := by
  simp [AfterLine]

theorem AfterLine.lastLine_eq (h : AfterLine a) : lastLine a = [] := by
  obtain ⟨b, rfl⟩ := getLast?_eq_some_iff.1 h.1
  exact lastLine_LF b

/-- Where the scan of the whole input is behind `pre`, and that a line has no LF but at its end. -/
def Unsplit (pre : Bytes) : Pending → Prop
  | start => lastLine pre = [] ∧ ¬AfterLine pre
  | char2 => lastLine pre = [charCR]
  | body line | folding line => lastLine pre ≠ [] ∧ lastLine pre ≠ [charCR] ∧ charLF ∉ line
  | ended line fresh => AfterLine pre ∧ fresh = true ∧ ∃ l, line = l ++ [charLF] ∧ charLF ∉ l

theorem trimLine_LF (l : Bytes) :
    trimLine (l ++ [charLF]) = if l.getLast? = some charCR then l.dropLast else l := by
  simp [trimLine]

theorem not_mem_trimLine (hL : charLF ∉ L) : charLF ∉ trimLine (L ++ [charLF]) := by
  rw [trimLine_LF]
  split
  · exact fun hmem => hL (dropLast_subset L hmem)
  · exact hL

theorem mem_trimLine (hc : c ∈ L) (hne : c ≠ charCR) : c ∈ trimLine (L ++ [charLF]) := by
  rw [trimLine_LF]
  split
  · next hlast =>
    obtain ⟨l, rfl⟩ := getLast?_eq_some_iff.1 hlast
    simpa [hne] using hc
  · exact hc

theorem Unsplit.atStart (hpre : lastLine pre = []) (c : UInt8) :
    Unsplit (pre ++ [c]) (stepStart c).1 := by
  rw [stepStart]
  split
  · next hc =>
    subst hc
    change lastLine (pre ++ [charCR]) = _
    rw [lastLine_snoc pre (by decide), hpre]
    rfl
  · next hcr =>
    split
    · next hc =>
      subst hc
      refine ⟨lastLine_LF pre, fun h => ?_⟩
      exact ((afterLine_LF pre).1 h).1 hpre
    · next hlf =>
      obtain ⟨hne, hne'⟩ := lastLine_snoc_ne hlf fun _ => hcr
      exact ⟨hne, hne', by simpa using Ne.symm hlf⟩

theorem Unsplit.inBody (hpre : lastLine pre ≠ []) (hcr : lastLine pre ≠ [charCR])
    (hL : charLF ∉ L) (c : UInt8) : Unsplit (pre ++ [c]) (stepBody .field L c).1 := by
  rw [stepBody]
  split
  · next hc =>
    subst hc
    exact ⟨(afterLine_LF pre).2 ⟨hpre, hcr⟩, rfl, L, rfl, hL⟩
  · next hlf =>
    obtain ⟨hne, hne'⟩ := lastLine_snoc_ne hlf fun h => absurd h hpre
    exact ⟨hne, hne', by simpa [hL] using Ne.symm hlf⟩

theorem ne_LF_of_isWs (hc : isWs c = true) : c ≠ charLF := by
  rintro rfl
  exact absurd hc (by decide)

theorem ne_CR_of_isWs (hc : isWs c = true) : c ≠ charCR := by
  rintro rfl
  exact absurd hc (by decide)

theorem Unsplit.next (h : Unsplit pre q) (c : UInt8) : Unsplit (pre ++ [c]) (step .field q c).1 := by
  cases q with
  | start => exact .atStart h.1 c
  | char2 =>
    have hpre : lastLine pre = [charCR] := h
    by_cases hc : c = charLF
    · subst hc
      refine ⟨lastLine_LF pre, fun hafter => ?_⟩
      exact ((afterLine_LF pre).1 hafter).2 hpre
    · rw [step, if_neg hc]
      obtain ⟨hne, hne'⟩ := lastLine_snoc_ne hc fun h => absurd (hpre.symm.trans h) (by simp)
      exact ⟨hne, hne', by simpa using ⟨by decide, Ne.symm hc⟩⟩
  | body line => exact .inBody h.1 h.2.1 h.2.2 c
  | ended line fresh =>
    obtain ⟨hafter, rfl, l, rfl, hl⟩ := h
    cases hc : isWs c with
    | true =>
      rw [step, if_pos hc, if_pos rfl]
      obtain ⟨hne, hne'⟩ := lastLine_snoc_ne (a := pre) (ne_LF_of_isWs hc) fun _ => ne_CR_of_isWs hc
      exact ⟨hne, hne', not_mem_trimLine hl⟩
    | false =>
      rw [step, if_neg (by simp [hc])]
      exact .atStart hafter.lastLine_eq c
  | folding line =>
    cases hc : isWs c with
    | true =>
      rw [step, if_pos hc]
      obtain ⟨hne, hne'⟩ := lastLine_snoc_ne (a := pre) (ne_LF_of_isWs hc) fun _ => ne_CR_of_isWs hc
      exact ⟨hne, hne', h.2.2⟩
    | false =>
      rw [step, if_neg (by simp [hc])]
      exact .inBody h.1 h.2.1 h.2.2 c

theorem Unsplit.along (h : Unsplit pre q) (raw : Bytes) :
    Unsplit (pre ++ raw) (run (step .field) q raw).1 := by
  induction raw generalizing pre q with
  | nil => simpa using h
  | cons c raw ih =>
    rw [run, append_cons]
    exact ih (h.next c)

/-- The line of the chunks has an LF that the line of the whole input has not. -/
inductive Tainted : Pending → Pending → Prop
  | body {L M : Bytes} (hL : charLF ∉ L) (hM : charLF ∈ M) : Tainted (body L) (body M)
  | folding {L M : Bytes} (hL : charLF ∉ L) (hM : charLF ∈ M) :
    Tainted (folding L) (folding M)
  | ended {L M : Bytes} (fresh : Bool) (hL : charLF ∉ L) (hM : charLF ∈ M) :
    Tainted (ended (L ++ [charLF]) true) (ended (M ++ [charLF]) fresh)

theorem Tainted.mark (h : Tainted u v) : Tainted u v.mark := by
  cases h with
  | body hL hM => exact .body hL hM
  | folding hL hM => exact .folding hL hM
  | ended fresh hL hM => exact .ended false hL hM

def Differ (o o' : List Bytes) : Prop :=
  ∃ l ls l' ls', o = l :: ls ∧ o' = l' :: ls' ∧ l ≠ l'

variable {o o' : List Bytes}

theorem Differ.append (h : Differ o o') (p p' : List Bytes) : Differ (o ++ p) (o' ++ p') := by
  obtain ⟨l, ls, l', ls', rfl, rfl, hne⟩ := h
  exact ⟨l, ls ++ p, l', ls' ++ p', rfl, rfl, hne⟩

theorem Tainted.inBody (hL : charLF ∉ L) (hM : charLF ∈ M) (c : UInt8) :
    Tainted (stepBody .field L c).1 (stepBody .field M c).1 ∧
      (stepBody .field L c).2 = [] ∧ (stepBody .field M c).2 = [] := by
  rw [stepBody, stepBody]
  by_cases hc : c = charLF
  · subst hc
    exact ⟨.ended true hL hM, rfl, rfl⟩
  · rw [if_neg hc, if_neg hc]
    exact ⟨.body (by simpa [hL] using Ne.symm hc) (by simp [hM]), rfl, rfl⟩

theorem Tainted.next (h : Tainted u v) (c : UInt8) :
    (Tainted (step .field u c).1 (step .field v c).1 ∧ (step .field u c).2 = [] ∧
      (step .field v c).2 = []) ∨ Differ (step .field u c).2 (step .field v c).2 := by
  cases h with
  | body hL hM => exact .inl (Tainted.inBody hL hM c)
  | folding hL hM =>
    cases hc : isWs c with
    | true =>
      rw [step, step, if_pos hc, if_pos hc]
      exact .inl ⟨.folding hL hM, rfl, rfl⟩
    | false =>
      rw [step, step, if_neg (by simp [hc]), if_neg (by simp [hc])]
      exact .inl (Tainted.inBody hL hM c)
  | @ended L M fresh hL hM =>
    cases hc : isWs c with
    | true =>
      rw [step, step, if_pos hc, if_pos hc, if_pos rfl]
      refine .inl ⟨.folding (not_mem_trimLine hL) ?_, rfl, rfl⟩
      cases fresh with
      | true => exact mem_trimLine hM (by decide)
      | false => exact mem_append_left _ hM
    | false =>
      rw [step, step, if_neg (by simp [hc]), if_neg (by simp [hc])]
      refine .inr ⟨_, _, _, _, rfl, rfl, fun heq => hL ?_⟩
      rw [append_cancel_right heq]
      exact hM

theorem Tainted.along (h : Tainted u v) (raw : Bytes) :
    (Tainted (run (step .field) u raw).1 (run (step .field) v raw).1 ∧
      (run (step .field) u raw).2 = [] ∧ (run (step .field) v raw).2 = []) ∨
      Differ (run (step .field) u raw).2 (run (step .field) v raw).2 := by
  induction raw generalizing u v with
  | nil => exact .inl ⟨h, rfl, rfl⟩
  | cons c raw ih =>
    rcases h.next c with ⟨hstep, hu, hv⟩ | hdiff
    · simp only [run, hu, hv, nil_append]
      exact ih hstep
    · exact .inr (hdiff.append _ _)

theorem chunkOutcome_nil_append (type : MIMEScannerType) (q : Pending) (a b : Bytes) :
    chunkOutcome type q [] (a ++ b) = ((run (step type) q a).2 ++ (chunkOutcome type (run (step type) q a).1 [] b).1,
        (chunkOutcome type (run (step type) q a).1 [] b).2) := by
  simp only [chunkOutcome, outcome, run_append, if_true, append_assoc]

theorem Tainted.atEnd (h : Tainted u v) :
    ((finish u).1 = [] ∧ finish v = ([], .error)) ∨ Differ (finish u).1 (finish v).1 := by
  cases h with
  | body hL hM | folding hL hM => exact .inl ⟨rfl, by rw [finish, if_neg (ne_nil_of_mem hM)]⟩
  | ended fresh hL hM =>
    refine .inr ⟨_, _, _, _, rfl, rfl, fun heq => hL ?_⟩
    rw [append_cancel_right heq]
    exact hM

theorem Tainted.chunks (h : Tainted u v) (cs : List Bytes) (last : Bytes) :
    ((chunkOutcome .field u [] (cs.flatten ++ last)).1 = [] ∧ chunkOutcome .field v cs last = ([], .error)) ∨
      Differ (chunkOutcome .field u [] (cs.flatten ++ last)).1 (chunkOutcome .field v cs last).1 := by
  induction cs generalizing u v with
  | nil =>
    simp only [chunkOutcome, outcome, if_true, flatten_nil, nil_append]
    rcases h.along last with ⟨hrun, hu, hv⟩ | hdiff
    · rw [hu, hv]
      simpa [Prod.ext_iff] using hrun.atEnd
    · exact .inr (hdiff.append _ _)
  | cons c cs ih =>
    rw [flatten_cons, append_assoc, chunkOutcome_nil_append]
    rw [chunkOutcome.eq_def _ v]
    dsimp only
    rcases h.along c with ⟨hrun, hu, hv⟩ | hdiff
    · rw [hu, hv]
      simpa using ih hrun.mark
    · exact .inr (hdiff.append _ _)

theorem chunkOutcome_cons (q : Pending) (c : UInt8) (raw : Bytes) : chunkOutcome .field q [] (c :: raw) =
      ((step .field q c).2 ++ (chunkOutcome .field (step .field q c).1 [] raw).1,
        (chunkOutcome .field (step .field q c).1 [] raw).2) := by
  simp only [chunkOutcome, outcome, run, if_true, append_assoc]

theorem chunkOutcome_eq_nil_iff (raw : Bytes) :
    (∀ L, (chunkOutcome .field (body L) [] raw).1 = [] ↔ Unfinished raw) ∧
    (∀ L, (chunkOutcome .field (folding L) [] raw).1 = [] ↔ Unfinished raw) ∧
    ∀ L fresh, (chunkOutcome .field (ended L fresh) [] raw).1 = [] ↔ raw.head?.any isWs = true ∧ Unfinished raw := by
  induction raw with
  | nil => exact ⟨fun L => by simp [chunkOutcome, outcome, finish, Unfinished],
      fun L => by simp [chunkOutcome, outcome, finish, Unfinished],
      fun L fresh => by simp [chunkOutcome, outcome, finish]⟩
  | cons c raw ih =>
    obtain ⟨hbody, hfolding, hended⟩ := ih
    have hstep : ∀ L, ((stepBody .field L c).2 ++
        (chunkOutcome .field (stepBody .field L c).1 [] raw).1 = []) ↔ Unfinished (c :: raw) := by
      intro L
      rw [stepBody, Unfinished]
      by_cases hc : c = charLF
      · simp [hc, hended]
      · simp [hc, hbody]
    refine ⟨fun L => ?_, fun L => ?_, fun L fresh => ?_⟩
    · rw [chunkOutcome_cons]
      exact hstep L
    · rw [chunkOutcome_cons, step]
      cases hc : isWs c with
      | true => simp [hfolding, Unfinished, ne_LF_of_isWs hc]
      | false => exact hstep L
    · rw [chunkOutcome_cons, step]
      cases hc : isWs c with
      | true => simp [hfolding, Unfinished, ne_LF_of_isWs hc, hc]
      | false => simp [hc]

/-! ### Cuts that do not matter -/

variable {cs : List Bytes} {last : Bytes}

theorem Differ.ne (h : Differ o o') : o ≠ o' := by
  obtain ⟨l, ls, l', ls', rfl, rfl, hne⟩ := h
  exact fun heq => hne (List.cons.inj heq).1

theorem Differ.ne_nil (h : Differ o o') : o ≠ [] := by
  obtain ⟨l, ls, l', ls', rfl, -, -⟩ := h
  exact cons_ne_nil l ls

theorem chunkOutcome_ended (L : Bytes) (h : raw.head?.any isWs = true) :
    chunkOutcome .field (ended L true) [] raw = chunkOutcome .field (folding (trimLine L)) [] raw := by
  cases raw with
  | nil => cases h
  | cons c raw =>
    rw [chunkOutcome, chunkOutcome, outcome_of_run (run_ended_of_ws (by simpa using h) true), if_pos rfl]

section Line
variable (hq : ∀ L fresh, q ≠ ended L fresh)
include hq

end Line

/-! ### Lines of which nothing is left -/

theorem Drains.count_le (h : Drains raw) : raw.count charCR ≤ raw.count charLF := by
  cases raw with
  | nil => exact le_rfl
  | cons c raw => exact h.2.1

theorem trimLine_replicate (n : Nat) : trimLine (replicate n charCR ++ [charLF]) = replicate (n - 1) charCR := by
  rw [trimLine_LF]
  cases n with
  | zero => rfl
  | succ n => simp [replicate_succ', getLast?_append]

theorem trimLine_drained {n m : Nat} (hle : n ≤ m) :
    ((∀ x ∈ trimLine (L ++ [charLF]), x = charCR) ∧ (trimLine (L ++ [charLF])).length + n ≤ m) ↔
      (∀ x ∈ L, x = charCR) ∧ L.length + n ≤ m + 1 := by
  by_cases hL : ∀ x ∈ L, x = charCR
  · obtain ⟨k, rfl⟩ : ∃ k, L = replicate k charCR := ⟨_, eq_replicate_iff.2 ⟨rfl, hL⟩⟩
    simp [trimLine_replicate]
    omega
  · push Not at hL
    obtain ⟨x, hx, hne⟩ := hL
    exact ⟨fun h => absurd (h.1 x (mem_trimLine hx hne)) hne, fun h => absurd (h.1 x hx) hne⟩

theorem chunkOutcome_ended_iff (L : Bytes) : chunkOutcome .field (ended L true) [] raw = ([], .done) ↔
      raw.head?.any isWs = true ∧ chunkOutcome .field (folding (trimLine L)) [] raw = ([], .done) := by
  cases hws : raw.head?.any isWs with
  | true => rw [chunkOutcome_ended L hws, and_iff_right rfl]
  | false =>
    refine ⟨fun h => ?_, fun h => absurd h.1 (by simp)⟩
    have hnil := ((chunkOutcome_eq_nil_iff raw).2.2 L true).1 (by rw [h])
    exact absurd hnil.1 (by simp [hws])

/-- **Nothing is left of a line exactly if the bytes drain it**, with the CRs that it has already. -/
theorem chunkOutcome_done_iff (raw : Bytes) :
    (∀ L, chunkOutcome .field (body L) [] raw = ([], .done) ↔ raw.head?.any isWs = false ∧ Drains raw ∧
      (∀ x ∈ L, x = charCR) ∧ L.length + raw.count charCR ≤ raw.count charLF) ∧
    ∀ L, chunkOutcome .field (folding L) [] raw = ([], .done) ↔ Drains raw ∧
      (∀ x ∈ L, x = charCR) ∧ L.length + raw.count charCR ≤ raw.count charLF := by
  induction raw with
  | nil => simp [chunkOutcome, outcome, finish, Drains]
  | cons c raw ih =>
    obtain ⟨hbody, hfolding⟩ := ih
    have hstep : ∀ L, isWs c = false → (((stepBody .field L c).2 ++
        (chunkOutcome .field (stepBody .field L c).1 [] raw).1,
        (chunkOutcome .field (stepBody .field L c).1 [] raw).2) = ([], .done) ↔ Drains (c :: raw) ∧
          (∀ x ∈ L, x = charCR) ∧ L.length + (c :: raw).count charCR ≤ (c :: raw).count charLF) := by
      intro L hws
      rw [stepBody, Drains]
      by_cases hlf : c = charLF
      · subst hlf
        simp only [if_true, reduceCtorEq, if_false, nil_append, Prod.mk.eta, chunkOutcome_ended_iff, hfolding]
        rw [count_cons_self, count_cons_of_ne (by decide)]
        constructor
        · rintro ⟨hhead, hdrains, hL⟩
          have hle := hdrains.count_le
          exact ⟨⟨hdrains, by omega, hhead⟩, (trimLine_drained hle).1 hL⟩
        · rintro ⟨⟨hdrains, -, hhead⟩, hL⟩
          exact ⟨hhead, hdrains, (trimLine_drained hdrains.count_le).2 hL⟩
      · simp only [hlf, if_false, nil_append, Prod.mk.eta, hbody, hws]
        by_cases hcr : c = charCR
        · subst hcr
          simp only [count_cons, mem_append, mem_singleton, length_append, length_singleton]
          grind
        · simp [hcr]
    refine ⟨fun L => ?_, fun L => ?_⟩
    · rw [chunkOutcome_cons]
      cases hws : isWs c with
      | true =>
        rw [step, stepBody, if_neg (ne_LF_of_isWs hws)]
        simp [hbody, hws, ne_CR_of_isWs hws]
      | false =>
        rw [step, hstep L hws]
        simp [hws]
    · rw [chunkOutcome_cons, step]
      cases hws : isWs c with
      | true =>
        have hlf := ne_LF_of_isWs hws
        have hcr := ne_CR_of_isWs hws
        rw [Drains, count_cons_of_ne hlf, count_cons_of_ne hcr, if_neg hlf, if_neg hcr]
        simp only [hws, if_true, nil_append, Prod.mk.eta, hfolding]
        exact ⟨fun h => ⟨⟨h.1, h.1.count_le, trivial⟩, h.2⟩, fun h => ⟨h.1.1, h.2⟩⟩
      | false => exact hstep L hws

theorem drains_CR_CR : Drains (charCR :: charCR :: raw) ↔
    raw.head?.any isWs = false ∧ Drains raw ∧ 2 + raw.count charCR ≤ raw.count charLF := by
  have hne : charCR ≠ charLF := by decide
  have hws : isWs charCR = false := by decide
  simp only [Drains, count_cons_self, count_cons_of_ne hne, hne, if_false, if_true, head?_cons, Option.any_some, hws]
  grind

theorem chunkOutcome_start_done_iff (raw : Bytes) : chunkOutcome .field start [] raw = ([], .done) ↔
      raw = [] ∨ ∃ line, raw = charCR :: charCR :: line ∧ Drains raw := by
  have hne : charLF ≠ charCR := by decide
  cases raw with
  | nil => simp [chunkOutcome, outcome, finish]
  | cons c raw =>
    rw [chunkOutcome_cons, step, stepStart]
    by_cases hcr : c = charCR
    · subst hcr
      cases raw with
      | nil => simp [chunkOutcome, outcome, finish]
      | cons d raw =>
        rw [if_pos rfl]
        simp only [nil_append, Prod.mk.eta]
        rw [chunkOutcome_cons, step]
        by_cases hlf : d = charLF
        · simp [hlf, hne]
        · simp only [hlf, if_false, nil_append, Prod.mk.eta, (chunkOutcome_done_iff raw).1]
          constructor
          · rintro ⟨hhead, hdrains, hall, hle⟩
            obtain rfl : d = charCR := hall d (by simp)
            exact .inr ⟨raw, rfl, drains_CR_CR.2 ⟨hhead, hdrains, hle⟩⟩
          · rintro (h | ⟨line, h, hdrains⟩)
            · cases h
            · cases h
              obtain ⟨hhead, hraw, hle⟩ := drains_CR_CR.1 hdrains
              exact ⟨hhead, hraw, by simp, hle⟩
    · by_cases hlf : c = charLF
      · simp [hlf, hne]
      · simp [hcr, hlf, (chunkOutcome_done_iff raw).1]

theorem unsplit_nil : Unsplit [] start := ⟨rfl, by decide⟩

theorem Hollow.done (h : Hollow raw) : (chunkOutcome .field start [] raw).2 = .done := by
  obtain ⟨pre, line, rfl, hlast, hdrains⟩ := h
  have hdone := (chunkOutcome_start_done_iff _).2 (.inr ⟨line, rfl, hdrains⟩)
  have hq := unsplit_nil.along pre
  rw [chunkOutcome_nil_append]
  generalize (run (step .field) start pre).1 = q at hq
  cases q with
  | start | ended L fresh => exact congrArg Prod.snd hdone
  | char2 => exact absurd (hlast.symm.trans hq) (by simp)
  | body L | folding L => exact absurd hlast hq.1

end TrafficServer.MIMEScanner
