import TrafficServer.Hdrs.URL
import TrafficServer.Lib.Transducer
import Mathlib.Data.List.TakeWhile

/-!
# What the unescaping writes

Byte by byte the unescaping is a transducer (`written`). With a full buffer it stops, and the only
state in which a byte that has been read can still be pending is the one behind a broken escape. The
copying at the start of the next call then passes that byte, unless `%` follows. So the stream is that
of the transducer exactly if no such byte is the first one of a buffer (`Cut`, `feed_spec`).
-/

namespace TrafficServer.URL

open List ParseRules

/-! ### The transducer -/

/-- The part of an escape that has been read. -/
inductive Escape where
  | idle | percent | digit (a : UInt8)

def escapeStart (host : Bool) (c : UInt8) : Escape × List (UInt8 × Bool) :=
  if c = 37 then (.percent, []) else (.idle, [(fold host c, false)])

/-- The mark is on the digits that the copying can pass. -/
def escapeStep (host : Bool) (e : Escape) (c : UInt8) : Escape × List (UInt8 × Bool) :=
  match e with
  | .idle => escapeStart host c
  | .percent =>
    if isHex c then (.digit c, [])
    else ((escapeStart host c).1, (fold host 37, false) :: (escapeStart host c).2)
  | .digit a =>
    if isHex c then (.idle, [(hexByte a c, false)])
    else ((escapeStart host c).1,
      (fold host 37, false) :: (fold host a, !host && c ≠ 37) :: (escapeStart host c).2)

/-- What is written for the bytes of a string that are left. -/
def written (host : Bool) (e : Escape) (s : Bytes) : List (UInt8 × Bool) :=
  (Transducer.run (escapeStep host) e s).2

section Written
variable {host : Bool} {e : Escape} {c : UInt8} {r s : Bytes}

@[simp] theorem written_nil : written host e [] = [] := rfl

theorem written_cons :
    written host e (c :: r) = (escapeStep host e c).2 ++ written host (escapeStep host e c).1 r := rfl

theorem written_idle_of_ne (h : c ≠ 37) :
    written host .idle (c :: r) = (fold host c, false) :: written host .idle r := by
  simp [written_cons, escapeStep, escapeStart, h]

theorem written_idle_percent : written host .idle (37 :: r) = written host .percent r := by
  simp [written_cons, escapeStep, escapeStart]

theorem written_percent_hex (h : isHex c) : written host .percent (c :: r) = written host (.digit c) r := by
  simp [written_cons, escapeStep, h]

theorem written_percent_of_not_hex (h : isHex c = false) :
    written host .percent (c :: r) = (fold host 37, false) :: written host .idle (c :: r) := by
  simp [written_cons, escapeStep, h]

theorem written_digit_hex {a : UInt8} (h : isHex c) :
    written host (.digit a) (c :: r) = (hexByte a c, false) :: written host .idle r := by
  simp [written_cons, escapeStep, h]

theorem written_digit_of_not_hex {a : UInt8} (h : isHex c = false) : written host (.digit a) (c :: r) =
      (fold host 37, false) :: (fold host a, !host && c ≠ 37) :: written host .idle (c :: r) := by
  simp [written_cons, escapeStep, h]

theorem written_idle_append (h : ∀ c ∈ s, c ≠ 37) :
    written host .idle (s ++ r) = s.map (fun c => (fold host c, false)) ++ written host .idle r := by
  induction s with
  | nil => rfl
  | cons c s ih =>
    rw [cons_append, written_idle_of_ne (h c (by simp)), ih fun x hx => h x (by simp [hx])]
    rfl

theorem written_idle_head : ∀ p ∈ (written host .idle s).head?, p.2 = false := by
  -- the first byte is written at the third one that is read, if not before
  rcases s with _ | ⟨c, _ | ⟨a, _ | ⟨b, r⟩⟩⟩ <;> grind [written_cons, written_nil, escapeStep, escapeStart]

end Written

/-! ### The steps of the loop -/

def remaining (host : Bool) (u : Unescape) : List (UInt8 × Bool) :=
  match u.state with
  | .plain => written host .idle u.ahead
  | .percent => written host .percent u.ahead
  | .digit => written host (.digit (u.behind.getD 0 0)) u.ahead
  | .rest => (fold host (u.behind.getD 0 0), !host && u.ahead.head? ≠ some 37) ::
      written host .idle u.ahead

def Wf (u : Unescape) : Prop :=
  match u.state with
  | .plain | .rest => True
  | .percent => u.behind.getD 0 0 = 37
  | .digit => u.behind.getD 1 0 = 37 ∧ isHex (u.behind.getD 0 0)

/-- The pending byte is a digit, and none follows it. -/
def Pending (u : Unescape) : Prop :=
  u.state = .rest → isHex (u.behind.getD 0 0) ∧ ∃ b r, u.ahead = b :: r ∧ isHex b = false

def Writes (host : Bool) (u u' : Unescape) : Prop :=
  ∃ w, remaining host u = w ++ remaining host u' ∧ u'.buf = u.buf ++ w.map (·.1)

/-- What the calls do in any state, also when bytes have been passed. -/
structure Grows (host : Bool) (u u' : Unescape) : Prop where
  wf : Wf u'
  grows : u.buf <+: u'.buf
  length : u'.buf.length + (remaining host u').length = u.buf.length + (remaining host u).length

section Steps
variable {host : Bool} {u u' u'' : Unescape} {c : UInt8} {r : Bytes}

theorem Writes.refl (u : Unescape) : Writes host u u := ⟨[], rfl, by simp⟩

theorem Writes.trans (h : Writes host u u') (h' : Writes host u' u'') : Writes host u u'' := by
  obtain ⟨w, hw, hb⟩ := h
  obtain ⟨w', hw', hb'⟩ := h'
  refine ⟨w ++ w', ?_, ?_⟩
  · rw [hw, hw', append_assoc]
  · rw [hb', hb, append_assoc, map_append]

theorem Writes.grows (h : Writes host u u') (hw : Wf u') : Grows host u u' := by
  obtain ⟨w, hrem, hb⟩ := h
  refine ⟨hw, ⟨_, hb.symm⟩, ?_⟩
  rw [hb, hrem]
  simp
  omega

/-- A pass of the loop: it writes what it has to, stays pending only behind a digit that none follows,
and is in the middle of an escape only if it has written nothing. -/
structure Passed (host : Bool) (u u' : Unescape) : Prop where
  writes : Writes host u u'
  wf : Wf u'
  pending : Pending u'
  settled : u'.buf = u.buf ∨ u'.buf.length = u.buf.length + 1 ∧ (u'.state = .plain ∨ u'.state = .rest)
  less : u'.ahead.length + u.buf.length < u.ahead.length + u'.buf.length

theorem unescapeStep_spec (hw : Wf u) (ha : u.ahead = c :: r) : Passed host u (unescapeStep host c u) := by
  obtain ⟨buf, behind, ahead, state⟩ := u
  subst ha
  cases state with
  | plain =>
    by_cases hc : c = 37
    · rw [unescapeStep]
      simp only [hc, if_true, tail_cons]
      refine ⟨⟨[], ?_, by simp⟩, rfl, by simp [Pending], .inl rfl, by simp⟩
      exact written_idle_percent
    · rw [unescapeStep]
      simp only [hc, if_false, tail_cons]
      refine ⟨⟨[(fold host c, false)], ?_, by simp⟩, trivial, by simp [Pending], .inr (by simp), by simp; omega⟩
      exact written_idle_of_ne hc
  | percent =>
    have hw : behind.getD 0 0 = 37 := hw
    cases hc : isHex c with
    | true =>
      rw [unescapeStep]
      simp only [hc, if_true, tail_cons]
      refine ⟨⟨[], ?_, by simp⟩, ⟨?_, ?_⟩, by simp [Pending], .inl rfl, by simp⟩
      · exact written_percent_hex hc
      · simpa using hw
      · simpa using hc
    | false =>
      rw [unescapeStep]
      simp only [hc, Bool.false_eq_true, if_false, hw]
      refine ⟨⟨[(fold host 37, false)], ?_, by simp⟩, trivial, by simp [Pending], .inr (by simp), by simp⟩
      exact written_percent_of_not_hex hc
  | digit =>
    obtain ⟨hw1, hw2⟩ : behind.getD 1 0 = 37 ∧ isHex (behind.getD 0 0) = true := hw
    cases hc : isHex c with
    | true =>
      rw [unescapeStep]
      simp only [hc, if_true, tail_cons]
      refine ⟨⟨[(hexByte (behind.getD 0 0) c, false)], ?_, by simp⟩, trivial, by simp [Pending],
        .inr (by simp), by simp; omega⟩
      exact written_digit_hex hc
    | false =>
      rw [unescapeStep]
      simp only [hc, Bool.false_eq_true, if_false, hw1]
      refine ⟨⟨[(fold host 37, false)], ?_, by simp⟩, trivial, fun _ => ⟨hw2, c, r, rfl, hc⟩, .inr (by simp), by simp⟩
      change written host (.digit (behind.getD 0 0)) (c :: r) = _
      rw [written_digit_of_not_hex hc]
      simp [remaining]
  | rest =>
    rw [unescapeStep]
    exact ⟨⟨[(fold host (behind.getD 0 0), !host && (c :: r).head? ≠ some 37)], rfl, by simp⟩, trivial,
      by simp [Pending], .inr (by simp), by simp⟩

/-- The loop ends with the string or with a full buffer. -/
structure Looped (host : Bool) (u u' : Unescape) : Prop where
  writes : Writes host u u'
  wf : Wf u'
  pending : Pending u → Pending u'
  le : u'.buf.length ≤ bufSize
  ends : u'.ahead = [] ∨ u'.buf.length = bufSize ∧ (u'.state = .plain ∨ u'.state = .rest)

theorem unescapeLoop_spec {fuel : Nat} (hw : Wf u) (hle : u.buf.length ≤ bufSize)
    (hstate : u.buf.length < bufSize ∨ u.state = .plain ∨ u.state = .rest)
    (hfuel : u.ahead.length + (bufSize - u.buf.length) ≤ fuel) : Looped host u (unescapeLoop host fuel u) := by
  induction fuel generalizing u with
  | zero =>
    have hnil : u.ahead = [] := length_eq_zero_iff.mp (by omega)
    exact ⟨.refl u, hw, id, hle, .inl hnil⟩
  | succ fuel ih =>
    rw [unescapeLoop]
    split
    · next hnil => exact ⟨.refl u, hw, id, hle, .inl hnil⟩
    next c r ha =>
    split
    · next hfull => exact ⟨.refl u, hw, id, hle, .inr ⟨hfull, hstate.resolve_left (by omega)⟩⟩
    next hroom =>
    obtain ⟨hwrites, hw', hp', hsettled, hless⟩ : Passed host u (unescapeStep host c u) := unescapeStep_spec hw ha
    have hle' : (unescapeStep host c u).buf.length ≤ bufSize := by
      rcases hsettled with h | ⟨h, -⟩
      · rw [h]
        exact hle
      · omega
    have hstate' : (unescapeStep host c u).buf.length < bufSize ∨
        (unescapeStep host c u).state = .plain ∨ (unescapeStep host c u).state = .rest := by
      rcases hsettled with h | ⟨-, h⟩
      · rw [h]
        exact .inl (by omega)
      · exact .inr h
    obtain ⟨hwrites', hw'', hp'', hle'', hends⟩ := ih hw' hle' hstate' (by omega)
    exact ⟨hwrites.trans hwrites', hw'', fun _ => hp'' hp', hle'', hends⟩

end Steps

/-! ### The calls -/

def call (host : Bool) (u : Unescape) : Unescape :=
  if host then unescapeStrTolower u else unescapeStr u

def Passes (host : Bool) (u : Unescape) : Prop :=
  host = false ∧ u.state = .rest ∧ u.ahead.head? ≠ some 37

/-- Where a call can start and end: at the end of the string, or outside of an escape or behind one. -/
def Stopped (u : Unescape) : Prop := u.ahead = [] ∨ u.state = .plain ∨ u.state = .rest

/-- One call. It comes to the end of the string or fills the buffer. -/
structure Called (host : Bool) (u u' : Unescape) : Prop where
  grows : Grows host u u'
  le : u'.buf.length ≤ bufSize
  stopped : Stopped u'
  ends : u'.ahead = [] ∨ u'.buf.length = bufSize
  writes : ¬ Passes host u → Writes host u u' ∧ (Pending u → Pending u')
  passes : Passes host u → ∃ b r, u.ahead = b :: r ∧ u.buf ++ [b] <+: u'.buf

section Calls
variable {host : Bool} {u u' : Unescape} {fuel : Nat}

theorem wf_of_state (h : u.state = .plain ∨ u.state = .rest) : Wf u := by rcases h with h | h <;> simp [Wf, h]

theorem Looped.stopped (h : Looped host u u') : Stopped u' := h.ends.imp id And.right

theorem copied_grows {copied r : Bytes} (ha : u.ahead = copied ++ r) (hne : ∀ c ∈ copied, c ≠ 37)
    (hstate : u.state = .plain ∨ u.state = .rest) :
    Grows false u ⟨u.buf ++ copied, copied.reverse ++ u.behind, r, u.state⟩ ∧ (u.state = .plain →
        Writes false u ⟨u.buf ++ copied, copied.reverse ++ u.behind, r, u.state⟩) := by
  have hwritten : written false .idle u.ahead =
      copied.map (fun c => (fold false c, false)) ++ written false .idle r := by
    rw [ha, written_idle_append hne]
  have hmap : (copied.map fun c => (fold false c, false)).map (·.1) = copied := by simp [fold, Function.comp_def]
  refine ⟨⟨wf_of_state hstate, prefix_append _ _, ?_⟩, fun hp => ?_⟩
  · rcases hstate with h | h <;> simp only [remaining, h, hwritten] <;> simp <;> omega
  · refine ⟨copied.map fun c => (fold false c, false), ?_, by rw [hmap]⟩
    simp only [remaining, hp, hwritten]

theorem unescapeStr_spec (hroom : u.buf.length < bufSize) (hne : u.ahead ≠ [])
    (hstate : u.state = .plain ∨ u.state = .rest) : Called false u (unescapeStr u) := by
  generalize hm : min u.ahead.length (bufSize - u.buf.length) = m
  generalize hcopied : (u.ahead.take m).takeWhile (· ≠ 37) = copied
  have hpos : 0 < u.ahead.length := length_pos_iff.mpr hne
  have hcopy : copied <+: u.ahead.take m := by
    rw [← hcopied]
    exact takeWhile_prefix _
  have hplain : ∀ c ∈ copied, c ≠ 37 := fun c hc => by
    rw [← hcopied] at hc
    simpa using mem_takeWhile_imp hc
  have hlen : copied.length ≤ m := hcopy.length_le.trans (length_take_le _ _)
  obtain ⟨r, hr⟩ := hcopy.trans ( take_prefix _ _)
  have hdrop : u.ahead.drop copied.length = r := by rw [← hr, drop_left]
  obtain ⟨hg, hwrites⟩ := copied_grows hr.symm hplain hstate
  -- the first byte is copied unless it is `%`
  have hfirst (h37 : u.ahead.head? ≠ some 37) : ∃ b r', u.ahead = b :: r' ∧ [b] <+: copied := by
    cases ha : u.ahead with
    | nil => exact absurd ha hne
    | cons b r' =>
      have hb : b ≠ 37 := by simpa [ha] using h37
      obtain ⟨m', rfl⟩ : ∃ m', m = m' + 1 := ⟨m - 1, by omega⟩
      refine ⟨b, r', rfl, ?_⟩
      rw [← hcopied, ha, take_succ_cons, takeWhile_cons_of_pos (by simpa using hb)]
      simp
  have hnil (h37 : u.ahead.head? = some 37) : copied = [] := by
    cases hc : copied with
    | nil => rfl
    | cons b l =>
      rw [← hr, hc, cons_append, head?_cons, Option.some.injEq] at h37
      exact absurd h37 (hplain b (by simp [hc]))
  have heq : unescapeStr u = if copied.length = m then
      ⟨u.buf ++ copied, copied.reverse ++ u.behind, r, u.state⟩
    else unescapeLoop false (r.length + (bufSize - (u.buf ++ copied).length))
      ⟨u.buf ++ copied, copied.reverse ++ u.behind, r, u.state⟩ := by
    rw [unescapeStr]
    simp only [hm, hcopied, hdrop]
  have hrlen : copied.length + r.length = u.ahead.length := by rw [← hr, length_append]
  have hle : (u.buf ++ copied).length ≤ bufSize := by
    rw [length_append]
    omega
  rw [heq]
  split
  · next hall =>
    refine ⟨hg, hle, .inr hstate, ?_, fun hp => ?_, fun hp => ?_⟩
    · change r = [] ∨ (u.buf ++ copied).length = bufSize
      rw [length_append]
      rcases lt_or_ge (bufSize - u.buf.length) u.ahead.length with h | h
      · exact .inr (by omega)
      · exact .inl (length_eq_zero_iff.mp (by omega))
    · have hst : u.state = .plain := by
        refine hstate.resolve_right fun hrest => hp ⟨rfl, hrest, fun h37 => ?_⟩
        rw [hnil h37, length_nil] at hall
        omega
      exact ⟨hwrites hst, fun _ => by simp [Pending, hst]⟩
    · obtain ⟨b, r', ha, hb⟩ := hfirst hp.2.2
      exact ⟨b, r', ha, (prefix_append_right_inj _).mpr hb⟩
  · next hnot =>
    obtain ⟨fuel, hfuel⟩ : ∃ k, k = r.length + (bufSize - (u.buf ++ copied).length) := ⟨_, rfl⟩
    have hloop : Looped false _ _ := unescapeLoop_spec (u := ⟨u.buf ++ copied, copied.reverse ++ u.behind, r,
      u.state⟩) hg.wf hle (.inr hstate) hfuel.ge
    rw [← hfuel]
    have hg' := hloop.writes.grows hloop.wf
    refine ⟨⟨hg'.wf, hg.grows.trans hg'.grows, hg'.length.trans hg.length⟩, hloop.le, hloop.stopped,
      hloop.ends.imp id And.left, fun hp => ?_, fun hp => ?_⟩
    · by_cases hst : u.state = .plain
      · exact ⟨(hwrites hst).trans hloop.writes, fun _ => hloop.pending (by simp [Pending, hst])⟩
      · have hrest := hstate.resolve_left hst
        have h37 : u.ahead.head? = some 37 := by
          by_contra h37
          exact hp ⟨rfl, hrest, h37⟩
        have hu : (⟨u.buf ++ copied, copied.reverse ++ u.behind, r, u.state⟩ : Unescape) = u := by
          rw [hnil h37, nil_append] at hr
          rw [hnil h37, hr]
          simp
        rw [hu] at hloop ⊢
        exact ⟨hloop.writes, hloop.pending⟩
    · obtain ⟨b, r', ha, hb⟩ := hfirst hp.2.2
      exact ⟨b, r', ha, ((prefix_append_right_inj _).mpr hb).trans hg'.grows⟩

theorem call_spec (hroom : u.buf.length < bufSize) (hne : u.ahead ≠ []) (hs : Stopped u) :
    Called host u (call host u) := by
  have hstate := hs.resolve_left hne
  cases host with
  | false => exact unescapeStr_spec hroom hne hstate
  | true =>
    have hloop : Looped true _ _ := unescapeLoop_spec (wf_of_state hstate) hroom.le (.inr hstate) le_rfl
    exact ⟨hloop.writes.grows hloop.wf, hloop.le, hloop.stopped, hloop.ends.imp id And.left,
      fun _ => ⟨hloop.writes, hloop.pending⟩, fun hp => absurd hp.1 (by simp)⟩

end Calls

/-! ### Whole strings -/

/-- A byte that can be passed is the first one of a buffer; `n` bytes stand before these. -/
def Cut (n : Nat) (S : List (UInt8 × Bool)) : Prop :=
  ∃ j x, S[j]? = some (x, true) ∧ (n + j) % bufSize = 0

/-- The two streams differ at a place where the second one has a digit and the first one has none. -/
def Differ (out spec : Bytes) : Prop :=
  ∃ l x y u v, out = l ++ x :: u ∧ spec = l ++ y :: v ∧ isHex x = false ∧ isHex y

/-- The stream goes on by `S`, or differs from it at the first byte that is passed. -/
structure Feeds (out : Bytes) (S : List (UInt8 × Bool)) (out' : Bytes) : Prop where
  grows : out <+: out'
  le : out'.length ≤ out.length + S.length
  whole : ¬ Cut out.length S → out' = out ++ S.map (·.1)
  cut : Cut out.length S → Differ out' (out ++ S.map (·.1))

section Feed
variable {host : Bool} {u : Unescape} {out out' out'' fed : Bytes} {S T : List (UInt8 × Bool)}
  {fuel n : Nat}

theorem not_cut_nil : ¬ Cut n [] := by
  rintro ⟨j, x, hj, -⟩
  simp at hj

theorem cut_cons {x : UInt8} {m : Bool} :
    Cut n ((x, m) :: S) ↔ (m = true ∧ n % bufSize = 0) ∨ Cut (n + 1) S := by
  rw [Cut, ← Nat.or_exists_add_one]
  refine or_congr ?_ (exists_congr fun j => ?_)
  · simp [and_comm]
  · simp [Nat.add_assoc, Nat.add_comm 1]

theorem cut_append : Cut n (S ++ T) ↔ Cut n S ∨ Cut (n + S.length) T := by
  induction S generalizing n with
  | nil => simp [not_cut_nil]
  | cons p S ih => rw [cons_append, cut_cons, cut_cons, ih, or_assoc, length_cons, Nat.add_assoc, Nat.add_comm 1]

theorem Differ.append (h : Differ out out') {e e' : Bytes} : Differ (out ++ e) (out' ++ e') := by
  obtain ⟨l, x, y, u, v, rfl, rfl, hx, hy⟩ := h
  exact ⟨l, x, y, u ++ e, v ++ e', by simp, by simp, hx, hy⟩

theorem Feeds.refl (out : Bytes) : Feeds out [] out :=
  ⟨prefix_rfl, le_rfl, fun _ => by simp, fun h => absurd h not_cut_nil⟩

theorem Feeds.trans (h : Feeds out S out') (h' : Feeds out' T out'') : Feeds out (S ++ T) out'' := by
  have hlen (hS : ¬ Cut out.length S) : out'.length = out.length + S.length := by
    rw [h.whole hS]
    simp
  refine ⟨h.grows.trans h'.grows, ?_, fun hc => ?_, fun hc => ?_⟩
  · have := h.le
    have := h'.le
    rw [length_append]
    omega
  · rw [cut_append, not_or] at hc
    rw [h'.whole (by rw [hlen hc.1]; exact hc.2), h.whole hc.1, map_append, append_assoc]
  · rw [map_append, ← append_assoc]
    by_cases hS : Cut out.length S
    · obtain ⟨e, rfl⟩ := h'.grows
      exact (h.cut hS).append
    · rw [← h.whole hS]
      refine h'.cut ?_
      rw [hlen hS]
      exact (cut_append.mp hc).resolve_left hS

theorem feed_succ (hne : u.ahead ≠ []) : feed host (fuel + 1) fed u = if (call host u).buf.length = bufSize then
        feed host fuel (fed ++ (call host u).buf) { call host u with buf := [] }
      else feed host fuel fed (call host u) := by
  rw [feed, if_neg hne]
  rfl

theorem fed_mod {buf : Bytes} (hfed : fed.length % bufSize = 0) (hfull : buf.length = bufSize) :
    (fed ++ buf).length % bufSize = 0 := by
  rw [length_append, hfull, Nat.add_mod_right, hfed]

theorem feed_grows (host : Bool) (fuel : Nat) (hroom : u.buf.length < bufSize) (hs : Stopped u)
    (hw : Wf u) (hfed : fed.length % bufSize = 0) :
    fed ++ u.buf <+: (feed host fuel fed u).1 ++ (feed host fuel fed u).2 ∧
      ((feed host fuel fed u).1 ++ (feed host fuel fed u).2).length ≤
        (fed ++ u.buf).length + (remaining host u).length ∧ (feed host fuel fed u).1.length % bufSize = 0 ∧
      (feed host fuel fed u).2.length < bufSize := by
  induction fuel generalizing fed u with
  | zero => exact ⟨prefix_rfl, Nat.le_add_right _ _, hfed, hroom⟩
  | succ fuel ih =>
    by_cases hne : u.ahead = []
    · rw [feed, if_pos hne]
      exact ⟨prefix_rfl, Nat.le_add_right _ _, hfed, hroom⟩
    have hcall : Called host u (call host u) := call_spec hroom hne hs
    have hlen := hcall.grows.length
    have hgrows : fed ++ u.buf <+: fed ++ (call host u).buf := (prefix_append_right_inj _).mpr hcall.grows.grows
    rw [feed_succ hne]
    split
    · next hfull =>
      obtain ⟨h1, h2, h3⟩ := ih (u := { call host u with buf := [] }) (by simp [bufSize])
        hcall.stopped hcall.grows.wf (fed_mod hfed hfull)
      rw [append_nil] at h1 h2
      change _ ≤ _ + (remaining host (call host u)).length at h2
      refine ⟨hgrows.trans h1, h2.trans ?_, h3⟩
      simp only [length_append]
      omega
    · next hnot =>
      obtain ⟨h1, h2, h3⟩ := ih (lt_of_le_of_ne hcall.le hnot) hcall.stopped hcall.grows.wf hfed
      refine ⟨hgrows.trans h1, h2.trans ?_, h3⟩
      simp only [length_append]
      omega

theorem feed_succ_grows (hcall : Called host u (call host u)) (hne : u.ahead ≠ [])
    (hfed : fed.length % bufSize = 0) : fed ++ (call host u).buf <+:
      (feed host (fuel + 1) fed u).1 ++ (feed host (fuel + 1) fed u).2 := by
  rw [feed_succ hne]
  split
  · next hfull =>
    have h := (feed_grows host fuel (u := { call host u with buf := [] }) (by simp [bufSize])
      hcall.stopped hcall.grows.wf (fed_mod hfed hfull)).1
    rw [append_nil] at h
    exact h
  · next hnot => exact (feed_grows host fuel (lt_of_le_of_ne hcall.le hnot) hcall.stopped hcall.grows.wf hfed).1

theorem remaining_of_end (hp : Pending u) (hnil : u.ahead = []) : remaining host u = [] := by
  cases hst : u.state with
  | rest =>
    obtain ⟨-, b, r, ha, -⟩ := hp hst
    rw [ha] at hnil
    cases hnil
  | plain | percent | digit => simp [remaining, hst, hnil]

theorem not_cut_of_writes (hfed : fed.length % bufSize = 0) (hs : u.state = .plain ∨ u.state = .rest)
    (hp : ¬ Passes host u) {w : List (UInt8 × Bool)} {l : List (UInt8 × Bool)}
    (hw : remaining host u = w ++ l) (hle : u.buf.length + w.length ≤ bufSize) : ¬ Cut (fed ++ u.buf).length w := by
  rintro ⟨j, x, hj, hmod⟩
  have hlt : j < w.length := (List.getElem?_eq_some_iff.mp hj).1
  rw [length_append, add_assoc, Nat.add_mod, hfed, zero_add, Nat.mod_mod, Nat.mod_eq_of_lt (by omega)] at hmod
  obtain rfl : j = 0 := by omega
  have hhead : (remaining host u).head? = some (x, true) := by
    rw [hw, head?_eq_getElem?, getElem?_append_left hlt, hj]
  rcases hs with hst | hst
  · simp only [remaining, hst] at hhead
    exact absurd (written_idle_head _ hhead) (by simp)
  · simp only [remaining, hst, head?_cons, Option.some.injEq, Prod.mk.injEq, Bool.and_eq_true,
      Bool.not_eq_true', decide_eq_true_eq] at hhead
    exact hp ⟨hhead.2.1, hst, hhead.2.2⟩

theorem feed_spec (hroom : u.buf.length < bufSize) (hs : Stopped u) (hw : Wf u) (hp : Pending u)
    (hstart : u.state = .rest → u.buf = []) (hfed : fed.length % bufSize = 0)
    (hfuel : (remaining host u).length < fuel) :
    Feeds (fed ++ u.buf) (remaining host u) ((feed host fuel fed u).1 ++ (feed host fuel fed u).2) := by
  induction fuel generalizing fed u with
  | zero => exact absurd hfuel (Nat.not_lt_zero _)
  | succ fuel ih =>
    by_cases hne : u.ahead = []
    · rw [feed, if_pos hne, remaining_of_end hp hne]
      exact Feeds.refl _
    have hcall : Called host u (call host u) := call_spec hroom hne hs
    have hgrow := feed_grows host (fuel + 1) hroom hs hw hfed
    by_cases hpass : Passes host u
    · -- the byte that is pending is passed by the first one that is copied
      obtain ⟨b, r, ha, hb⟩ := hcall.passes hpass
      obtain ⟨hhost, hst, h37⟩ := hpass
      obtain ⟨hhex, b', r', ha', hb'⟩ := hp hst
      obtain ⟨rfl, rfl⟩ : b' = b ∧ r' = r := by
        rw [ha'] at ha
        exact List.cons.inj ha
      have hrem : remaining host u = (u.behind.getD 0 0, true) :: written host .idle u.ahead := by
        subst hhost
        simp [remaining, hst, h37, fold]
      have hcut : Cut (fed ++ u.buf).length (remaining host u) :=
        ⟨0, u.behind.getD 0 0, by rw [hrem]; rfl, by simp [hstart hst, hfed]⟩
      refine ⟨hgrow.1, hgrow.2.1, fun hc => absurd hcut hc, fun _ => ?_⟩
      obtain ⟨e, he⟩ := ((prefix_append_right_inj fed).mpr hb).trans (feed_succ_grows hcall hne hfed)
      exact ⟨fed ++ u.buf, b', u.behind.getD 0 0, e, (written host .idle u.ahead).map (·.1),
        by rw [← he]; simp, by rw [hrem]; simp, hb', hhex⟩
    · -- nothing is passed in this call
      obtain ⟨⟨w, hrem, hbuf⟩, hp'⟩ := hcall.writes hpass
      have hlen := hcall.grows.length
      have hwlen : (call host u).buf.length = u.buf.length + w.length := by
        rw [hbuf]
        simp
      have hfirst : Feeds (fed ++ u.buf) w (fed ++ (call host u).buf) := by
        have hnc := not_cut_of_writes hfed (hs.resolve_left hne) hpass hrem (hwlen ▸ hcall.le)
        rw [hbuf, ← append_assoc]
        refine ⟨prefix_append _ _, ?_, fun _ => rfl, fun hc => absurd hc hnc⟩
        rw [length_append, length_map]
      rw [hrem, feed_succ hne]
      refine hfirst.trans ?_
      split
      · next hfull =>
        have hless : (remaining host (call host u)).length < fuel := by omega
        have h := ih (u := { call host u with buf := [] }) (by simp [bufSize]) hcall.stopped
          hcall.grows.wf (hp' hp) (fun _ => rfl) (fed_mod hfed hfull) hless
        rw [append_nil] at h
        exact h
      · next hnot =>
        have hend : (call host u).ahead = [] := hcall.ends.resolve_right hnot
        rw [remaining_of_end (hp' hp) hend]
        have hstop : feed host fuel fed (call host u) = (fed, (call host u).buf) := by
          cases fuel with
          | zero => rfl
          | succ fuel => rw [feed, if_pos hend]
        rw [hstop]
        exact Feeds.refl _

end Feed

end TrafficServer.URL
