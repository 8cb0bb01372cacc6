import TrafficServer.Hdrs.URLUnescape

/-!
# The digest of a URL

The canonical stream of a URL has its strings with each escape replaced by its byte, scheme and host
in lower case. The general path feeds that stream exactly if no string ends within an escape, no
pending digit is at the start of a buffer, and case makes no difference to the scheme and to the
escapes of the host. A string that ends within an escape makes the stream shorter, and a digit that
is passed makes it different at that place.
-/

namespace TrafficServer.URL

open List ParseRules

/-! ### Canonical strings -/

/-- Each escape is replaced by its byte; `fold` is done to the other bytes. -/
def unescape (host : Bool) : Bytes → Bytes
  | c :: a :: b :: r =>
    if c = 37 ∧ isHex a ∧ isHex b then hexByte a b :: unescape host r
    else fold host c :: unescape host (a :: b :: r)
  | [c, a] => [fold host c, fold host a]
  | [c] => [fold host c]
  | [] => []

def Unfinished (s : Bytes) : Prop :=
  ∃ l r, s = l ++ 37 :: r ∧ r.length < 2 ∧ ∀ c ∈ r, isHex c

/-- No byte `%` of the string starts an escape, not even an unfinished one. -/
def Plain (s : Bytes) : Prop := ∀ l r, s = l ++ 37 :: r → ∃ c ∈ r.take 2, isHex c = false

/-- The digit of an escape `%Hx` that is broken by another byte than `%` is the first byte of a buffer;
`n` bytes stand before the unescaped string. -/
def Severed : Nat → Bytes → Prop
  | n, c :: a :: b :: r =>
    if c = 37 ∧ isHex a ∧ isHex b then Severed (n + 1) r
    else (c = 37 ∧ isHex a ∧ b ≠ 37 ∧ (n + 1) % bufSize = 0) ∨ Severed (n + 1) (a :: b :: r)
  | _, _ => False

/-- No escape stands for an upper-case letter. -/
def EscapesLower : Bytes → Prop
  | c :: a :: b :: r =>
    if c = 37 ∧ isHex a ∧ isHex b then inkTolower (hexByte a b) = hexByte a b ∧ EscapesLower r
    else EscapesLower (a :: b :: r)
  | _ => True

section Strings
variable {host : Bool} {c a b : UInt8} {s r : Bytes}

theorem unescape_hex (ha : isHex a) (hb : isHex b) :
    unescape host (37 :: a :: b :: r) = hexByte a b :: unescape host r := by
  simp [unescape, ha, hb]

theorem ne_of_isHex (h : isHex c) : c ≠ 37 := by
  rintro rfl
  exact absurd h (by decide)

theorem unfinished_cons : Unfinished (c :: s) ↔ (c = 37 ∧ s.length < 2 ∧ ∀ x ∈ s, isHex x) ∨ Unfinished s := by
  constructor
  · rintro ⟨_ | ⟨d, l⟩, r, he, hr⟩
    · obtain ⟨rfl, rfl⟩ := List.cons.inj he
      exact .inl ⟨rfl, hr⟩
    · obtain ⟨rfl, rfl⟩ := List.cons.inj he
      exact .inr ⟨l, r, rfl, hr⟩
  · rintro (⟨rfl, hr⟩ | ⟨l, r, rfl, hr⟩)
    · exact ⟨[], s, rfl, hr⟩
    · exact ⟨c :: l, r, rfl, hr⟩

theorem not_unfinished_nil : ¬ Unfinished [] := by
  rintro ⟨l, r, he, -⟩
  simp at he

theorem plain_cons : Plain (c :: s) ↔ (c = 37 → ∃ x ∈ s.take 2, isHex x = false) ∧ Plain s := by
  constructor
  · refine fun h => ⟨fun hc => h [] s (by rw [hc]; rfl), fun l r he => h (c :: l) r (by rw [he]; rfl)⟩
  · rintro ⟨h1, h2⟩ (_ | ⟨d, l⟩) r he
    · obtain ⟨rfl, rfl⟩ := List.cons.inj he
      exact h1 rfl
    · exact h2 l r (List.cons.inj he).2

theorem plain_nil : Plain [] := fun l r he => by simp at he

/-- What is written is the canonical string, unless that ends within an escape. -/
structure Canonical (host : Bool) (w s : Bytes) : Prop where
  eq : ¬ Unfinished s → w = unescape host s
  lt : Unfinished s → w.length < (unescape host s).length

theorem Canonical.cons {w t : Bytes} {x : UInt8} (h : Canonical host w s)
    (hu : Unfinished t ↔ Unfinished s) (ht : unescape host t = x :: unescape host s) : Canonical host (x :: w) t := by
  refine ⟨fun hn => ?_, fun hn => ?_⟩
  · rw [ht, h.eq (hu.not.mp hn)]
  · rw [ht, length_cons, length_cons]
    exact Nat.succ_lt_succ (h.lt (hu.mp hn))

theorem written_escape (ha : isHex a) (hb : isHex b) (r : Bytes) :
    written host .idle (37 :: a :: b :: r) = (hexByte a b, false) :: written host .idle r := by
  rw [written_idle_percent, written_percent_hex ha, written_digit_hex hb]

/-- A digit behind a `%` is written with its mark. -/
theorem written_other (h : ¬(c = 37 ∧ isHex a ∧ isHex b)) (r : Bytes) :
    (¬(c = 37 ∧ isHex a) ∧
      written host .idle (c :: a :: b :: r) = (fold host c, false) :: written host .idle (a :: b :: r)) ∨
    (c = 37 ∧ isHex a) ∧ ∃ W, written host .idle (a :: b :: r) = (fold host a, false) :: W ∧
      written host .idle (c :: a :: b :: r) = (fold host c, false) :: (fold host a, !host && b ≠ 37) :: W := by
  by_cases hc : c = 37
  · subst hc
    cases ha : isHex a with
    | false => exact .inl ⟨by simp, by rw [written_idle_percent, written_percent_of_not_hex ha]⟩
    | true =>
      have hb : isHex b = false := by simpa [ha] using h
      refine .inr ⟨⟨rfl, rfl⟩, _, written_idle_of_ne (ne_of_isHex ha), ?_⟩
      rw [written_idle_percent, written_percent_hex ha, written_digit_of_not_hex hb]
  · exact .inl ⟨fun h => hc h.1, written_idle_of_ne hc⟩

theorem written_canonical (s : Bytes) : Canonical host ((written host .idle s).map (·.1)) s := by
  fun_induction unescape host s with
  | case1 c a b r h ih =>
    obtain ⟨rfl, ha, hb⟩ := h
    rw [written_escape ha hb]
    exact ih.cons (by simp [unfinished_cons, ne_of_isHex ha, ne_of_isHex hb]) (unescape_hex ha hb)
  | case2 c a b r h ih =>
    have hmap : (written host .idle (c :: a :: b :: r)).map (·.1) =
        fold host c :: (written host .idle (a :: b :: r)).map (·.1) := by
      rcases written_other h r with ⟨-, hw⟩ | ⟨-, W, hw', hw⟩
      · rw [hw, map_cons]
      · rw [hw, hw', map_cons, map_cons, map_cons]
    rw [hmap]
    exact ih.cons (by simp [unfinished_cons (c := c)]) (by rw [unescape, if_neg h])
  | case3 c a =>
    by_cases hc : c = 37 <;> by_cases ha : a = 37 <;> cases hex : isHex a <;> constructor <;>
      simp_all [written_cons, escapeStep, escapeStart, unescape, unfinished_cons, not_unfinished_nil]
  | case4 c =>
    by_cases hc : c = 37 <;> constructor <;>
      simp_all [written_cons, escapeStep, escapeStart, unescape, unfinished_cons, not_unfinished_nil]
  | case5 => exact ⟨fun _ => rfl, fun h => absurd h not_unfinished_nil⟩

theorem length_written_idle_le : (written host .idle s).length ≤ (unescape host s).length := by
  have h : Canonical host ((written host .idle s).map (·.1)) s := written_canonical s
  by_cases hu : Unfinished s
  · simpa using (h.lt hu).le
  · simpa using (congrArg List.length (h.eq hu)).le

theorem lower_unescape (host : Bool) (s : Bytes) : lower (unescape host s) = lower (unescape false s) := by
  have hfold (c : UInt8) : inkTolower (fold host c) = inkTolower (fold false c) := by cases host <;> simp [fold]
  fun_induction unescape host s with
  | case1 c a b r h ih =>
    rw [unescape, if_pos h]
    simp only [lower, map_cons] at ih ⊢
    rw [ih]
  | case2 c a b r h ih =>
    rw [unescape, if_neg h]
    simp only [lower, map_cons] at ih ⊢
    rw [ih, hfold]
  | case3 c a => simp [unescape, lower, hfold]
  | case4 c => simp [unescape, lower, hfold]
  | case5 => rfl

theorem length_unescape_le (s : Bytes) : (unescape host s).length ≤ s.length := by
  fun_induction unescape host s with
  | case1 c a b r h ih =>
    simp only [length_cons]
    omega
  | case2 c a b r h ih =>
    simp only [length_cons] at ih ⊢
    omega
  | case3 c a => simp
  | case4 c => simp
  | case5 => simp

theorem length_written_le : (written host .idle s).length ≤ s.length :=
  length_written_idle_le.trans (length_unescape_le s)

theorem unescape_eq_self_iff (s : Bytes) : ¬ Unfinished s ∧ unescape false s = s ↔ Plain s := by
  fun_induction unescape false s with
  | case1 c a b r h ih =>
    obtain ⟨rfl, ha, hb⟩ := h
    have hlen : (unescape false r).length ≤ r.length := length_unescape_le r
    constructor
    · rintro ⟨-, he⟩
      have := congrArg List.length he
      simp only [length_cons] at this
      omega
    · exact fun hp => absurd ((plain_cons.mp hp).1 rfl) (by simp [ha, hb])
  | case2 c a b r h ih =>
    rw [plain_cons, unfinished_cons, ← ih, List.cons.injEq]
    have hshort : ¬ (a :: b :: r).length < 2 := by simp
    simp only [fold, hshort, false_and, and_false, false_or, Bool.false_eq_true, if_false, true_and, iff_and_self]
    rintro - rfl
    cases ha : isHex a <;> simp_all
  | case3 c a =>
    simp only [fold, plain_cons, plain_nil, unfinished_cons, not_unfinished_nil]
    by_cases hc : c = 37 <;> by_cases ha : a = 37 <;> cases hh : isHex a <;> simp_all
  | case4 c =>
    simp only [fold, plain_cons, plain_nil, unfinished_cons, not_unfinished_nil]
    by_cases hc : c = 37 <;> simp_all
  | case5 => simp [plain_nil, not_unfinished_nil]

theorem written_eq_self_iff : (written false .idle s).map (·.1) = s ↔ Plain s := by
  have h : Canonical false ((written false .idle s).map (·.1)) s := written_canonical s
  rw [← unescape_eq_self_iff]
  by_cases hu : Unfinished s
  · have hlt := (h.lt hu).trans_le (length_unescape_le s)
    refine ⟨fun he => ?_, fun hp => absurd hu hp.1⟩
    rw [he] at hlt
    exact absurd hlt (lt_irrefl _)
  · rw [h.eq hu]
    simp [hu]

theorem cut_written (n : Nat) (s : Bytes) : Cut n (written host .idle s) ↔ host = false ∧ Severed n s := by
  fun_induction Severed n s with
  | case1 n c a b r h ih =>
    obtain ⟨rfl, ha, hb⟩ := h
    rw [written_escape ha hb, cut_cons, ih]
    simp
  | case2 n c a b r h ih =>
    rcases written_other h r with ⟨hno, hw⟩ | ⟨hesc, W, hw', hw⟩
    · rw [hw, cut_cons, ih]
      grind
    · rw [hw', cut_cons] at ih
      rw [hw, cut_cons, cut_cons]
      cases host <;> simp_all
  | case3 s n hs =>
    rcases s with _ | ⟨c, _ | ⟨a, _ | ⟨b, r⟩⟩⟩
    · simp [not_cut_nil]
    · by_cases hc : c = 37 <;> simp [written_cons, escapeStep, escapeStart, hc, cut_cons, not_cut_nil]
    · by_cases hc : c = 37 <;> by_cases ha : a = 37 <;> cases hex : isHex a <;>
        simp [written_cons, escapeStep, escapeStart, hc, ha, hex, cut_cons, not_cut_nil,
          show isHex 37 = false from rfl]
    · exact absurd rfl (hs c a b r)

theorem unescape_lower_iff (s : Bytes) : unescape true s = lower (unescape false s) ↔ EscapesLower s := by
  fun_induction EscapesLower s with
  | case1 c a b r h ih =>
    obtain ⟨rfl, ha, hb⟩ := h
    rw [unescape_hex ha hb, unescape_hex ha hb, ← ih]
    simp [lower, eq_comm]
  | case2 c a b r h ih =>
    rw [unescape, unescape, if_neg h, if_neg h, ← ih]
    simp [lower, fold]
  | case3 s hs =>
    rcases s with _ | ⟨c, _ | ⟨a, _ | ⟨b, r⟩⟩⟩
    · simp [unescape, lower]
    · simp [unescape, lower, fold]
    · simp [unescape, lower, fold]
    · exact absurd rfl (hs c a b r)

end Strings

/-! ### The stream -/

/-- The canonical form of a string; those of the scheme and of the host are in lower case. -/
def canonical (s : Option Bytes × Nat) : Bytes :=
  match s.1 with
  | none => []
  | some str =>
    if s.2 = 0 ∨ isHost s.2 then lower (unescape false str) else unescape false str

def canonicalStream (url : URLImpl (Option Bytes)) : Bytes :=
  (urlStrs url).zipIdx.flatMap canonical ++ portBytes url

def marks (s : Option Bytes × Nat) : List (UInt8 × Bool) :=
  match s.1 with
  | none => []
  | some str => written (isHost s.2) .idle str

def unescaped (s : Option Bytes × Nat) : Bytes :=
  match s.1 with
  | none => []
  | some str => unescape (isHost s.2) str

/-- The length of the unescaped strings. -/
def streamLength (strs : List (Option Bytes)) : Nat :=
  (strs.flatMap fun s => unescape false (s.getD [])).length

/-- When the stream is the canonical one: no string ends within an escape, no broken escape outside of
the host is severed, the unescaped scheme is in lower case, and no escape of the host is an upper-case
letter. -/
structure Regular (url : URLImpl (Option Bytes)) : Prop where
  finished : ∀ s, some s ∈ urlStrs url → ¬ Unfinished s
  whole : ∀ i s, (urlStrs url)[i]? = some (some s) → isHost i = false →
    ¬ Severed (streamLength ((urlStrs url).take i)) s
  scheme : ∀ s, url.scheme = some s → unescape false s = lower (unescape false s)
  host : ∀ s, url.host = some s → EscapesLower s

section Stream
variable {strs : List (Option Bytes × Nat)} {url : URLImpl (Option Bytes)}

theorem foldl_feedStr (strs : List (Option Bytes × Nat)) (st : Bytes × Bytes)
    (hfed : st.1.length % bufSize = 0) (hroom : st.2.length < bufSize) :
    Feeds (st.1 ++ st.2) (strs.flatMap marks) ((strs.foldl feedStr st).1 ++ (strs.foldl feedStr st).2) := by
  induction strs generalizing st with
  | nil => exact Feeds.refl _
  | cons s strs ih =>
    obtain ⟨s, i⟩ := s
    rw [flatMap_cons, foldl_cons]
    cases s with
    | none => exact (Feeds.refl _).trans (ih st hfed hroom)
    | some str =>
      have hlen : (written (isHost i) .idle str).length ≤ str.length := length_written_le
      have hstop : Stopped ⟨st.2, [], str, .plain⟩ := .inr (.inl rfl)
      have hspec : Feeds (st.1 ++ st.2) (written (isHost i) .idle str)
          ((feed (isHost i) (str.length + 1) st.1 ⟨st.2, [], str, .plain⟩).1 ++
            (feed (isHost i) (str.length + 1) st.1 ⟨st.2, [], str, .plain⟩).2) :=
        feed_spec hroom hstop trivial (by simp [Pending]) (by simp) hfed
          (show (written (isHost i) .idle str).length < str.length + 1 by omega)
      have hgrows := feed_grows (isHost i) (str.length + 1) hroom hstop trivial hfed
      exact hspec.trans (ih _ hgrows.2.2.1 hgrows.2.2.2)

theorem urlMD5GetGeneral_spec (url : URLImpl (Option Bytes)) :
    ∃ out, urlMD5GetGeneral url = out ++ portBytes url ∧ Feeds [] ((urlStrs url).zipIdx.flatMap marks) out := by
  have h := foldl_feedStr (urlStrs url).zipIdx ([], []) rfl (by simp [bufSize])
  rw [urlMD5GetGeneral]
  generalize (urlStrs url).zipIdx.foldl feedStr ([], []) = st at h ⊢
  exact ⟨st.1 ++ st.2, rfl, h⟩

theorem flatMap_eq_iff {α β : Type*} {l : List α} {f g : α → List β}
    (hlen : ∀ x ∈ l, (f x).length = (g x).length) : l.flatMap f = l.flatMap g ↔ ∀ x ∈ l, f x = g x := by
  induction l with
  | nil => simp
  | cons x l ih =>
    have hx := hlen x (by simp)
    rw [flatMap_cons, flatMap_cons, forall_mem_cons, ← ih fun y hy => hlen y (by simp [hy])]
    constructor
    · exact fun h => append_inj h hx
    · rintro ⟨h1, h2⟩
      rw [h1, h2]

theorem marks_map (p : Option Bytes × Nat) : (marks p).length ≤ (unescaped p).length ∧
      ((∀ s, p.1 = some s → ¬ Unfinished s) → (marks p).map (·.1) = unescaped p) ∧
      ((marks p).length = (unescaped p).length → ∀ s, p.1 = some s → ¬ Unfinished s) := by
  obtain ⟨_ | str, i⟩ := p
  · exact ⟨le_rfl, fun _ => rfl, by simp⟩
  · have h : Canonical (isHost i) ((written (isHost i) .idle str).map (·.1)) str :=
      written_canonical str
    refine ⟨length_written_idle_le, fun hu => h.eq (hu str rfl), fun hlen s hs hu => ?_⟩
    cases hs
    have hlt := h.lt hu
    rw [length_map] at hlt
    exact absurd hlen hlt.ne

theorem length_marks (strs : List (Option Bytes × Nat)) :
    (strs.flatMap marks).length ≤ (strs.flatMap unescaped).length ∧
      ((strs.flatMap marks).length = (strs.flatMap unescaped).length →
        ∀ p ∈ strs, ∀ s, p.1 = some s → ¬ Unfinished s) := by
  induction strs with
  | nil => simp
  | cons p strs ih =>
    obtain ⟨hle, -, heq⟩ := marks_map p
    rw [flatMap_cons, flatMap_cons, length_append, length_append, forall_mem_cons]
    exact ⟨by omega, fun h => ⟨heq (by omega), ih.2 (by omega)⟩⟩

theorem lower_canonical (p : Option Bytes × Nat) : lower (canonical p) = lower (unescaped p) := by
  obtain ⟨_ | str, i⟩ := p
  · rfl
  · simp only [canonical, unescaped, lower_unescape (isHost i)]
    split
    · exact lower_lower _
    · rfl

theorem length_canonical (p : Option Bytes × Nat) : (canonical p).length = (unescaped p).length := by
  have := congrArg List.length (lower_canonical p)
  simpa [lower] using this

theorem length_marks_eq {s : Option Bytes} (h : ∀ t, s = some t → ¬Unfinished t) (i : Nat) :
    (marks (s, i)).length = (unescape false (s.getD [])).length := by
  rw [← length_map (f := (·.1)), (marks_map (s, i)).2.1 h]
  cases s with
  | none => rfl
  | some t => simpa [lower, unescaped] using congrArg List.length (lower_unescape (isHost i) t)

theorem cut_marks {strs : List (Option Bytes)} (hfin : ∀ s, some s ∈ strs → ¬Unfinished s) (n k : Nat) :
    Cut n ((strs.zipIdx k).flatMap marks) ↔ ∃ i s, strs[i]? = some (some s) ∧ isHost (k + i) = false ∧
      Severed (n + streamLength (strs.take i)) s := by
  induction strs generalizing n k with
  | nil => simp [not_cut_nil]
  | cons o strs ih =>
    rw [zipIdx_cons, flatMap_cons, cut_append, ih fun s hs => hfin s (mem_cons_of_mem o hs),
      length_marks_eq fun t ht => hfin t (by simp [ht])]
    refine (or_congr ?_ (exists_congr fun i => ?_)).trans Nat.or_exists_add_one
    · cases o with
      | none => simp [marks, not_cut_nil]
      | some s => simp [marks, cut_written, streamLength]
    · simp [streamLength, Nat.add_assoc, Nat.add_comm 1]

theorem unescaped_eq_iff (url : URLImpl (Option Bytes)) :
    (∀ p ∈ (urlStrs url).zipIdx, unescaped p = canonical p) ↔
      (∀ s, url.scheme = some s → unescape false s = lower (unescape false s)) ∧
      ∀ s, url.host = some s → EscapesLower s := by
  simp only [← unescape_lower_iff]
  constructor
  · intro h
    refine ⟨fun s hs => ?_, fun s hs => ?_⟩
    · exact h (some s, 0) (mk_mem_zipIdx_iff_getElem?.mpr (by rw [← hs]; rfl))
    · exact h (some s, 6) (mk_mem_zipIdx_iff_getElem?.mpr (by rw [← hs]; rfl))
  · rintro ⟨hscheme, hhost⟩ ⟨_ | s, i⟩ hp
    · rfl
    rw [mk_mem_zipIdx_iff_getElem?] at hp
    by_cases h0 : i = 0
    · subst h0
      exact hscheme s (Option.some.inj hp)
    by_cases h6 : i = 6
    · subst h6
      exact hhost s (Option.some.inj hp)
    have hi : isHost i = false := by simp [isHost, h6]
    simp [unescaped, canonical, hi, h0]

theorem mem_urlStrs (s : Bytes) : some s ∈ urlStrs url ↔ ∃ p ∈ (urlStrs url).zipIdx, p.1 = some s := by
  rw [mem_iff_getElem?]
  constructor
  · rintro ⟨i, hi⟩
    exact ⟨(some s, i), mk_mem_zipIdx_iff_getElem?.mpr hi, rfl⟩
  · rintro ⟨⟨_, i⟩, hp, rfl⟩
    exact ⟨i, mk_mem_zipIdx_iff_getElem?.mp hp⟩

theorem Differ.lower_ne {out spec : Bytes} (h : Differ out spec) : lower out ≠ lower spec := by
  obtain ⟨l, x, y, u, v, rfl, rfl, hx, hy⟩ := h
  intro he
  have hhex : ∀ c, isHex (inkTolower c) = isHex c := by decide +kernel
  simp only [lower, map_append, map_cons, append_cancel_left_eq, List.cons.injEq] at he
  rw [← hhex, he.1, hhex, hy] at hx
  cases hx

theorem general_eq_canonical_iff (url : URLImpl (Option Bytes)) :
    urlMD5GetGeneral url = canonicalStream url ↔ Regular url := by
  obtain ⟨out, hout, hfeeds⟩ := urlMD5GetGeneral_spec url
  generalize hstrs : (urlStrs url).zipIdx = strs
  have hcase := unescaped_eq_iff url
  have hmem (s : Bytes) : some s ∈ urlStrs url ↔ _ := mem_urlStrs s
  rw [hout, canonicalStream, append_left_inj]
  simp only [hstrs] at hfeeds hcase hmem ⊢
  have hlen : ∀ p ∈ strs, (unescaped p).length = (canonical p).length := fun p _ => (length_canonical p).symm
  have hlens : (strs.flatMap unescaped).length = (strs.flatMap canonical).length := by
    rw [length_flatMap, length_flatMap]
    exact congrArg List.sum (map_congr_left hlen)
  obtain ⟨hle, heq⟩ := length_marks strs
  have hmarks (hu : ∀ p ∈ strs, ∀ s, p.1 = some s → ¬ Unfinished s) :
      (strs.flatMap marks).map (·.1) = strs.flatMap unescaped := by
    rw [map_flatMap]
    exact flatMap_congr fun p hp => (marks_map p).2.1 (hu p hp)
  constructor
  · intro h
    have hout_le := hfeeds.le
    rw [length_nil, zero_add, h] at hout_le
    have hu := heq (by omega)
    have hcut : ¬ Cut 0 (strs.flatMap marks) := fun hc => by
      refine (hfeeds.cut hc).lower_ne ?_
      rw [h, nil_append, hmarks hu, lower, lower, map_flatMap, map_flatMap]
      exact flatMap_congr fun p _ => lower_canonical p
    have hwhole := hfeeds.whole hcut
    rw [h, nil_append, hmarks hu] at hwhole
    obtain ⟨hscheme, hhost⟩ := hcase.mp ((flatMap_eq_iff hlen).mp hwhole.symm)
    have hfin : ∀ s, some s ∈ urlStrs url → ¬ Unfinished s := by
      intro s hs
      obtain ⟨p, hp, hps⟩ := (hmem s).mp hs
      exact hu p hp s hps
    exact ⟨hfin, by simpa [← hstrs, cut_marks hfin] using hcut, hscheme, hhost⟩
  · rintro ⟨hfin, hwhole, hscheme, hhost⟩
    have hcut : ¬ Cut 0 (strs.flatMap marks) := by simpa [← hstrs, cut_marks hfin] using hwhole
    rw [hfeeds.whole hcut, nil_append, hmarks fun p hp s hs => hfin s ((hmem s).mpr ⟨p, hp, hs⟩)]
    exact (flatMap_eq_iff hlen).mpr (hcase.mpr ⟨hscheme, hhost⟩)

/-- **The bytes of the digest are the canonical stream exactly for regular URLs**, so that regular URLs
with different canonical streams have different bytes. -/
theorem digest_stream_canonical_iff (url : URLImpl (Option Bytes)) :
    (urlMD5GetGeneral url = canonicalStream url ↔ Regular url) ∧
      ∀ url', Regular url → Regular url' → canonicalStream url ≠ canonicalStream url' →
        urlMD5GetGeneral url ≠ urlMD5GetGeneral url' := by
  refine ⟨general_eq_canonical_iff url, fun url' h h' hne he => hne ?_⟩
  rw [← (general_eq_canonical_iff url).mpr h, he, (general_eq_canonical_iff url').mpr h']

def urlOf (scheme host path : Bytes) : URLImpl (Option Bytes) where
  scheme := some scheme
  user := none
  password := none
  host := some host
  portStr := none
  path := some path
  params := none
  query := none
  fragment := none
  urlType := .http

theorem digest_stream_of_paths : urlMD5GetGeneral (urlOf (strBytes "http") (strBytes "h") (strBytes "a")) ≠
      urlMD5GetGeneral (urlOf (strBytes "http") (strBytes "h") (strBytes "%62")) :=
  (digest_stream_canonical_iff _).2 _ ((digest_stream_canonical_iff _).1.mp (by decide +kernel))
    ((digest_stream_canonical_iff _).1.mp (by decide +kernel)) (by decide +kernel)

/-- The `%` at the end of a path is lost, and so is a digit that is pending when the buffer is full. -/
theorem digest_stream_loses_bytes : (canonicalStream (urlOf (strBytes "http") (strBytes "h") (strBytes "a%")) ≠
        canonicalStream (urlOf (strBytes "http") (strBytes "h") (strBytes "a")) ∧
      urlMD5GetGeneral (urlOf (strBytes "http") (strBytes "h") (strBytes "a%")) =
        urlMD5GetGeneral (urlOf (strBytes "http") (strBytes "h") (strBytes "a"))) ∧
    (canonicalStream (urlOf (strBytes "http") (strBytes "h") (List.replicate 500 97 ++ strBytes "%4z")) ≠
        canonicalStream (urlOf (strBytes "http") (strBytes "h") (List.replicate 500 97 ++ strBytes "%5z")) ∧
      urlMD5GetGeneral (urlOf (strBytes "http") (strBytes "h") (List.replicate 500 97 ++ strBytes "%4z")) =
        urlMD5GetGeneral (urlOf (strBytes "http") (strBytes "h") (List.replicate 500 97 ++ strBytes "%5z"))) := by
  decide +kernel

end Stream

/-! ### The fast path -/

section Fast
variable {url : URLImpl (Option Bytes)} {urlHashMethod : Int}

theorem marks_of_plain {s : Option Bytes} (h : ∀ c ∈ s.getD [], c ≠ 37) (i : Nat) :
    marks (s, i) = ((s.getD []).map (fold (isHost i))).map fun c => (c, false) := by
  cases s with
  | none => rfl
  | some s =>
    have hw : written (isHost i) .idle (s ++ []) = _ := written_idle_append h
    simpa [marks, Function.comp_def] using hw

def fastRest (url : URLImpl (Option Bytes)) : Bytes :=
  strBytes "://" ++ strBytes ":" ++ strBytes "@" ++ (url.host.getD []).map inkTolower ++
    strBytes "/" ++ url.path.getD [] ++ strBytes ";" ++ strBytes "?"

theorem marks_of_fast (hfast : takesFastPath urlHashMethod url) : (urlStrs url).zipIdx.flatMap marks =
      written false .idle (url.scheme.getD []) ++ (fastRest url).map fun c => (c, false) := by
  simp only [takesFastPath, Bool.and_eq_true, Bool.not_eq_true', decide_eq_true_eq,
    contains_eq_mem, decide_eq_false_iff_not] at hfast
  obtain ⟨⟨⟨⟨⟨-, htype⟩, hempty⟩, -⟩, hhost⟩, hpath⟩ := hfast
  have hne {s : Bytes} (h : 37 ∉ s) : ∀ c ∈ s, c ≠ 37 := fun c hc he => h (he ▸ hc)
  have hnone {s : Option Bytes} (h : strLen s = 0) (i : Nat) : marks (s, i) = [] := by
    have hnil : s.getD [] = [] := length_eq_zero_iff.mp h
    rw [marks_of_plain (by simp [hnil]), hnil]
    rfl
  have hsep (s : String) (i : Nat) (h : (strBytes s).all (· ≠ 37)) (hi : isHost i = false) :
      marks (some (strBytes s), i) = (strBytes s).map fun c => (c, false) := by
    rw [marks_of_plain (by simpa using h), hi]
    simp [fold]
  have hscheme : marks (url.scheme, 0) = written false .idle (url.scheme.getD []) := by cases url.scheme <;> rfl
  have hftp : url.urlType ≠ .ftp := by simp [htype]
  have hpathMarks : marks (url.path, 8) = (url.path.getD []).map fun c => (c, false) := by
    rw [marks_of_plain (hne hpath)]
    simp [isHost, fold]
  have hhostMarks : marks (url.host, 6) = ((url.host.getD []).map inkTolower).map fun c => (c, false) := by
    rw [marks_of_plain (hne hhost)]
    rfl
  simp only [urlStrs, hftp, if_false, cons_append, nil_append, zipIdx_cons, zipIdx_nil, flatMap_cons, flatMap_nil,
    Nat.reduceAdd, zero_add, hscheme, hnone (s := url.user) (by omega), hnone (s := url.password) (by omega),
    hnone (s := url.params) (by omega), hnone (s := url.query) (by omega), hpathMarks, hhostMarks,
    hsep "://" 1 (by decide +kernel) rfl, hsep ":" 3 (by decide +kernel) rfl, hsep "@" 5 (by decide +kernel) rfl,
    hsep "/" 7 (by decide +kernel) rfl, hsep ";" 9 (by decide +kernel) rfl, hsep "?" 11 (by decide +kernel) rfl,
    fastRest, map_append, append_assoc, append_nil]

theorem urlMMHGetFast_eq (url : URLImpl (Option Bytes)) :
    urlMMHGetFast url = url.scheme.getD [] ++ fastRest url ++ portBytes url := by
  simp [urlMMHGetFast, fastRest, append_assoc]

theorem not_cut_of_fast {s t : Bytes} (h : s.length < bufSize) :
    ¬ Cut 0 (written false .idle s ++ t.map fun c => (c, false)) := by
  rw [cut_append, not_or]
  have hlen : (written false .idle s).length ≤ s.length := length_written_le
  constructor
  · rintro ⟨j, x, hj, hmod⟩
    have hlt : j < (written false .idle s).length := (List.getElem?_eq_some_iff.mp hj).1
    rw [zero_add, Nat.mod_eq_of_lt (by omega)] at hmod
    subst hmod
    rw [← head?_eq_getElem?] at hj
    exact absurd (written_idle_head _ hj) (by simp)
  · rintro ⟨j, x, hj, -⟩
    simp [getElem?_map] at hj

/-- **The fast path hashes what the general one does exactly if the scheme has no escapes.** -/
theorem fast_hash_eq_general_iff (hfast : takesFastPath urlHashMethod url) :
    urlMMHGetFast url = urlMD5GetGeneral url ↔ Plain (url.scheme.getD []) := by
  obtain ⟨out, hout, hfeeds⟩ := urlMD5GetGeneral_spec url
  have hlen : (url.scheme.getD []).length < bufSize := by
    simp only [takesFastPath, Bool.and_eq_true, decide_eq_true_eq] at hfast
    have hlt := hfast.1.1.2
    simp only [strLen] at hlt
    omega
  rw [marks_of_fast hfast] at hfeeds
  rw [hout, urlMMHGetFast_eq, append_left_inj, hfeeds.whole (not_cut_of_fast hlen),
    nil_append, map_append, map_map, Function.comp_def, map_id', append_left_inj, ← written_eq_self_iff]
  exact eq_comm

theorem fast_hash_of_http : urlMMHGetFast (urlOf (strBytes "http") (strBytes "Host") (strBytes "a/b")) =
      urlMD5GetGeneral (urlOf (strBytes "http") (strBytes "Host") (strBytes "a/b")) := by
  have hfast : takesFastPath 1 (urlOf (strBytes "http") (strBytes "Host") (strBytes "a/b")) := by
    decide +kernel
  refine (fast_hash_eq_general_iff hfast).mpr fun l r he => ?_
  have hmem : (37 : UInt8) ∈ strBytes "http" := by
    rw [show strBytes "http" = l ++ 37 :: r from he]
    simp
  exact absurd hmem (by decide +kernel)

/-- An unknown scheme has the type of `http`, and the test does not look at it. -/
theorem fast_hash_keeps_escapes : takesFastPath 1 (urlOf (strBytes "a%41") (strBytes "h") (strBytes "p")) = true ∧
      urlMMHGetFast (urlOf (strBytes "a%41") (strBytes "h") (strBytes "p")) ≠
        urlMD5GetGeneral (urlOf (strBytes "a%41") (strBytes "h") (strBytes "p")) := by
  decide +kernel

end Fast

end TrafficServer.URL
