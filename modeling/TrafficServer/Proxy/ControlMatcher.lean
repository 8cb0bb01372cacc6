import TrafficServer.Proxy.CacheControl
import TrafficServer.Proxy.ParentInit

/-!
# Lines of the rule tables

`NewEntry` takes the destination out of a parsed line and lets the record read the rest. `IpMatcher` clears
the label of the destination. `HostMatcher` and `RegexMatcher` clear the label before it; for the first item
of a line that is the word in front of the labels, which holds the number of items.
-/

namespace TrafficServer

open List MatcherUtils ControlBase MatcherLine ParentSelection CacheControl

namespace ControlMatcher

/-! ### New entries -/

/-- What a matcher is made with, and what the C library does: `inet_addr`, and the error text of `regcomp`
for a pattern that it does not take. -/
structure Matcher where
  matcherName : String
  fileName : String
  inetAddr : Bytes → BitVec 32
  regcomp : Bytes → Option String

/-- What an entry is looked up by. -/
inductive Dest where
  | host (name : Bytes)
  | domain (name : Bytes)
  | regex (pattern : Bytes)
  | hostRegex (pattern : Bytes)
  | ip (addr1 addr2 : BitVec 64)
deriving DecidableEq

/-- A class of records: the slots that `Init` works on, and what the table reads of a record. -/
structure RecordClass (σ ρ δ : Type) where
  new : σ
  zeroed : σ
  init : σ → MatcherLine → Except (String × σ) ρ
  mods : ρ → Option (List Modifier)
  lineNum : ρ → Nat
  data : ρ → δ

def clearLabel (i : Nat) (line : List (Option Bytes × Bytes)) :
    List (Option Bytes × Bytes) :=
  line.modify i fun x => (none, x.2)

def consumed (p : MatcherLine) : MatcherLine :=
  { p with line := clearLabel p.destEntry p.line, numEl := p.numEl - 1 }

def consumedBefore (p : MatcherLine) : MatcherLine :=
  match p.destEntry with
  -- the word before the labels is `num_el`
  | 0 => { p with numEl := 0 - 1 }
  | k + 1 => { p with line := clearLabel k p.line, numEl := p.numEl - 1 }

def matchData (p : MatcherLine) : Bytes := ((p.line[p.destEntry]?).map (·.2)).getD []

/-- `NewEntry` up to `Init`: the destination, and the line that `Init` is handed. -/
def takeDest (m : Matcher) (p : MatcherLine) : Except String (Dest × MatcherLine) :=
  let regexEntry dest :=
    match m.regcomp (matchData p) with
    | none => .ok (dest, consumedBefore p)
    | some reErr =>
      .error (m.matcherName ++ " regular expression error at line " ++ toString p.lineNum ++ " : " ++ reErr)
  match p.type with
  | .host => .ok (.host (matchData p), consumedBefore p)
  | .domain => .ok (.domain (matchData p), consumedBefore p)
  | .regex => regexEntry (.regex (matchData p))
  | .hostRegex => regexEntry (.hostRegex (matchData p))
  | .ip =>
    match extractIpRange m.inetAddr (matchData p) with
    | .ok (addr1, addr2) => .ok (.ip addr1 addr2, consumed p)
    | .error errPtr =>
      .error (m.matcherName ++ " " ++ errPtr ++ " at " ++ m.fileName ++ " line " ++ toString p.lineNum)
  -- `BuildTableFromString` does not call a matcher
  | .none =>
    .error (m.matcherName ++ " discarding " ++ m.fileName ++ " entry with unknown type at line " ++
      toString p.lineNum)

variable {σ ρ δ : Type}

/-- `NewEntry` on the next free slot. After an error of `Init`, `HostMatcher` zeroes the slot and the other
matchers keep it. -/
def newEntry (m : Matcher) (K : RecordClass σ ρ δ) (slot : σ) (p : MatcherLine) :
    Except (String × σ) (Dest × ρ) :=
  match takeDest m p with
  | .error msg => .error (msg, slot)
  | .ok (dest, line) =>
    match K.init slot line with
    | .ok r => .ok (dest, r)
    | .error (msg, slot) =>
      .error (msg, if p.type = .host ∨ p.type = .domain then K.zeroed else slot)

/-- `CacheControlRecord`. `Init` writes the directive of a slot before it is read, and `time_arg` wherever
`UpdateMatch` reads it, so nothing of a rejected line is left. -/
def cacheControl (inetAddr : Bytes → BitVec 32) :
    RecordClass Unit CacheControlRecord (CacheControlType × Int) where
  new := ()
  zeroed := ()
  init _ p :=
    match CacheControl.init inetAddr p with
    | .ok (r, _) => .ok r
    | .error msg => .error (msg, ())
  mods := (·.mods)
  lineNum := (·.lineNum)
  data r := (r.directive, r.timeArg)

def parentRecord (inetAddr : Bytes → BitVec 32) :
    RecordClass ParentSelection.Slot ParentSelection.Rule (ParentRR × Bool × List PRecord) where
  new := {}
  zeroed := .zeroed
  init := ParentSelection.init inetAddr
  mods r := r.record.mods
  lineNum r := r.record.lineNum
  data r := (r.record.roundRobin, r.record.goDirect, r.parents)

/-! ### Rule lines -/

def entry (x : Item) : Option Bytes × Bytes := (some x.label, x.value)

/-- The items of a line with one destination. -/
structure RuleLine where
  before : List Item
  dest : Item
  after : List Item
  isDest : MatcherLine.destType dest.label ≠ .none
  noDest : ∀ x ∈ before ++ after, MatcherLine.destType x.label = .none
  bound : (before ++ dest :: after).length ≤ MatcherLine.maxTokens

namespace RuleLine

variable {l l' : RuleLine}

def items (l : RuleLine) : List Item := l.before ++ l.dest :: l.after

def others (l : RuleLine) : List Item := l.before ++ l.after

def parsed (l : RuleLine) (lineNum : Nat) : MatcherLine :=
  ⟨MatcherLine.destType l.dest.label, l.before.length, l.items.length, l.items.map entry, lineNum⟩

variable {xs : List Item}

theorem items_perm_others (l : RuleLine) : l.items.Perm (l.dest :: l.others) := perm_middle

theorem others_perm (h : l'.items.Perm l.items) : l'.dest = l.dest ∧ l'.others.Perm l.others := by
  have hp : (l'.dest :: l'.others).Perm (l.dest :: l.others) :=
    (l'.items_perm_others.symm.trans h).trans l.items_perm_others
  rcases mem_cons.mp (hp.subset (mem_cons_self ..)) with heq | hmem
  · rw [heq] at hp
    exact ⟨heq, (perm_cons _).mp hp⟩
  · exact absurd (l.noDest _ hmem) l'.isDest

theorem exists_order (h : xs.Perm l.others) : ∃ l' : RuleLine, l'.items.Perm l.items ∧ l'.others = xs := by
  have hitems : (xs ++ [l.dest]).Perm l.items :=
    ((perm_append_singleton _ _).trans (h.cons _)).trans l.items_perm_others.symm
  refine ⟨⟨xs, l.dest, [], l.isDest, fun x hx => ?_, ?_⟩, hitems, append_nil xs⟩
  · exact l.noDest x (h.subset (by simpa using hx))
  · exact hitems.length_eq ▸ l.bound

end RuleLine

open RuleLine

/-! ### What a line means -/

/-- The destination of an item, where the matcher takes its value. -/
def destOf (m : Matcher) (x : Item) : Option Dest :=
  match MatcherLine.destType x.label with
  | .host => some (.host x.value)
  | .domain => some (.domain x.value)
  | .regex => if m.regcomp x.value = none then some (.regex x.value) else none
  | .hostRegex => if m.regcomp x.value = none then some (.hostRegex x.value) else none
  | .ip =>
    match extractIpRange m.inetAddr x.value with
    | .ok (addr1, addr2) => some (.ip addr1 addr2)
    | .error _ => none
  | .none => none

def bare (lineNum : Nat) (xs : List Item) : MatcherLine := ⟨.none, 0, xs.length, xs.map entry, lineNum⟩

/-- Whether a stored record changes the result of a request that no other record matched: the lookup of the
matcher finds its destination, and `UpdateMatch` takes it. -/
def affects (lookup : Dest → HttpRequestData → Bool) (K : RecordClass σ ρ δ) (e : Dest × ρ)
    (rd : HttpRequestData) : Bool :=
  lookup e.1 rd && checkForMatch (K.mods e.2) (K.lineNum e.2) rd (-1)

/-- **A line means what it lists**, on the slot it is read into: for every order of its items,
* only the destination is taken from the line before `Init`;
* the line is accepted if its destination is taken and its other items alone are, on a new record;
* the record does what these items alone say;
* it affects an HTTP request exactly if the destination matches and all modifiers of the line hold. -/
structure LineMeans (m : Matcher) (lookup : Dest → HttpRequestData → Bool) (K : RecordClass σ ρ δ)
    (slot : σ) (lineNum : Nat) (l : RuleLine) : Prop where
  frame (l' : RuleLine) : l'.items.Perm l.items → ∀ dest line,
    takeDest m (l'.parsed lineNum) = .ok (dest, line) → line = consumed (l'.parsed lineNum)
  accepted (l' : RuleLine) : l'.items.Perm l.items →
    ((∃ e, newEntry m K slot (l'.parsed lineNum) = .ok e) ↔
      destOf m l.dest ≠ none ∧ ∃ r, K.init K.new (bare lineNum l.others) = .ok r)
  effect (l' : RuleLine) : l'.items.Perm l.items → ∀ e r,
    newEntry m K slot (l'.parsed lineNum) = .ok e → K.init K.new (bare lineNum l.others) = .ok r →
      K.data e.2 = K.data r
  meaning (l' : RuleLine) : l'.items.Perm l.items → ∀ e,
    newEntry m K slot (l'.parsed lineNum) = .ok e → ∀ rd : HttpRequestData, rd.hdr = true →
      (affects lookup K e rd = true ↔
        (∃ dest, destOf m l.dest = some dest ∧ lookup dest rd = true) ∧
        ∀ x ∈ l.others, ∀ md, ReadsAs m.inetAddr x md → Holds rd md)

/-! ### The line that `Init` is handed -/

section Handed
variable {m : Matcher} {lookup : Dest → HttpRequestData → Bool} {K : RecordClass σ ρ δ} {slot : σ}
  {lineNum : Nat} {l l' : RuleLine} {dest : Dest} {line : MatcherLine}

theorem matchData_parsed : matchData (l.parsed lineNum) = l.dest.value := by simp [matchData, parsed, items, entry]

theorem takeDest_ok_iff : takeDest m (l.parsed lineNum) = .ok (dest, line) ↔ destOf m l.dest = some dest ∧
      line = if destType l.dest.label = .ip then consumed (l.parsed lineNum)
        else consumedBefore (l.parsed lineNum) := by
  have htype : (l.parsed lineNum).type = destType l.dest.label := rfl
  simp only [takeDest, destOf, matchData_parsed, htype]
  cases destType l.dest.label with
  | none => simp
  | host => simp [eq_comm]
  | domain => simp [eq_comm]
  | regex => cases m.regcomp l.dest.value <;> simp [eq_comm]
  | hostRegex => cases m.regcomp l.dest.value <;> simp [eq_comm]
  | ip => rcases extractIpRange m.inetAddr l.dest.value with msg | ⟨addr1, addr2⟩ <;> simp [eq_comm]

theorem clearLabel_append (xs ys : List Item) (x : Item) : clearLabel xs.length ((xs ++ x :: ys).map entry) =
      xs.map entry ++ (none, x.value) :: ys.map entry := by
  induction xs with
  | nil => rfl
  | cons z xs ih => exact congrArg (entry z :: ·) ih

theorem labelled_map_entry (xs : List Item) : labelled (xs.map entry) = xs := by
  induction xs with
  | nil => rfl
  | cons x xs ih => exact congrArg (x :: ·) ih

theorem consumed_parsed (l : RuleLine) (lineNum : Nat) : labelled (consumed (l.parsed lineNum)).line = l.others ∧
      (consumed (l.parsed lineNum)).numEl = l.others.length := by
  constructor
  · rw [consumed, parsed, items, clearLabel_append, labelled_append, labelled_cons_none,
      labelled_map_entry, labelled_map_entry]
    rfl
  · simp only [consumed, parsed, items, others, length_append, length_cons]
    omega

/-- **`HostMatcher` and `RegexMatcher` never take the destination out of the line.** -/
theorem consumedBefore_ne_consumed : consumedBefore (l.parsed lineNum) ≠ consumed (l.parsed lineNum) := by
  intro h
  obtain ⟨hlabels, hnum⟩ := consumed_parsed l lineNum
  rw [← h] at hlabels hnum
  rcases l.before.eq_nil_or_concat with hnil | ⟨bs, b, hb⟩
  · -- the count is lost
    have : (consumedBefore (l.parsed lineNum)).numEl = -1 := by simp [consumedBefore, parsed, hnil]
    omega
  · -- the destination keeps its label, the item before it loses its own
    have hline : (consumedBefore (l.parsed lineNum)).line =
        clearLabel bs.length ((bs ++ b :: (l.dest :: l.after)).map entry) := by
      simp [consumedBefore, parsed, items, hb]
    rw [hline, clearLabel_append, labelled_append, labelled_cons_none, labelled_map_entry,
      labelled_map_entry] at hlabels
    have hmem : l.dest ∈ l.others := hlabels ▸ mem_append_right _ (mem_cons_self ..)
    exact l.isDest (l.noDest _ hmem)

theorem newEntry_ok_iff {p : MatcherLine} {r : ρ} : newEntry m K slot p = .ok (dest, r) ↔
      ∃ line, takeDest m p = .ok (dest, line) ∧ K.init slot line = .ok r := by
  rw [newEntry]
  rcases takeDest m p with msg | ⟨dest', line⟩
  · simp
  · rcases hinit : K.init slot line with ⟨msg, slot'⟩ | r'
    · simp [hinit]
    · simp [hinit]

/-! ### Reduction to the record -/

/-- The slot reads the line as a new record reads the items alone. -/
def Agrees (K : RecordClass σ ρ δ) (slot : σ) (lineNum : Nat) (others : List Item) (p : MatcherLine) :
    Prop :=
  ((∃ r, K.init slot p = .ok r) ↔ ∃ r, K.init K.new (bare lineNum others) = .ok r) ∧
    ∀ r r', K.init slot p = .ok r → K.init K.new (bare lineNum others) = .ok r' → K.data r = K.data r'

/-- With a right count, the modifiers of a record are those of its items. -/
def KeepsModifiers (inetAddr : Bytes → BitVec 32) (K : RecordClass σ ρ δ) : Prop :=
  ∀ slot (p : MatcherLine) r (rd : HttpRequestData), p.numEl = (labelled p.line).length →
    K.init slot p = .ok r →
    rd.hdr = true → (checkModifiers (K.mods r) rd = true ↔
      ∀ x ∈ labelled p.line, ∀ md, ReadsAs inetAddr x md → Holds rd md)

/-- **Only lines with an address mean what they list**, where the record reads their items alike. -/
theorem lineMeans_iff (hK : KeepsModifiers m.inetAddr K) : LineMeans m lookup K slot lineNum l ↔
      destOf m l.dest = none ∨ destType l.dest.label = .ip ∧ ∀ l' : RuleLine, l'.items.Perm l.items →
          Agrees K slot lineNum l.others (consumed (l'.parsed lineNum)) := by
  -- what an order of the line is read as, if the destination is one of an address
  have hentry (l' : RuleLine) (hp : l'.items.Perm l.items) (hip : destType l.dest.label = .ip) (dest : Dest) (r : ρ) :
      newEntry m K slot (l'.parsed lineNum) = .ok (dest, r) ↔
        destOf m l.dest = some dest ∧ K.init slot (consumed (l'.parsed lineNum)) = .ok r := by
    obtain ⟨hdest, -⟩ := others_perm hp
    simp only [newEntry_ok_iff, takeDest_ok_iff, hdest, hip, if_true]
    exact ⟨fun ⟨_, ⟨hd, hline⟩, hr⟩ => ⟨hd, hline ▸ hr⟩, fun ⟨hd, hr⟩ => ⟨_, ⟨hd, rfl⟩, hr⟩⟩
  constructor
  · intro h
    refine or_iff_not_imp_left.mpr fun hsome => ?_
    obtain ⟨dest, hd⟩ := Option.ne_none_iff_exists'.mp hsome
    have hip : destType l.dest.label = .ip := by
      by_contra hno
      have htake : takeDest m (l.parsed lineNum) = .ok (dest, consumedBefore (l.parsed lineNum)) :=
        takeDest_ok_iff.mpr ⟨hd, (if_neg hno).symm⟩
      exact consumedBefore_ne_consumed (h.frame l (.refl _) _ _ htake)
    refine ⟨hip, fun l' hp => ⟨?_, fun r r' hr hr' => ?_⟩⟩
    · have hacc := h.accepted l' hp
      rw [and_iff_right hsome] at hacc
      rw [← hacc]
      refine ⟨fun ⟨r, hr⟩ => ⟨(dest, r), (hentry l' hp hip dest r).mpr ⟨hd, hr⟩⟩, ?_⟩
      rintro ⟨⟨dest', r⟩, he⟩
      exact ⟨r, ((hentry l' hp hip dest' r).mp he).2⟩
    · exact h.effect l' hp (dest, r) r' ((hentry l' hp hip dest r).mpr ⟨hd, hr⟩) hr'
  · rintro (hnone | ⟨hip, hagree⟩)
    · -- no order of the line comes to `Init`
      have hno (l' : RuleLine) (hp : l'.items.Perm l.items) (dest : Dest) (line : MatcherLine) :
          ¬takeDest m (l'.parsed lineNum) = .ok (dest, line) := by
        rw [takeDest_ok_iff, (others_perm hp).1, hnone]
        simp
      have hrej (l' : RuleLine) (hp : l'.items.Perm l.items) (e : Dest × ρ) :
          ¬newEntry m K slot (l'.parsed lineNum) = .ok e := fun he => by
        obtain ⟨line, htake, -⟩ := newEntry_ok_iff.mp he
        exact hno l' hp _ _ htake
      exact ⟨fun l' hp dest line h => absurd h (hno l' hp dest line),
        fun l' hp => iff_of_false (fun ⟨e, he⟩ => hrej l' hp e he) fun h => h.1 hnone,
        fun l' hp e _ he => absurd he (hrej l' hp e), fun l' hp e he => absurd he (hrej l' hp e)⟩
    · refine ⟨fun l' hp dest line h => ?_, fun l' hp => ?_, fun l' hp e r he hr => ?_, fun l' hp e he rd hdr => ?_⟩
      · have hline := (takeDest_ok_iff.mp h).2
        rwa [(others_perm hp).1, if_pos hip] at hline
      · rw [← (hagree l' hp).1]
        constructor
        · rintro ⟨⟨dest, r⟩, he⟩
          obtain ⟨hd, hr⟩ := (hentry l' hp hip dest r).mp he
          exact ⟨by simp [hd], r, hr⟩
        · rintro ⟨hsome, r, hr⟩
          obtain ⟨dest, hd⟩ := Option.ne_none_iff_exists'.mp hsome
          exact ⟨(dest, r), (hentry l' hp hip dest r).mpr ⟨hd, hr⟩⟩
      · exact (hagree l' hp).2 e.2 r ((hentry l' hp hip e.1 e.2).mp he).2 hr
      · obtain ⟨hd, hr⟩ := (hentry l' hp hip e.1 e.2).mp he
        obtain ⟨hlabels, hnum⟩ := consumed_parsed l' lineNum
        have hmods := hK slot _ e.2 rd (hlabels.symm ▸ hnum) hr hdr
        have hothers := (others_perm hp).2
        simp only [hlabels, hothers.mem_iff] at hmods
        simp [affects, checkForMatch, hmods, hd]

end Handed

/-! ### The two tables -/

section Tables
variable {inetAddr : Bytes → BitVec 32} {lineNum : Nat} {others : List Item} {p : MatcherLine}

theorem bare_labelled (lineNum : Nat) (xs : List Item) :
    labelled (bare lineNum xs).line = xs ∧ (bare lineNum xs).numEl = xs.length :=
  ⟨labelled_map_entry xs, rfl⟩

theorem cacheControl_init_ok_iff {r : CacheControlRecord} :
    (cacheControl inetAddr).init () p = .ok r ↔ ∃ p', init inetAddr p = .ok (r, p') := by
  simp only [cacheControl]
  rcases init inetAddr p with msg | ⟨r', p'⟩
  · simp
  · simp

theorem cacheControl_keepsModifiers : KeepsModifiers inetAddr (cacheControl inetAddr) := by
  intro slot p r rd hnum hr hdr
  obtain ⟨p', hinit⟩ := cacheControl_init_ok_iff.mp hr
  obtain ⟨x, M, hperm, hd, hmods⟩ := init_ok rfl hnum hinit
  have hx (md : Modifier) : ¬ReadsAs inetAddr x md := fun h => by
    rw [directiveOf_of_readsAs h] at hd
    cases hd
  refine (hmods.checkModifiers_iff hdr).trans ?_
  simp [hperm.mem_iff, hx]

theorem cacheControl_agrees (hperm : (labelled p.line).Perm others)
    (hnum : p.numEl = (labelled p.line).length) : Agrees (cacheControl inetAddr) () lineNum others p := by
  -- one order accepted gives the same record for another
  have key {p q : MatcherLine} (hpq : (labelled p.line).Perm (labelled q.line))
      (hp : p.numEl = (labelled p.line).length) (hq : q.numEl = (labelled q.line).length)
      {r : CacheControlRecord} (hr : (cacheControl inetAddr).init () p = .ok r) :
      ∃ r', (cacheControl inetAddr).init () q = .ok r' ∧
        (cacheControl inetAddr).data r' = (cacheControl inetAddr).data r := by
    obtain ⟨p', hinit⟩ := cacheControl_init_ok_iff.mp hr
    obtain ⟨x, M, hx, hd, hmods⟩ := init_ok rfl hp hinit
    obtain ⟨r', q', hq', hdata⟩ := exists_init_ok rfl hq (hpq.symm.trans hx) hd (exists_storedAs_iff.mp ⟨_, hmods⟩)
    exact ⟨r', cacheControl_init_ok_iff.mpr ⟨q', hq'⟩, hdata⟩
  obtain ⟨hb, hbnum⟩ := bare_labelled lineNum others
  have hbnum' : (bare lineNum others).numEl = (labelled (bare lineNum others).line).length := by rw [hb, hbnum]
  have hpb : (labelled p.line).Perm (labelled (bare lineNum others).line) := hb.symm ▸ hperm
  refine ⟨⟨fun ⟨r, hr⟩ => ?_, fun ⟨r, hr⟩ => ?_⟩, fun r r' hr hr' => ?_⟩
  · obtain ⟨r', hr', -⟩ := key hpb hnum hbnum' hr
    exact ⟨r', hr'⟩
  · obtain ⟨r', hr', -⟩ := key hpb.symm hbnum' hnum hr
    exact ⟨r', hr'⟩
  · obtain ⟨r'', hr'', hdata⟩ := key hpb hnum hbnum' hr
    rw [Except.ok.inj (hr'.symm.trans hr'')]
    exact hdata.symm

theorem parentRecord_keepsModifiers : KeepsModifiers inetAddr (parentRecord inetAddr) := by
  intro slot p r rd hnum hr hdr
  obtain ⟨-, -, -, mods, hmods, rfl⟩ := (init_ok_iff rfl hnum).mp hr
  refine (hmods.checkModifiers_iff hdr).trans ?_
  simp only [mem_filter, Bool.not_eq_true', and_imp]
  exact ⟨fun h x hx md hread => h x hx (isDirective_of_readsAs hread) md hread, fun h x hx _ => h x hx⟩

theorem parentRecord_data {r : ParentSelection.Rule} (hx : labelled p.line = xs) (hnum : p.numEl = xs.length)
    (hr : (parentRecord inetAddr).init slot p = .ok r) : (parentRecord inetAddr).data r = (slot.final xs).data := by
  obtain ⟨-, -, -, mods, -, rfl⟩ := (init_ok_iff hx hnum).mp hr
  rfl

theorem parentRecord_agrees_iff (hx : labelled p.line = xs) (hnum : p.numEl = xs.length) :
    Agrees (parentRecord inetAddr) slot lineNum others p ↔ ParentSelection.SameReading inetAddr slot others xs := by
  obtain ⟨hb, hbnum⟩ := bare_labelled lineNum others
  have hacc : (∃ r, (parentRecord inetAddr).init slot p = .ok r) ↔
      ParentSelection.Accepts inetAddr slot xs := exists_init_ok_iff hx hnum
  have hacc' : (∃ r, (parentRecord inetAddr).init (parentRecord inetAddr).new (bare lineNum others) = .ok r) ↔
      ParentSelection.Accepts inetAddr {} others := exists_init_ok_iff hb hbnum
  rw [Agrees, ParentSelection.SameReading, hacc, hacc']
  refine and_congr_right fun hiff => ⟨fun h ha => ?_, fun h r r' hr hr' => ?_⟩
  · obtain ⟨r, hr⟩ := hacc.mpr ha
    obtain ⟨r', hr'⟩ := hacc'.mpr (hiff.mp ha)
    rw [← parentRecord_data hx hnum hr, h r r' hr hr', parentRecord_data hb hbnum hr']
    rfl
  · rw [parentRecord_data hx hnum hr, h (hacc.mp ⟨r, hr⟩), parentRecord_data hb hbnum hr']
    rfl

end Tables

/-- **Which lines mean what they list.** A value that the destination does not take is rejected in every
order. Apart from these, a line of `cache.config` means what it lists exactly if its destination is an
address, and one of `parent.config` if moreover its items and its slot are settled. -/
theorem rule_line_means_iff (m : Matcher) (lookup : Dest → HttpRequestData → Bool)
    (slot : ParentSelection.Slot) (lineNum : Nat) (l : RuleLine) :
    (LineMeans m lookup (cacheControl m.inetAddr) () lineNum l ↔
      destOf m l.dest = none ∨ destType l.dest.label = .ip) ∧
    (LineMeans m lookup (parentRecord m.inetAddr) slot lineNum l ↔ destOf m l.dest = none ∨
        destType l.dest.label = .ip ∧ ParentSelection.Settled m.inetAddr slot l.others) := by
  constructor
  · rw [lineMeans_iff cacheControl_keepsModifiers]
    refine or_congr_right (and_iff_left fun l' hp => ?_)
    obtain ⟨hlabels, hnum⟩ := consumed_parsed l' lineNum
    exact cacheControl_agrees (hlabels.symm ▸ (others_perm hp).2) (hlabels.symm ▸ hnum)
  · rw [lineMeans_iff parentRecord_keepsModifiers, ← same_iff_settled]
    refine or_congr_right (and_congr_right fun _ => ⟨fun h xs hp => ?_, fun h l' hp => ?_⟩)
    · obtain ⟨l', hl', rfl⟩ := exists_order hp
      obtain ⟨hlabels, hnum⟩ := consumed_parsed l' lineNum
      exact (parentRecord_agrees_iff hlabels hnum).mp (h l' hl')
    · obtain ⟨hlabels, hnum⟩ := consumed_parsed l' lineNum
      exact (parentRecord_agrees_iff hlabels hnum).mpr (h _ (others_perm hp).2)

def hostFirst : RuleLine where
  before := []
  dest := ⟨strBytes "dest_host", strBytes "h"⟩
  after := [⟨strBytes "action", strBytes "never-cache"⟩, ⟨strBytes "port", strBytes "80"⟩]
  isDest := by decide +kernel
  noDest := by decide +kernel
  bound := by decide +kernel

def hostSecond : RuleLine where
  before := [⟨strBytes "action", strBytes "never-cache"⟩]
  dest := ⟨strBytes "dest_host", strBytes "h"⟩
  after := [⟨strBytes "port", strBytes "80"⟩]
  isDest := hostFirst.isDest
  noDest := hostFirst.noDest
  bound := hostFirst.bound

def request8080 : HttpRequestData :=
  ⟨true, 8080, none, [], [], 0, 0, 0, 80, strBytes "h", [], none⟩

/-- A matcher of `cache.config` with a library that compiles every pattern. -/
def anyMatcher : Matcher := ⟨"[CacheControl]", "cache.config", fun _ => 0, fun _ => none⟩

/-- With the host in front, the port is dropped and the rule decides a request for another port. With the
host in the second place, the same items are rejected. -/
theorem host_line_loses_port :
    (∃ e, newEntry anyMatcher (cacheControl anyMatcher.inetAddr) () (hostFirst.parsed 1) = .ok e ∧
      affects (fun _ _ => true) (cacheControl anyMatcher.inetAddr) e request8080 = true) ∧
    (∃ x ∈ hostFirst.others, ∃ md, ReadsAs anyMatcher.inetAddr x md ∧ ¬Holds request8080 md) ∧
    hostSecond.items.Perm hostFirst.items ∧
    ∀ e, newEntry anyMatcher (cacheControl anyMatcher.inetAddr) () (hostSecond.parsed 1) ≠ .ok e := by
  have hfirst : newEntry anyMatcher (cacheControl anyMatcher.inetAddr) () (hostFirst.parsed 1) =
      .ok (.host (strBytes "h"), ⟨.neverCache, 0, 1, none⟩) := by decide +kernel
  have hport : ReadsAs anyMatcher.inetAddr ⟨strBytes "port", strBytes "80"⟩ (.port 80 80) := by
    rw [ReadsAs]
    decide +kernel
  refine ⟨⟨_, hfirst, by decide⟩, ⟨_, by simp [hostFirst, others], _, hport, ?_⟩, .swap .., ?_⟩
  · simp [Holds, request8080]
  · intro e he
    cases he

end ControlMatcher

end TrafficServer
