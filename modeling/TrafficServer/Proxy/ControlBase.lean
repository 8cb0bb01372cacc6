import TrafficServer.Proxy.MatcherUtils

/-!
# Modifiers of rules

`ControlBase` keeps the modifiers of a rule and checks them against a request. A request is given by
what the checks read of it.
-/

namespace TrafficServer

open List HdrToken MatcherUtils

/-- What the matchers read of a request. `src_ip` is in host order; the scheme is the index of a
well-known string. Without a header the request is one of SOCKS. -/
structure HttpRequestData where
  hdr : Bool
  port : Int
  scheme : Option Nat
  path : Bytes
  method : Bytes
  timeOfDay : Int
  srcIp : BitVec 32
  destIp : BitVec 32
  incomingPort : Nat
  hostname : Bytes
  url : Bytes
  tag : Option Bytes

inductive Modifier where
  | port (startPort endPort : Int)
  | iport (port : Nat)
  | scheme (wks : Nat)
  | pre (data : Bytes)
  | suffix (data : Bytes)
  | method (data : Bytes)
  | time (startTime endTime : Int)
  | srcIp (startAddr endAddr : BitVec 64)
  | tag (data : Bytes)
deriving DecidableEq

variable {ys : List Item}

namespace ControlBase

section Process
variable (inetAddr : Bytes → BitVec 32)

def processPort (val : Bytes) : Except String Modifier :=
  match tokenize "-" val with
  | [] => .error nullToken
  | [tok] =>
    match sscanfInt tok with
    | none => .error "Invalid start port"
    | some startPort => .ok (.port startPort startPort)
  | [tok, tok'] =>
    match sscanfInt tok, sscanfInt tok' with
    | none, _ => .error "Invalid start port"
    | some _, none => .error "Invalid end port"
    | some startPort, some endPort =>
      if endPort < startPort then .error "Malformed Range: end port < start port"
      else .ok (.port startPort endPort)
  | _ => .error "Malformed Range"

def scanTime (s : Bytes) : Option (Int × Int × Int) := do
  let (hour, s) ← scanInt s
  if s.head? ≠ some 58 then none
  else do
    let (min, s) ← scanInt s.tail
    match (if s.head? = some 58 then scanInt s.tail else none) with
    | some (sec, _) => some (hour, min, sec)
    | none => some (hour, min, 0)

def todToSeconds (s : Bytes) : Except String Int :=
  match scanTime s with
  | none => .error "Malformed time specified"
  | some (hour, min, sec) =>
    if ¬(hour ≥ 0 ∧ hour ≤ 23) then .error "Illegal hour specification"
    else if ¬(min ≥ 0 ∧ min ≤ 59) then .error "Illegal minute specification"
    else if ¬(sec ≥ 0 ∧ sec ≤ 59) then .error "Illegal second specification"
    else .ok ((hour * 60 + min) * 60 + sec)

def processTimeOfDay (val : Bytes) : Except String Modifier :=
  match tokenize "-" val with
  | [] => .error nullToken
  | [_] => .error "End time not specified"
  | [tok, tok'] => do
    let startTime ← todToSeconds tok
    let endTime ← todToSeconds tok'
    .ok (.time startTime endTime)
  | _ => .error "Malformed Range"

def processSrcIp (val : Bytes) : Except String Modifier := do
  let (startAddr, endAddr) ← extractIpRange inetAddr val
  .ok (.srcIp startAddr endAddr)

def processModifier (label val : Bytes) : Except String Modifier :=
  if caseEq label "port" then processPort val
  else if caseEq label "iport" then
    -- the number is kept as an unsigned int
    match sscanfInt val with
    | some n => .ok (.iport (n % 2 ^ 32).toNat)
    | none => .error "Bad incoming port"
  else if caseEq label "scheme" then
    match hdrtokenTokenize val with
    | some i => .ok (.scheme i)
    | none => .error "Unknown scheme"
  else if caseEq label "method" then .ok (.method val)
  else if caseEq label "prefix" then .ok (.pre val)
  else if caseEq label "suffix" then .ok (.suffix val)
  else if caseEq label "src_ip" then processSrcIp inetAddr val
  else if caseEq label "time" then processTimeOfDay val
  else if caseEq label "tag" then .ok (.tag val)
  else .error "Unknown modifier"

def processModifiers : List (Option Bytes × Bytes) → Except String (List Modifier)
  | [] => .ok []
  | (none, _) :: line => processModifiers line
  | (some label, val) :: line => do
    let m ← processModifier inetAddr label val
    let ms ← processModifiers line
    .ok (m :: ms)

end Process

/-! ### Checks -/

def ptrLenNcmp : Bytes → Bytes → Bool
  | _, [] => true
  | [], _ :: _ => false
  | p1c :: p1, strc :: str => p1c == strc && ptrLenNcmp p1 str

def Modifier.isTag : Modifier → Bool
  | .tag _ => true
  | _ => false

def checkModifier (rd : HttpRequestData) : Modifier → Bool
  | .port startPort endPort => !(rd.port < startPort || rd.port > endPort)
  | .iport port => rd.incomingPort = port
  | .scheme wks => rd.scheme = some wks
  | .pre data => ptrLenNcmp rd.path (if data.head? = some 47 then data.tail else data)
  | .suffix data =>
    !(rd.path.length < data.length || lower (rd.path.drop (rd.path.length - data.length)) ≠ lower data)
  | .method data => lower rd.method = lower data
  | .time startTime endTime => !(rd.timeOfDay < startTime || rd.timeOfDay > endTime)
  | .srcIp startAddr endAddr => !(rd.srcIp.setWidth 64 < startAddr || rd.srcIp.setWidth 64 > endAddr)
  | .tag data => !(rd.tag.any fun t => t ≠ data)

/-- `CheckModifiers`; `mods` is `none` where `mod_elements` is null. -/
def checkModifiers (mods : Option (List Modifier)) (rd : HttpRequestData) : Bool :=
  if !rd.hdr then true
  else
    match mods with
    | none => true
    | some mods =>
      if rd.tag = none ∧ mods.any Modifier.isTag then false else mods.all (checkModifier rd)

def checkForMatch (mods : Option (List Modifier)) (lineNum : Nat) (rd : HttpRequestData)
    (lastNumber : Int) : Bool :=
  (lastNumber < 0 || lastNumber > lineNum) && checkModifiers mods rd

/-! ### Meaning -/

/-- **What a modifier asks of a request.** -/
def Holds (rd : HttpRequestData) : Modifier → Prop
  | .port startPort endPort => startPort ≤ rd.port ∧ rd.port ≤ endPort
  | .iport port => rd.incomingPort = port
  | .scheme wks => rd.scheme = some wks
  | .pre data => (if data.head? = some 47 then data.tail else data) <+: rd.path
  | .suffix data => lower data <:+ lower rd.path
  | .method data => lower rd.method = lower data
  | .time startTime endTime => startTime ≤ rd.timeOfDay ∧ rd.timeOfDay ≤ endTime
  | .srcIp startAddr endAddr => startAddr ≤ rd.srcIp.setWidth 64 ∧ rd.srcIp.setWidth 64 ≤ endAddr
  | .tag data => rd.tag = some data

variable {rd : HttpRequestData}

theorem ptrLenNcmp_iff (path data : Bytes) : ptrLenNcmp path data = true ↔ data <+: path := by
  fun_induction ptrLenNcmp path data with
  | case1 => simp
  | case2 => simp
  | case3 p1c p1 strc str ih =>
    rw [Bool.and_eq_true, beq_iff_eq, ih, cons_prefix_cons]
    exact and_congr_left' eq_comm

theorem lower_drop (s : Bytes) (n : Nat) : lower (s.drop n) = (lower s).drop n := by simp [lower]

theorem checkSuffix_iff (path data : Bytes) :
    (!(path.length < data.length || lower (path.drop (path.length - data.length)) ≠ lower data)) = true ↔
      lower data <:+ lower path := by
  have hlen (s : Bytes) : (lower s).length = s.length := by simp [lower]
  simp only [Bool.not_eq_true', Bool.or_eq_false_iff, decide_eq_false_iff_not, not_lt, not_not, ne_eq, lower_drop]
  constructor
  · rintro ⟨-, h⟩
    exact h ▸ drop_suffix _ _
  · intro h
    have hle := h.length_le
    rw [hlen, hlen] at hle
    refine ⟨hle, ?_⟩
    rw [← hlen path, ← hlen data]
    exact (suffix_iff_eq_drop.mp h).symm

theorem checkModifier_iff {m : Modifier} (h : rd.tag ≠ none ∨ Modifier.isTag m = false) :
    checkModifier rd m = true ↔ Holds rd m := by
  cases m with
  | port a b => simp [checkModifier, Holds]
  | iport a => simp [checkModifier, Holds]
  | scheme a => simp [checkModifier, Holds]
  | pre data => exact ptrLenNcmp_iff _ _
  | suffix data => exact checkSuffix_iff _ _
  | method data => simp [checkModifier, Holds]
  | time a b => simp [checkModifier, Holds]
  | srcIp a b => simp [checkModifier, Holds]
  | tag data =>
    obtain ⟨t, ht⟩ := Option.ne_none_iff_exists'.mp (h.resolve_right (by simp [Modifier.isTag]))
    simp [checkModifier, Holds, ht]

theorem checkModifiers_iff (hdr : rd.hdr = true) (mods : List Modifier) :
    checkModifiers (some mods) rd = true ↔ ∀ m ∈ mods, Holds rd m := by
  rw [checkModifiers, hdr, if_neg (by decide)]
  split_ifs with htag
  · obtain ⟨m, hm, hmtag⟩ := any_eq_true.mp htag.2
    refine iff_of_false (by decide) fun h => ?_
    cases m with
    | tag data =>
      have := h _ hm
      rw [Holds, htag.1] at this
      cases this
    | _ => cases hmtag
  · rw [all_eq_true]
    refine forall₂_congr fun m hm => checkModifier_iff ?_
    by_cases h : rd.tag = none
    · refine .inr ?_
      by_contra hm'
      exact htag ⟨h, any_eq_true.mpr ⟨m, hm, by simpa using hm'⟩⟩
    · exact .inl h

theorem checkModifiers_none : checkModifiers none rd = true := by
  rw [checkModifiers]
  split <;> rfl

/-! ### Reading the labels that are left -/

def labelled (line : List (Option Bytes × Bytes)) : List Item :=
  line.filterMap fun x => x.1.map fun label => ⟨label, x.2⟩

@[simp] theorem labelled_nil : labelled [] = [] := rfl

@[simp] theorem labelled_cons_none (val : Bytes) (line : List (Option Bytes × Bytes)) :
    labelled ((none, val) :: line) = labelled line := rfl

@[simp] theorem labelled_cons_some (label val : Bytes) (line : List (Option Bytes × Bytes)) :
    labelled ((some label, val) :: line) = ⟨label, val⟩ :: labelled line := rfl

theorem labelled_append (line line' : List (Option Bytes × Bytes)) :
    labelled (line ++ line') = labelled line ++ labelled line' :=
  filterMap_append

/-- The item is a modifier, and this is what it is read as. -/
def ReadsAs (inetAddr : Bytes → BitVec 32) (x : Item) (m : Modifier) : Prop :=
  processModifier inetAddr x.label x.value = .ok m

section Read
variable {inetAddr : Bytes → BitVec 32} {line : List (Option Bytes × Bytes)}
  {mods : List Modifier} {x : Item} {m : Modifier}

theorem bind_eq_ok_iff {ε α β : Type} {r : Except ε α} {f : α → Except ε β} {b : β} :
    (r >>= f) = .ok b ↔ ∃ a, r = .ok a ∧ f a = .ok b := by
  rcases r with e | a
  · simp [bind, Except.bind]
  · simp [bind, Except.bind]

theorem processModifiers_ok_iff :
    processModifiers inetAddr line = .ok mods ↔ List.Forall₂ (ReadsAs inetAddr) (labelled line) mods := by
  induction line generalizing mods with
  | nil => rw [processModifiers, labelled_nil, List.forall₂_nil_left_iff, Except.ok.injEq, eq_comm]
  | cons y line ih =>
    obtain ⟨_ | label, val⟩ := y
    · exact ih
    · rw [processModifiers, labelled_cons_some, List.forall₂_cons_left_iff]
      constructor
      · intro h
        obtain ⟨m, hm, h⟩ := bind_eq_ok_iff.mp h
        obtain ⟨ms, hms, h⟩ := bind_eq_ok_iff.mp h
        exact ⟨m, ms, hm, ih.mp hms, (Except.ok.inj h).symm⟩
      · rintro ⟨m, ms, hm, hms, rfl⟩
        rw [show processModifier inetAddr label val = .ok m from hm, ih.mpr hms]
        rfl

/-- What a record keeps of its modifiers: no array without items. -/
def StoredAs (inetAddr : Bytes → BitVec 32) (ys : List Item) (mods : Option (List Modifier)) : Prop :=
  List.Forall₂ (ReadsAs inetAddr) ys (mods.getD []) ∧ (mods = none ↔ ys = [])

theorem StoredAs.checkModifiers_iff {mods : Option (List Modifier)}
    (h : StoredAs inetAddr ys mods) (hdr : rd.hdr = true) :
    checkModifiers mods rd = true ↔ ∀ y ∈ ys, ∀ m, ReadsAs inetAddr y m → Holds rd m := by
  have hread : checkModifiers mods rd = true ↔ ∀ m ∈ mods.getD [], Holds rd m := by
    cases mods with
    | none => simp [checkModifiers_none]
    | some mods => exact ControlBase.checkModifiers_iff hdr mods
  rw [hread]
  obtain ⟨hread, -⟩ := h
  generalize mods.getD [] = ms at hread
  induction hread with
  | nil => simp
  | cons hym _ ih =>
    -- an item is read in one way only
    rw [forall_mem_cons, forall_mem_cons]
    exact and_congr ⟨fun h m hm => Except.ok.inj (hym.symm.trans hm) ▸ h, fun h => h _ hym⟩ ih

theorem exists_storedAs_iff : (∃ mods, StoredAs inetAddr ys mods) ↔ ∀ y ∈ ys, ∃ m, ReadsAs inetAddr y m := by
  constructor
  · rintro ⟨mods, h, -⟩
    generalize mods.getD [] = ms at h
    induction h with
    | nil => simp
    | cons hym _ ih => exact forall_mem_cons.mpr ⟨⟨_, hym⟩, ih⟩
  · intro h
    have hread : ∃ ms, List.Forall₂ (ReadsAs inetAddr) ys ms := by
      induction ys with
      | nil => exact ⟨[], .nil⟩
      | cons y ys ih =>
        obtain ⟨m, hm⟩ := h y (mem_cons_self ..)
        obtain ⟨ms, hms⟩ := ih fun z hz => h z (mem_cons_of_mem _ hz)
        exact ⟨m :: ms, .cons hm hms⟩
    obtain ⟨ms, hms⟩ := hread
    cases ys with
    | nil => exact ⟨none, .nil, by simp⟩
    | cons y ys => exact ⟨some ms, hms, by simp⟩

theorem readModifiers_ok_iff {ε ρ : Type} {f : Option (List Modifier) → ρ} {g : String → ε} {numEl : Int}
    {r : ρ} (hline : labelled line = ys) (hnum : numEl = ys.length) : (if numEl > 0 then
      match processModifiers inetAddr line with
      | .error msg => Except.error (g msg)
      | .ok mods => .ok (f (some mods))
    else .ok (f none)) = .ok r ↔ ∃ mods, StoredAs inetAddr ys mods ∧ r = f mods := by
  cases ys with
  | nil =>
    rw [if_neg (by simp [hnum]), Except.ok.injEq, eq_comm]
    refine ⟨fun h => ⟨none, ⟨.nil, by simp⟩, h⟩, ?_⟩
    rintro ⟨mods, ⟨-, hmods⟩, h⟩
    rw [h, hmods.mpr rfl]
  | cons y ys =>
    rw [if_pos (by simp [hnum])]
    constructor
    · intro h
      rcases hmods : processModifiers inetAddr line with msg | mods
      · rw [hmods] at h
        cases h
      · rw [hmods] at h
        exact ⟨some mods, ⟨hline ▸ processModifiers_ok_iff.mp hmods, by simp⟩, (Except.ok.inj h).symm⟩
    · rintro ⟨mods, ⟨hread, hne⟩, rfl⟩
      obtain ⟨mods, rfl⟩ := Option.ne_none_iff_exists'.mp (mt hne.mp (cons_ne_nil y ys))
      rw [processModifiers_ok_iff.mpr (hline.symm ▸ hread)]
      rfl

def modifierNames : List String :=
  ["port", "iport", "scheme", "method", "prefix", "suffix", "src_ip", "time", "tag"]

theorem ReadsAs.exists_name (h : ReadsAs inetAddr x m) : ∃ t ∈ modifierNames, caseEq x.label t = true := by
  by_contra hno
  push Not at hno
  have hne (t : String) (ht : t ∈ modifierNames) : ¬caseEq x.label t = true := hno t ht
  rw [ReadsAs, processModifier, if_neg (hne _ (by simp [modifierNames])),
    if_neg (hne _ (by simp [modifierNames])), if_neg (hne _ (by simp [modifierNames])),
    if_neg (hne _ (by simp [modifierNames])), if_neg (hne _ (by simp [modifierNames])),
    if_neg (hne _ (by simp [modifierNames])), if_neg (hne _ (by simp [modifierNames])),
    if_neg (hne _ (by simp [modifierNames])), if_neg (hne _ (by simp [modifierNames]))] at h
  cases h

theorem caseEq_unique {s : Bytes} {t t' : String} (h : caseEq s t = true) (h' : caseEq s t' = true) :
    lower (strBytes t) = lower (strBytes t') := by
  simp only [caseEq, decide_eq_true_eq] at h h'
  exact h.symm.trans h'

theorem ReadsAs.caseEq_false {names : List String} {t : String} (h : ReadsAs inetAddr x m)
    (hnames : ∀ t ∈ modifierNames, ∀ t' ∈ names, lower (strBytes t) ≠ lower (strBytes t'))
    (ht : t ∈ names) : caseEq x.label t = false := by
  obtain ⟨t', ht', hx⟩ := h.exists_name
  by_contra hno
  exact hnames t' ht' t ht (caseEq_unique hx (by simpa using hno))

end Read

end ControlBase

end TrafficServer
