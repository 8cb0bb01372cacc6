import TrafficServer.Proxy.ParentSelection

/-!
# Reading a line of `parent.config`

`Init` works on a slot of the array of records. A new slot holds what the constructor sets; a line that was
rejected before leaves in it what its `Init` had read up to the error.
-/

namespace TrafficServer

open Option List MatcherUtils ControlBase

namespace ParentSelection

def modulePrefix : String := "[ParentSelection]"

def domainNameMax : Nat := 255

/-- The fields of a slot that `Init` finds and may leave as they are; the array of parents is null or has
an element. -/
@[ext] structure Slot where
  parents : Option { ps : List PRecord // ps ≠ [] } := none
  roundRobin : ParentRR := .noRoundRobin
  goDirect : Bool := true
deriving DecidableEq

def Slot.zeroed : Slot := ⟨none, .noRoundRobin, false⟩

/-- One round of the loop of `ProcessParents`. `failCount` is not written; it is not read before
`failedAt` is. -/
def processParent (current : Bytes) : Except String PRecord :=
  let hostname := current.takeWhile (· ≠ 58)
  match current.dropWhile (· ≠ 58) with
  | [] => .error "No parent port specified"
  | _ :: tmp =>
    match sscanfInt tmp with
    | none => .error "Malformed parent port"
    | some port =>
      if (tmp.dropWhile MIMECooked.isDigit).dropWhile ParseRules.isWslfcr ≠ [] then
        .error "Garbage trailing entry or invalid separator"
      else if hostname.length > domainNameMax then .error "Parent hostname is too long"
      else if hostname = [] then .error "Parent string is emtpy"
      else .ok { hostname, port, failedAt := 0, failCount := 0 }

/-- `ProcessParents`. An error leaves `parents` as it was: it is null again after one in the loop. -/
def processParents (parents : Option { ps : List PRecord // ps ≠ [] }) (val : Bytes) :
    Except String { ps : List PRecord // ps ≠ [] } :=
  if parents ≠ none then .error "Can not specify more than one set of parents"
  else
    match tokenize ",; \t\r" val with
    | [] => .error "No parents specified"
    | tok :: toks => do
      let p ← processParent tok
      let ps ← toks.mapM processParent
      .ok ⟨p :: ps, List.cons_ne_nil p ps⟩

/-- One round of the loop of `Init`: the slot after it, or `none` where the item is not used. An error
comes with the slot it leaves. -/
def initItem (slot : Slot) (label val : Bytes) : Except (String × Slot) (Option Slot) :=
  if caseEq label "round_robin" then
    if caseEq val "true" then .ok (some { slot with roundRobin := .hashRoundRobin })
    else if caseEq val "strict" then .ok (some { slot with roundRobin := .strictRoundRobin })
    else if caseEq val "false" then .ok (some { slot with roundRobin := .noRoundRobin })
    else .error ("invalid argument to round_robin directive", { slot with roundRobin := .noRoundRobin })
  else if caseEq label "parent" then
    match processParents slot.parents val with
    | .error msg => .error (msg, slot)
    | .ok parents => .ok (some { slot with parents := some parents })
  else if caseEq label "go_direct" then
    if caseEq val "false" then .ok (some { slot with goDirect := false })
    else if caseEq val "true" then .ok (some { slot with goDirect := true })
    else .error ("invalid argument to go_direct directive", slot)
  else .ok none

/-- The loop of `Init`, with the number of items and the line it leaves. -/
def initLoop (slot : Slot) (numEl : Int) : List (Option Bytes × Bytes) →
    Except (String × Slot) (Slot × Int × List (Option Bytes × Bytes))
  | [] => .ok (slot, numEl, [])
  | (none, val) :: line => do
    let (slot, numEl, line) ← initLoop slot numEl line
    .ok (slot, numEl, (none, val) :: line)
  | (some label, val) :: line => do
    match ← initItem slot label val with
    | some slot =>
      let (slot, numEl, line) ← initLoop slot (numEl - 1) line
      .ok (slot, numEl, (none, val) :: line)
    | none =>
      let (slot, numEl, line) ← initLoop slot numEl line
      .ok (slot, numEl, (some label, val) :: line)

def Slot.rule (slot : Slot) (lineNum : Nat) (mods : Option (List Modifier)) : Rule :=
  ⟨⟨slot.roundRobin, slot.goDirect, lineNum, mods⟩, (slot.parents.map (·.1)).getD [], 0⟩

def init (inetAddr : Bytes → BitVec 32) (slot : Slot) (p : MatcherLine) :
    Except (String × Slot) Rule :=
  match initLoop slot p.numEl p.line with
  | .error (msg, slot) => .error (modulePrefix ++ " " ++ msg ++ " at line " ++ toString p.lineNum, slot)
  | .ok (slot, numEl, line) =>
    if slot.parents = none ∧ slot.goDirect = false then
      .error (modulePrefix ++ " No parent specified in parent.config at line " ++ toString p.lineNum, slot)
    else if numEl > 0 then
      match processModifiers inetAddr line with
      | .error msg =>
        .error (modulePrefix ++ " " ++ msg ++ " at line " ++ toString p.lineNum ++ " in parent.config", slot)
      | .ok mods => .ok (slot.rule p.lineNum (some mods))
    else .ok (slot.rule p.lineNum none)

/-! ### What the items say

The loop of `Init` is brought to a closed form: which items it takes, and what the last of each kind
leaves in the slot. -/

/-- What an item tells `Init`. -/
inductive Directive where
  | roundRobin (v : ParentRR)
  | parent (ps : { ps : List PRecord // ps ≠ [] })
  | goDirect (b : Bool)

def Directive.roundRobin? : Directive → Option ParentRR
  | .roundRobin v => some v
  | _ => none

def Directive.parent? : Directive → Option { ps : List PRecord // ps ≠ [] }
  | .parent ps => some ps
  | _ => none

def Directive.goDirect? : Directive → Option Bool
  | .goDirect b => some b
  | _ => none

open Directive

def Slot.put (slot : Slot) : Directive → Slot
  | .roundRobin v => { slot with roundRobin := v }
  | .parent ps => { slot with parents := some ps }
  | .goDirect b => { slot with goDirect := b }

def directiveNames : List String := ["round_robin", "parent", "go_direct"]

def isDirective (x : Item) : Bool := directiveNames.any (caseEq x.label)

def directive (x : Item) : Option Directive :=
  if caseEq x.label "round_robin" then
    if caseEq x.value "true" then some (.roundRobin .hashRoundRobin)
    else if caseEq x.value "strict" then some (.roundRobin .strictRoundRobin)
    else if caseEq x.value "false" then some (.roundRobin .noRoundRobin)
    else none
  else if caseEq x.label "parent" then
    match processParents none x.value with
    | .ok ps => some (.parent ps)
    | .error _ => none
  else if caseEq x.label "go_direct" then
    if caseEq x.value "false" then some (.goDirect false)
    else if caseEq x.value "true" then some (.goDirect true)
    else none
  else none

section Closed
variable {slot slot' : Slot} {x : Item} {xs ys : List Item} {d : Directive} {numEl : Int}

variable {ps : { ps : List PRecord // ps ≠ [] }} {α : Type} {f : Item → Option α}

theorem initItem_of_not (h : isDirective x = false) : initItem slot x.label x.value = .ok none := by
  simp only [isDirective, directiveNames, any_cons, any_nil, Bool.or_false, Bool.or_eq_false_iff] at h
  obtain ⟨h1, h2, h3⟩ := h
  simp [initItem, h1, h2, h3]

theorem isDirective_of_directive (h : directive x = some d) : isDirective x = true := by
  by_contra hno
  simp only [isDirective, directiveNames, any_cons, any_nil, Bool.or_false,
    Bool.or_eq_true, not_or, Bool.not_eq_true] at hno
  obtain ⟨h1, h2, h3⟩ := hno
  simp [directive, h1, h2, h3] at h

theorem processParents_of_none {val : Bytes} :
    processParents slot.parents val = .ok ps ↔ slot.parents = none ∧ processParents none val = .ok ps := by
  by_cases h : slot.parents = none
  · simp [h]
  · simp [processParents, h]

/-- **A directive is taken** if its value is, and a set of parents only into a slot without one. -/
theorem initItem_of_directive (h : isDirective x = true) : (initItem slot x.label x.value).toOption =
      ((directive x).filter fun d => d.parent? = none || slot.parents = none).map fun d => some (slot.put d) := by
  rw [initItem, directive]
  by_cases h1 : caseEq x.label "round_robin" = true
  · simp only [h1, if_true]
    split_ifs <;> rfl
  by_cases h2 : caseEq x.label "parent" = true
  · simp only [h1, h2, if_true, Bool.false_eq_true, if_false]
    rcases hps : processParents slot.parents x.value with msg | ps
    · rcases hps' : processParents none x.value with msg' | ps
      · rfl
      · have hsome : slot.parents ≠ none := fun hn => by
          rw [processParents_of_none.mpr ⟨hn, hps'⟩] at hps
          cases hps
        simp [Except.toOption, parent?, hsome]
    · obtain ⟨hn, hps'⟩ := processParents_of_none.mp hps
      simp [hps', Except.toOption, hn, Slot.put]
  by_cases h3 : caseEq x.label "go_direct" = true
  · simp only [h1, h2, h3, if_true, Bool.false_eq_true, if_false]
    split_ifs <;> rfl
  · simp [isDirective, directiveNames, h1, h2, h3] at h

def readItems : Slot → List Item → Option Slot
  | slot, [] => some slot
  | slot, x :: xs =>
    if isDirective x then
      ((directive x).filter fun d => d.parent? = none || slot.parents = none).bind fun d =>
        readItems (slot.put d) xs
    else readItems slot xs

theorem toOption_bind {ε β : Type} (r : Except ε α) (f : α → Except ε β) :
    (r >>= f).toOption = r.toOption.bind fun a => (f a).toOption := by
  cases r <;> rfl

def loopResult (r : Slot × Int × List (Option Bytes × Bytes)) : Slot × Int × List Item :=
  (r.1, r.2.1, labelled r.2.2)

theorem loopResult_cons_none (val : Bytes)
    (r : Except (String × Slot) (Slot × Int × List (Option Bytes × Bytes))) :
    (do let (slot, numEl, line) ← r; Except.ok (slot, numEl, (none, val) :: line)).toOption.map loopResult =
      r.toOption.map loopResult := by
  cases r <;> rfl

theorem loopResult_cons_some (label val : Bytes)
    (r : Except (String × Slot) (Slot × Int × List (Option Bytes × Bytes))) :
    (do let (slot, numEl, line) ← r
        Except.ok (slot, numEl, (some label, val) :: line)).toOption.map loopResult =
      (r.toOption.map loopResult).map fun r => (r.1, r.2.1, ⟨label, val⟩ :: r.2.2) := by
  cases r <;> rfl

theorem initLoop_toOption (slot : Slot) (numEl : Int) (line : List (Option Bytes × Bytes)) :
    (initLoop slot numEl line).toOption.map loopResult = (readItems slot (labelled line)).map fun slot' =>
        (slot', numEl - (labelled line).countP isDirective, (labelled line).filter fun x => !isDirective x) := by
  induction line generalizing slot numEl with
  | nil => simp [initLoop, readItems, Except.toOption, loopResult]
  | cons y line ih =>
    obtain ⟨_ | label, val⟩ := y
    · exact (loopResult_cons_none val _).trans (ih slot numEl)
    rw [initLoop, toOption_bind, labelled_cons_some, readItems]
    by_cases h : isDirective ⟨label, val⟩ = true
    · rw [initItem_of_directive (x := ⟨label, val⟩) h, if_pos h, countP_cons_of_pos h,
        filter_cons_of_neg (by simp [h])]
      generalize ((directive ⟨label, val⟩).filter fun d => d.parent? = none || slot.parents = none) = o
      cases o with
      | none => rfl
      | some d =>
        have hn : numEl - ((labelled line).countP isDirective + 1 : Nat) =
            numEl - 1 - (labelled line).countP isDirective := by omega
        rw [hn]
        exact (loopResult_cons_none val _).trans (ih (slot.put d) (numEl - 1))
    · have h' : isDirective ⟨label, val⟩ = false := by simpa using h
      rw [initItem_of_not (x := ⟨label, val⟩) h', if_neg h, countP_cons_of_neg h, filter_cons_of_pos (by simp [h'])]
      refine (loopResult_cons_some label val _).trans ?_
      rw [ih, Option.map_map]
      rfl

/-! ### The slot after the loop -/

def roundRobins (xs : List Item) : List ParentRR := (xs.filterMap directive).filterMap roundRobin?

def parentSets (xs : List Item) : List { ps : List PRecord // ps ≠ [] } :=
  (xs.filterMap directive).filterMap parent?

def goDirects (xs : List Item) : List Bool := (xs.filterMap directive).filterMap goDirect?

/-- The values of all directives are taken, and there is one set of parents at most. -/
def WellFormed (xs : List Item) : Prop :=
  (∀ x ∈ xs, isDirective x = true → directive x ≠ none) ∧ (parentSets xs).length ≤ 1

/-- What the items leave in a slot: the last one of each kind counts. -/
def Slot.final (slot : Slot) (xs : List Item) : Slot where
  parents := (parentSets xs).getLast?.or slot.parents
  roundRobin := (roundRobins xs).getLast?.getD slot.roundRobin
  goDirect := (goDirects xs).getLast?.getD slot.goDirect

theorem getLast?_cons_getD (a b : α) (as : List α) : (a :: as).getLast?.getD b = as.getLast?.getD a := by
  rw [getLast?_cons]
  rfl

theorem directive_of_not (h : isDirective x = false) : directive x = none := by
  by_contra hd
  obtain ⟨d, hd⟩ := ne_none_iff_exists'.mp hd
  rw [isDirective_of_directive hd] at h
  cases h

theorem final_cons_of_not (h : isDirective x = false) : slot.final (x :: xs) = slot.final xs := by
  simp only [Slot.final, parentSets, roundRobins, goDirects, filterMap_cons, directive_of_not h]

theorem final_cons_of_directive (h : directive x = some d) : slot.final (x :: xs) = (slot.put d).final xs := by
  cases d with
  | roundRobin v =>
    simp [Slot.final, parentSets, roundRobins, goDirects, filterMap_cons, h, Slot.put,
      roundRobin?, parent?, goDirect?, getLast?_cons_getD]
  | parent ps =>
    simp [Slot.final, parentSets, roundRobins, goDirects, filterMap_cons, h, Slot.put,
      roundRobin?, parent?, goDirect?, getLast?_cons]
  | goDirect b =>
    simp [Slot.final, parentSets, roundRobins, goDirects, filterMap_cons, h, Slot.put,
      roundRobin?, parent?, goDirect?, getLast?_cons_getD]

theorem parentSets_cons_of_not (h : (directive x).bind parent? = none) : parentSets (x :: xs) = parentSets xs := by
  cases hd : directive x with
  | none => simp [parentSets, hd]
  | some d =>
    have hp : d.parent? = none := by simpa [hd] using h
    simp [parentSets, hd, hp]

theorem parentSets_cons_of_parent
    (h : directive x = some (.parent ps)) : parentSets (x :: xs) = ps :: parentSets xs := by
  simp [parentSets, h, parent?]

theorem Slot.put_parents (h : d.parent? = none) : (slot.put d).parents = slot.parents := by
  cases d with
  | parent ps => cases h
  | _ => rfl

theorem readItems_eq_some_iff : readItems slot xs = some slot' ↔
      WellFormed xs ∧ (slot.parents ≠ none → parentSets xs = []) ∧ slot' = slot.final xs := by
  induction xs generalizing slot with
  | nil =>
    have hw : WellFormed [] := ⟨by simp, by simp [parentSets]⟩
    rw [readItems, some.injEq]
    exact ⟨fun h => ⟨hw, fun _ => rfl, h.symm⟩, fun h => h.2.2.symm⟩
  | cons x xs ih =>
    rw [readItems]
    by_cases h : isDirective x = true
    · rw [if_pos h]
      rcases hd : directive x with _ | d
      · refine iff_of_false (by simp) fun hw => ?_
        exact hw.1.1 x (mem_cons_self ..) h hd
      rw [final_cons_of_directive hd]
      rcases hp : d.parent? with _ | ps
      · have hs : parentSets (x :: xs) = parentSets xs := parentSets_cons_of_not (by rw [hd]; exact hp)
        rw [filter_some_pos (by simp [hp]), bind_some, ih, Slot.put_parents hp]
        simp [WellFormed, hs, hd]
      · obtain rfl : d = .parent ps := by
          cases d with
          | parent ps' => exact congrArg _ (some.inj hp)
          | _ => cases hp
        have hs : parentSets (x :: xs) = ps :: parentSets xs := parentSets_cons_of_parent hd
        by_cases hn : slot.parents = none
        · rw [filter_some_pos (by simp [hn]), bind_some, ih]
          simp only [WellFormed, hs, hd, hn, Slot.put, length_cons, forall_mem_cons]
          simp +contextual [and_assoc]
        · rw [filter_some_neg (by simp [hn, hp])]
          refine iff_of_false (by simp) fun hw => ?_
          rw [hs] at hw
          cases hw.2.1 hn
    · have h' : isDirective x = false := by simpa using h
      have hs : parentSets (x :: xs) = parentSets xs := parentSets_cons_of_not (by rw [directive_of_not h']; rfl)
      rw [if_neg h, ih, final_cons_of_not h']
      simp [WellFormed, hs, h']

/-- **A line is accepted** if its directives are well formed, there is a parent or a way around it, and all
other items are modifiers. -/
theorem init_ok_iff {inetAddr : Bytes → BitVec 32} {p : MatcherLine} {r : Rule}
    (hx : labelled p.line = xs) (hnum : p.numEl = xs.length) : init inetAddr slot p = .ok r ↔
      WellFormed xs ∧ (slot.parents ≠ none → parentSets xs = []) ∧
      ¬((slot.final xs).parents = none ∧ (slot.final xs).goDirect = false) ∧
      ∃ mods, StoredAs inetAddr (xs.filter fun x => !isDirective x) mods ∧
        r = (slot.final xs).rule p.lineNum mods := by
  have hloop := initLoop_toOption slot p.numEl p.line
  rw [hx] at hloop
  rw [init]
  rcases hinit : initLoop slot p.numEl p.line with ⟨msg, s⟩ | ⟨s, n, line⟩
  · have hread : readItems slot xs = none := by
      rw [hinit] at hloop
      exact map_eq_none_iff.mp hloop.symm
    refine iff_of_false (by simp) ?_
    rintro ⟨hw, hs, -⟩
    rw [readItems_eq_some_iff.mpr ⟨hw, hs, rfl⟩] at hread
    cases hread
  · rw [hinit] at hloop
    obtain ⟨s', hread, heq⟩ := map_eq_some_iff.mp hloop.symm
    obtain ⟨hw, hs, rfl⟩ := readItems_eq_some_iff.mp hread
    obtain ⟨rfl, hn, hline⟩ : slot.final xs = s ∧ n = p.numEl - xs.countP isDirective ∧
        labelled line = xs.filter fun x => !isDirective x := by
      simp only [loopResult, Prod.mk.injEq] at heq
      exact ⟨heq.1, heq.2.1.symm, heq.2.2.symm⟩
    -- the count that is left is the number of the other items
    have hlen : n = ((xs.filter fun x => !isDirective x).length : Int) := by
      have := length_eq_countP_add_countP (p := isDirective) (l := xs)
      rw [hn, hnum, ← countP_eq_length_filter]
      simp only [Bool.not_eq_true, Bool.decide_eq_false] at this
      omega
    simp only
    by_cases hdirect : (slot.final xs).parents = none ∧ (slot.final xs).goDirect = false
    · rw [if_pos hdirect]
      exact iff_of_false (by simp) fun h => h.2.2.1 hdirect
    rw [if_neg hdirect]
    simp only [hw, hdirect, true_and, not_false_eq_true]
    rw [and_iff_right hs]
    exact readModifiers_ok_iff hline hlen

/-! ### Lines that read the same in every order -/

variable {inetAddr : Bytes → BitVec 32} {others : List Item}

theorem isDirective_of_readsAs {m : Modifier} (h : ReadsAs inetAddr x m) : isDirective x = false := by
  rw [isDirective, List.any_eq_false]
  intro t ht
  rw [h.caseEq_false (by decide +kernel) ht]
  exact Bool.false_ne_true

def AllRead (inetAddr : Bytes → BitVec 32) (xs : List Item) : Prop :=
  ∀ x ∈ xs, isDirective x = false → ∃ m, ReadsAs inetAddr x m

def Accepts (inetAddr : Bytes → BitVec 32) (slot : Slot) (xs : List Item) : Prop :=
  (WellFormed xs ∧ AllRead inetAddr xs) ∧ (slot.parents ≠ none → parentSets xs = []) ∧
    ¬((slot.final xs).parents = none ∧ (slot.final xs).goDirect = false)

def Slot.data (slot : Slot) : ParentRR × Bool × List PRecord :=
  (slot.roundRobin, slot.goDirect, (slot.parents.map (·.1)).getD [])

theorem exists_init_ok_iff {p : MatcherLine} (hx : labelled p.line = xs) (hnum : p.numEl = xs.length) :
    (∃ r, init inetAddr slot p = .ok r) ↔ Accepts inetAddr slot xs := by
  have hread : (∃ mods, StoredAs inetAddr (xs.filter fun x => !isDirective x) mods) ↔ AllRead inetAddr xs := by
    rw [exists_storedAs_iff]
    simp [AllRead]
  constructor
  · rintro ⟨r, hr⟩
    obtain ⟨hw, hs, hd, mods, hmods, -⟩ := (init_ok_iff hx hnum).mp hr
    exact ⟨⟨hw, hread.mp ⟨mods, hmods⟩⟩, hs, hd⟩
  · rintro ⟨⟨hw, hr⟩, hs, hd⟩
    obtain ⟨mods, hmods⟩ := hread.mpr hr
    exact ⟨_, (init_ok_iff hx hnum).mpr ⟨hw, hs, hd, mods, hmods, rfl⟩⟩

/-- The values of one kind give the same in every order, and what they find does not show. -/
def Fixed {α : Type} (vals : List α) (new given : α) : Prop :=
  (∀ v ∈ vals, ∀ w ∈ vals, v = w) ∧ (vals = [] → given = new)

theorem Fixed.getLast?_getD {vals ws : List α} {new given : α} (h : Fixed vals new given)
    (hp : ws.Perm vals) : ws.getLast?.getD given = vals.getLast?.getD new := by
  rcases eq_nil_or_concat vals with rfl | ⟨vs, v, rfl⟩
  · rw [hp.eq_nil]
    exact h.2 rfl
  · rcases eq_nil_or_concat ws with rfl | ⟨us, u, rfl⟩
    · simp at hp
    · simp only [concat_eq_append, getLast?_append, getLast?_singleton] at hp h ⊢
      exact h.1 u (hp.subset (by simp)) v (by simp)

theorem exists_perm_getLast {v : α} (hv : v ∈ xs.filterMap f) :
    ∃ ys : List Item, ys.Perm xs ∧ (ys.filterMap f).getLast? = some v := by
  obtain ⟨x, hx, hf⟩ := mem_filterMap.mp hv
  obtain ⟨as, bs, rfl⟩ := append_of_mem hx
  refine ⟨(as ++ bs) ++ [x], ?_, ?_⟩
  · exact (perm_append_singleton x _).trans (perm_middle.symm)
  · rw [filterMap_append, filterMap_cons_some hf, filterMap_nil, getLast?_append, getLast?_singleton]
    rfl

theorem fixed_of_getLast {new given : α} (h : ∀ ys : List Item, ys.Perm xs →
      (ys.filterMap f).getLast?.getD given = (xs.filterMap f).getLast?.getD new) :
    Fixed (xs.filterMap f) new given := by
  have hall (v : α) (hv : v ∈ xs.filterMap f) : v = (xs.filterMap f).getLast?.getD new := by
    obtain ⟨ys, hys, hlast⟩ := exists_perm_getLast hv
    rw [← h ys hys, hlast]
    rfl
  refine ⟨fun v hv w hw => (hall v hv).trans (hall w hw).symm, fun hnil => ?_⟩
  have := h xs (.refl xs)
  rwa [hnil] at this

theorem roundRobins_eq (xs : List Item) : roundRobins xs = xs.filterMap fun x => (directive x).bind roundRobin? :=
  filterMap_filterMap

theorem goDirects_eq (xs : List Item) : goDirects xs = xs.filterMap fun x => (directive x).bind goDirect? :=
  filterMap_filterMap

theorem parentSets_perm (h : xs.Perm ys) : (parentSets xs).Perm (parentSets ys) := (h.filterMap _).filterMap _

theorem wellFormed_perm (h : xs.Perm ys) : WellFormed xs ↔ WellFormed ys := by
  rw [WellFormed, WellFormed, (parentSets_perm h).length_eq]
  simp only [h.mem_iff]

theorem allRead_perm (h : xs.Perm ys) : AllRead inetAddr xs ↔ AllRead inetAddr ys := by simp only [AllRead, h.mem_iff]

theorem WellFormed.parentSets_eq (h : WellFormed ys) (hp : xs.Perm ys) : parentSets xs = parentSets ys := by
  have hps := parentSets_perm hp
  have hlen := h.2
  rcases hy : parentSets ys with _ | ⟨ps, rest⟩
  · rw [hy] at hps
    exact hps.eq_nil
  · obtain rfl : rest = [] := by
      rw [hy, length_cons] at hlen
      exact length_eq_zero_iff.mp (by omega)
    rw [hy] at hps
    exact perm_singleton.mp hps

/-- The items `xs` on the slot read as the items `others` on a new one. -/
def SameReading (inetAddr : Bytes → BitVec 32) (slot : Slot) (others xs : List Item) : Prop :=
  (Accepts inetAddr slot xs ↔ Accepts inetAddr {} others) ∧
    (Accepts inetAddr slot xs → (slot.final xs).data = (Slot.final {} others).data)

/-- The condition on the items and the slot: nothing of a rejected line shows, and a repeated directive says
the same again. `round_robin` does not count on a line without a parent that is not direct either. -/
def Settled (inetAddr : Bytes → BitVec 32) (slot : Slot) (others : List Item) : Prop :=
  WellFormed others ∧ AllRead inetAddr others →
    slot.parents = none ∧ Fixed (goDirects others) true slot.goDirect ∧
      (Fixed (roundRobins others) .noRoundRobin slot.roundRobin ∨
        parentSets others = [] ∧ false ∈ goDirects others)

theorem final_parents_of_nil (h : parentSets xs = []) : (slot.final xs).parents = slot.parents := by
  simp [Slot.final, h]

theorem final_parents_ne_none (h : parentSets xs ≠ []) : (slot.final xs).parents ≠ none := by
  obtain ⟨ps, hps⟩ := ne_none_iff_exists'.mp (mt getLast?_eq_none_iff.mp h)
  simp [Slot.final, hps]

section
variable (hw : WellFormed xs ∧ AllRead inetAddr xs) (hnone : slot.parents = none)

include hw hnone

theorem accepts_of_parents (h : parentSets xs ≠ []) : Accepts inetAddr slot xs :=
  ⟨hw, fun hs => absurd hnone hs, fun hd => final_parents_ne_none h hd.1⟩

theorem accepts_iff_of_nil (h : parentSets xs = []) : Accepts inetAddr slot xs ↔ (slot.final xs).goDirect = true := by
  simp [Accepts, hw, h, final_parents_of_nil h, hnone]

end

theorem goDirect_eq_of_same (hw : WellFormed others ∧ AllRead inetAddr others)
    (h : ∀ xs : List Item, xs.Perm others → SameReading inetAddr slot others xs)
    (hnone : slot.parents = none) (hp : xs.Perm others) :
    (slot.final xs).goDirect = (Slot.final {} others).goDirect := by
  have hwx : WellFormed xs ∧ AllRead inetAddr xs := ⟨(wellFormed_perm hp).mpr hw.1, (allRead_perm hp).mpr hw.2⟩
  have heq : parentSets xs = parentSets others := hw.1.parentSets_eq hp
  obtain ⟨hacc, hdata⟩ := h xs hp
  by_cases hps : parentSets others = []
  · -- no parents: the line is accepted exactly if it goes direct
    rw [accepts_iff_of_nil hwx hnone (heq.trans hps), accepts_iff_of_nil hw rfl hps] at hacc
    exact Bool.eq_iff_iff.mpr hacc
  · have hx := hdata (accepts_of_parents hwx hnone (heq ▸ hps))
    simp only [Slot.data, Prod.mk.injEq] at hx
    exact hx.2.1

theorem slot_parents_eq_none (hw : WellFormed others ∧ AllRead inetAddr others)
    (h : SameReading inetAddr slot others others) : slot.parents = none := by
  by_contra hsome
  obtain ⟨hacc, hdata⟩ := h
  by_cases hps : parentSets others = []
  · -- the line takes over the parents that were left
    have hslot : Accepts inetAddr slot others :=
      ⟨hw, fun _ => hps, fun hd => hsome ((final_parents_of_nil hps).symm.trans hd.1)⟩
    obtain ⟨ps, hs⟩ := ne_none_iff_exists'.mp hsome
    have hx := hdata hslot
    simp only [Slot.data, Prod.mk.injEq, final_parents_of_nil hps, hs] at hx
    exact ps.2 hx.2.2
  · exact hps ((hacc.mpr (accepts_of_parents hw rfl hps)).2.1 hsome)

theorem settled_of_same (h : ∀ xs : List Item, xs.Perm others → SameReading inetAddr slot others xs) :
    Settled inetAddr slot others := by
  intro hw
  have hnone : slot.parents = none := slot_parents_eq_none hw (h others (.refl others))
  refine ⟨hnone, ?_, ?_⟩
  · rw [goDirects_eq]
    refine fixed_of_getLast fun ys hys => ?_
    rw [← goDirects_eq, ← goDirects_eq]
    exact goDirect_eq_of_same hw h hnone hys
  by_cases hacc : Accepts inetAddr {} others
  · refine .inl ?_
    rw [roundRobins_eq]
    refine fixed_of_getLast fun ys hys => ?_
    rw [← roundRobins_eq, ← roundRobins_eq]
    have hx := (h ys hys).2 ((h ys hys).1.mpr hacc)
    simp only [Slot.data, Prod.mk.injEq] at hx
    exact hx.1
  · refine .inr ?_
    have hps : parentSets others = [] := by
      by_contra hps
      exact hacc (accepts_of_parents hw rfl hps)
    refine ⟨hps, ?_⟩
    rw [accepts_iff_of_nil hw rfl hps, Bool.not_eq_true] at hacc
    rcases hl : (goDirects others).getLast? with _ | b
    · simp [Slot.final, hl] at hacc
    · simp only [Slot.final, hl, getD_some] at hacc
      exact hacc ▸ mem_of_getLast? hl

theorem same_of_settled (h : Settled inetAddr slot others) {xs : List Item} (hp : xs.Perm others) :
    SameReading inetAddr slot others xs := by
  have hperm : WellFormed xs ∧ AllRead inetAddr xs ↔ WellFormed others ∧ AllRead inetAddr others :=
    and_congr (wellFormed_perm hp) (allRead_perm hp)
  by_cases hw : WellFormed others ∧ AllRead inetAddr others
  · obtain ⟨hnone, hgd, hrr⟩ := h hw
    have hps : parentSets xs = parentSets others := hw.1.parentSets_eq hp
    have hgo : (slot.final xs).goDirect = (Slot.final {} others).goDirect :=
      hgd.getLast?_getD ((hp.filterMap _).filterMap _)
    have hpar : (slot.final xs).parents = (Slot.final {} others).parents := by simp [Slot.final, hps, hnone]
    have hacc : Accepts inetAddr slot xs ↔ Accepts inetAddr {} others := by simp [Accepts, hperm, hgo, hpar, hnone]
    refine ⟨hacc, fun hx => ?_⟩
    have hround : (slot.final xs).roundRobin = (Slot.final {} others).roundRobin := by
      rcases hrr with hrr | ⟨hnil, hfalse⟩
      · exact hrr.getLast?_getD ((hp.filterMap _).filterMap _)
      · -- such a line is rejected
        have htrue := (accepts_iff_of_nil hw rfl hnil).mp (hacc.mp hx)
        rcases hl : (goDirects others).getLast? with _ | b
        · rw [getLast?_eq_none_iff.mp hl] at hfalse
          cases hfalse
        · simp only [Slot.final, hl, getD_some] at htrue
          have := hgd.1 _ hfalse _ (mem_of_getLast? hl)
          rw [htrue] at this
          cases this
    simp only [Slot.data, hround, hgo, hpar]
  · have hno (s : Slot) : ¬Accepts inetAddr s xs := fun ha => hw (hperm.mp ha.1)
    exact ⟨iff_of_false (hno slot) fun ha => hw ha.1, fun ha => absurd ha (hno slot)⟩

/-- **Which lines read the same** in every order, on the slot as on a new one. -/
theorem same_iff_settled : (∀ xs : List Item, xs.Perm others → SameReading inetAddr slot others xs) ↔
      Settled inetAddr slot others :=
  ⟨settled_of_same, fun h _ hp => same_of_settled h hp⟩

end Closed

end ParentSelection

end TrafficServer
