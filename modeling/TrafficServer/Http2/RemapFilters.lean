import TrafficServer.Http2.AclFiltering

/-!
# Which remap filters are enforced

What the directives of `remap.config` mean: names have options, added to by each definition, and some names
are active, in the order of their activation. The list of filters of the source represents such a state up
to two losses: a filter stores no more than 512 options, and no source address but 0.0.0.0. The filters of a
rule are therefore right up to these losses, and then `PerformACLFiltering` does not look at them.
-/

namespace TrafficServer

open Function List MatcherUtils

namespace Remap

open AclFilterRule

/-! ### The meaning of options -/

inductive FilterOption
  | method (m : Nat)
  | srcIp (invert : Bool) (range : Bytes)
  | action (allow : Bool)
  | other
deriving DecidableEq

def readOption (arg : Bytes) : Option FilterOption :=
  match checkRemapOption arg with
  | none | some (_, none) | some (_, some []) => none
  | some (.method, some s) => (methodWksidx s).map .method
  | some (.srcIp invert, some s) => some (.srcIp invert s)
  | some (.action, some s) =>
    if isInkeylist s denyWords then some (.action false)
    else if isInkeylist s allowWords then some (.action true)
    else none
  | some _ => some .other

namespace FilterOption

def method? : FilterOption → Option Nat
  | .method m => some m
  | _ => none

def invert? : FilterOption → Option Bool
  | .srcIp invert _ => some invert
  | _ => none

def action? : FilterOption → Option Bool
  | .action allow => some allow
  | _ => none

def range? (inetAddr : Bytes → BitVec 32) : FilterOption → Option SrcIpInfo
  | .srcIp invert s => (extractIpRange inetAddr s).toOption.map fun r => ⟨r.1, r.2, invert⟩
  | _ => none

end FilterOption

open FilterOption

def written (argv : List Bytes) : List FilterOption := argv.filterMap readOption

def methods (o : List FilterOption) : List Nat := o.filterMap (·.method?)

def ranges (inetAddr : Bytes → BitVec 32) (o : List FilterOption) : List SrcIpInfo :=
  o.filterMap (·.range? inetAddr)

/-- The last action counts; without one the filter allows. -/
def allows (o : List FilterOption) : Bool := ((o.filterMap (·.action?)).getLast?).getD true

/-- The filter has the methods, address ranges and action that are written. -/
structure Holds (inetAddr : Bytes → BitVec 32) (rule : AclFilterRule) (o : List FilterOption) :
    Prop where
  methods : ∀ m, m ∈ rule.methodArray ↔ m ∈ methods o
  ranges : ∀ r, r ∈ rule.srcIpArray ↔ r ∈ ranges inetAddr o
  action : rule.allowFlag = allows o

/-- The address is in the range, or outside of it if that is inverted. -/
def SrcIpInfo.Contains (r : SrcIpInfo) (ip : BitVec 32) : Prop :=
  (r.start ≤ ip.setWidth 64 ∧ ip.setWidth 64 ≤ r.stop) ↔ r.invert = false

def Denies (inetAddr : Bytes → BitVec 32) (o : List FilterOption) (s : TransactState) : Prop :=
  allows o = false ∧ (methods o = [] ∨ ∃ m ∈ methods o, s.method = some m) ∧
    (ranges inetAddr o = [] ∨ ∃ r ∈ ranges inetAddr o, r.Contains s.clientIp)

/-! ### The meaning of directives -/

/-- The names that are defined, with their options, and those that are active. Names are in lower case. -/
structure Config where
  options : Bytes → Option (List Bytes)
  active : List Bytes

namespace Config

def empty : Config := ⟨fun _ => none, []⟩

def define (c : Config) (name : Bytes) (argv : List Bytes) : Config :=
  if ∀ a ∈ argv, (readOption a).isSome then
    { c with
      options := Function.update c.options (lower name)
        (some ((c.options (lower name)).getD [] ++ argv)) }
  else c

def delete (c : Config) (name : Bytes) : Config :=
  ⟨Function.update c.options (lower name) none, c.active.filter (· ≠ lower name)⟩

def activate (c : Config) (name : Bytes) : Config :=
  if (c.options (lower name)).isSome ∧ lower name ∉ c.active then
    { c with active := c.active ++ [lower name] }
  else c

def deactivate (c : Config) (name : Bytes) : Config :=
  { c with active := c.active.filter (· ≠ lower name) }

def directive (c : Config) (line : Words) : Config :=
  match line.paramv with
  | word :: name :: _ =>
    if word.head? ≠ some 46 then c
    else if isInkeylist word.tail defineWords then
      if line.argv = [] then c else c.define name line.argv
    else if isInkeylist word.tail deleteWords then c.delete name
    else if isInkeylist word.tail activateWords then c.activate name
    else if isInkeylist word.tail deactivateWords then c.deactivate name
    else c
  | _ => c

/-- The effect of a line of the file; a line of too many words is malformed. -/
def line (c : Config) (text : Bytes) : Config :=
  match lineWords text with
  | some words => if words.paramv.length ≤ buildTableMaxArgs then c.directive words else c
  | none => c

end Config

open Config

def Words.HasFilter (line : Words) : Prop :=
  line.argv.any (fun a => (checkRemapOption a).any (·.1.isFilter)) = true
deriving Decidable

/-- What the filters of a rule are to be: the active ones, then the options of its own. -/
def Config.filters (c : Config) (line : Words) : List (List Bytes) :=
  c.active.map (fun name => (c.options name).getD []) ++ if line.HasFilter then [line.argv] else []

def configOf (before : List Bytes) : Config := before.foldl Config.line .empty

/-- The filters of the rule of a line that comes after the lines `before` are those written, and the request
is denied iff one of them denies it. Nothing is said of a rule that is rejected. -/
def FiltersEnforced (inetAddr : Bytes → BitVec 32) (before : List Bytes) (line : Words)
    (s : TransactState) : Prop :=
  match ruleFilters before line with
  | none => False
  | some (.error _) => True
  | some (.ok filters) =>
    List.Forall₂ (fun rule argv => Holds inetAddr rule (written argv)) filters
        ((configOf before).filters line) ∧
      ((∃ argv ∈ (configOf before).filters line, Denies inetAddr (written argv) s) →
        (performACLFiltering s filters).clientConnectionEnabled = false) ∧
      ((¬∃ argv ∈ (configOf before).filters line, Denies inetAddr (written argv) s) →
        (performACLFiltering s filters).clientConnectionEnabled = s.clientConnectionEnabled)

/-! ### What `validate_filter_args` makes of the options -/

variable {args argv : List Bytes} {rule : AclFilterRule} {arg text : Bytes}
  {rules : List AclFilterRule}

theorem methodWksidx_lt {s : Bytes} {m : Nat} (h : methodWksidx s = some m) :
    wksidxConnect ≤ m ∧ m < wksidxConnect + 11 := by
  obtain ⟨i, hi, rfl⟩ := Option.map_eq_some_iff.mp h
  have hlt : i < methodNames.length := (findIdx?_eq_some_iff_getElem.mp hi).1
  exact ⟨Nat.le_add_right _ _, Nat.add_lt_add_left hlt _⟩

/-- A filter as the options make it: its methods are different, and it has at most one range. -/
structure AclFilterRule.Small (rule : AclFilterRule) : Prop where
  methods : ∀ m ∈ rule.methodArray, wksidxConnect ≤ m ∧ m < wksidxConnect + 11
  nodup : rule.methodArray.Nodup
  srcIps : rule.srcIpArray = [] ∨ ∃ invert, rule.srcIpArray = [⟨0, 0, invert⟩]

theorem AclFilterRule.Small.new : new.Small where
  methods := fun _ hm => absurd hm not_mem_nil
  nodup := nodup_nil
  srcIps := .inl rfl

theorem AclFilterRule.Small.setActive (h : rule.Small) (b : Bool) : { rule with activeQueueFlag := b }.Small :=
  ⟨h.methods, h.nodup, h.srcIps⟩

theorem AclFilterRule.Small.methodArray_length (h : rule.Small) : rule.methodArray.length ≤ 11 := by
  have hsub : rule.methodArray ⊆ (List.range 11).map (wksidxConnect + ·) := by
    intro m hm
    obtain ⟨hle, hlt⟩ := h.methods m hm
    exact mem_map.mpr ⟨m - wksidxConnect, mem_range.mpr (by omega), by omega⟩
  have hlen := (h.nodup.subperm hsub).length_le
  rwa [length_map, length_range] at hlen

def AclFilterRule.apply (rule : AclFilterRule) : FilterOption → AclFilterRule
  | .method m =>
    if m ∈ rule.methodArray then rule
    else
      { rule with
        methodIdx := rule.methodIdx.set (m - wksidxConnect) m
        methodArray := rule.methodArray ++ [m]
        methodValid := true }
  | .srcIp invert _ =>
    if rule.srcIpArray = [] then { rule with srcIpArray := [⟨0, 0, invert⟩], srcIpValid := true }
    else rule
  | .action allow => { rule with allowFlag := allow }
  | .other => rule

theorem validateFilterArg_eq (h : rule.Small) (arg : Bytes) : match readOption arg with
    | some o => validateFilterArg rule arg = (rule.apply o, none)
    | none => ∃ e, validateFilterArg rule arg = (rule, some e) := by
  unfold readOption validateFilterArg
  rcases checkRemapOption arg with _ | ⟨flag, _ | _ | ⟨x, s⟩⟩
  · exact ⟨_, rfl⟩
  · exact ⟨_, rfl⟩
  · exact ⟨_, rfl⟩
  · cases flag with
    | method =>
      have hlen := h.methodArray_length
      have hroom : ¬aclFilterMaxMethods ≤ rule.methodArray.length := by
        simp only [aclFilterMaxMethods]
        omega
      simp only [if_neg hroom]
      cases hm : methodWksidx (x :: s) with
      | none => exact ⟨_, rfl⟩
      | some m =>
        have hlt := methodWksidx_lt hm
        have hidx : ¬aclFilterMaxMethods ≤ m - wksidxConnect := by
          simp only [aclFilterMaxMethods]
          omega
        simp only [Option.map_some, apply, if_neg hidx]
        split <;> rfl
    | srcIp invert =>
      simp only [apply, aclFilterMaxSrcIp]
      -- the addresses of a new entry are zero, as those of the entry that is there
      rcases h.srcIps with hnil | ⟨b, hone⟩
      · simp [hnil]
      · simp [hone]
    | action =>
      by_cases hdeny : isInkeylist (x :: s) denyWords
      · simp only [if_pos hdeny, apply]
      · by_cases hallow : isInkeylist (x :: s) allowWords
        · simp only [if_neg hdeny, if_pos hallow, apply]
        · simp only [if_neg hdeny, if_neg hallow]
          exact ⟨_, rfl⟩
    | mapWithReferer => rfl
    | plugin => rfl
    | pparam => rfl
    | noNegCache => rfl
    | pristineHostHdrEnabled => rfl
    | pristineHostHdrDisabled => rfl
    | chunkingEnabled => rfl
    | chunkingDisabled => rfl
    | mapId => rfl

theorem readOption_method {m : Nat} (h : readOption arg = some (.method m)) :
    wksidxConnect ≤ m ∧ m < wksidxConnect + 11 := by
  unfold readOption at h
  generalize checkRemapOption arg = opt at h
  rcases opt with _ | ⟨flag, _ | _ | ⟨x, s⟩⟩
  · cases h
  · cases h
  · cases h
  · cases flag with
    | method =>
      obtain ⟨n, hn, heq⟩ := Option.map_eq_some_iff.mp h
      cases heq
      exact methodWksidx_lt hn
    | action =>
      simp only at h
      split at h
      · cases h
      · split at h <;> cases h
    | _ => cases h

theorem AclFilterRule.Small.apply (h : rule.Small)
    {o : FilterOption} (ho : readOption arg = some o) : (rule.apply o).Small := by
  cases o with
  | method m =>
    simp only [AclFilterRule.apply]
    split
    · exact h
    · rename_i hm
      refine ⟨?_, ?_, h.srcIps⟩
      · intro n hn
        rcases mem_append.mp hn with hold | hnew
        · exact h.methods n hold
        · rw [mem_singleton.mp hnew]
          exact readOption_method ho
      · rw [← concat_eq_append]
        exact h.nodup.concat hm
  | srcIp invert range =>
    simp only [AclFilterRule.apply]
    split
    · exact ⟨h.methods, h.nodup, .inr ⟨invert, rfl⟩⟩
    · exact h
  | action allow => exact ⟨h.methods, h.nodup, h.srcIps⟩
  | other => exact h

/-- The parts of a filter that its options do not touch. -/
def AclFilterRule.SameEntry (r r' : AclFilterRule) : Prop :=
  r'.filterName = r.filterName ∧ r'.argv = r.argv ∧ r'.activeQueueFlag = r.activeQueueFlag

theorem AclFilterRule.sameEntry_apply (rule : AclFilterRule) (o : FilterOption) : rule.SameEntry (rule.apply o) := by
  cases o <;> simp only [apply] <;> (try split) <;> exact ⟨rfl, rfl, rfl⟩

theorem validateFilterArgs_spec (argv : List Bytes) : ∀ {rule : AclFilterRule}, rule.Small →
      (validateFilterArgs rule argv).1.Small ∧ rule.SameEntry (validateFilterArgs rule argv).1 ∧
      if ∀ a ∈ argv, (readOption a).isSome then validateFilterArgs rule argv = ((written argv).foldl apply rule, none)
      else (validateFilterArgs rule argv).2 ≠ none := by
  induction argv with
  | nil =>
    intro rule h
    refine ⟨h, ⟨rfl, rfl, rfl⟩, ?_⟩
    rw [if_pos fun _ ha => absurd ha not_mem_nil]
    rfl
  | cons arg rest ih =>
    intro rule h
    have harg := validateFilterArg_eq h arg
    unfold validateFilterArgs
    cases ho : readOption arg with
    | none =>
      simp only [ho] at harg
      obtain ⟨e, he⟩ := harg
      simp only [he]
      refine ⟨h, ⟨rfl, rfl, rfl⟩, ?_⟩
      rw [if_neg]
      · exact Option.some_ne_none e
      · intro hall
        have hsome := hall arg mem_cons_self
        rw [ho] at hsome
        cases hsome
    | some o =>
      simp only [ho] at harg
      simp only [harg]
      obtain ⟨hsmall, hsame, hresult⟩ := ih (h.apply ho)
      have hfirst := rule.sameEntry_apply o
      refine ⟨hsmall, ⟨hsame.1.trans hfirst.1, hsame.2.1.trans hfirst.2.1, hsame.2.2.trans hfirst.2.2⟩, ?_⟩
      simpa [written, ho] using hresult

theorem validateFilterArgs_cases (argv : List Bytes) (h : rule.Small) :
    ∃ rule' e, validateFilterArgs rule argv = (rule', e) ∧
    rule'.Small ∧ rule.SameEntry rule' ∧ ((∀ a ∈ argv, (readOption a).isSome) ∧ e = none ∨
      (¬∀ a ∈ argv, (readOption a).isSome) ∧ ∃ text, e = some text) := by
  obtain ⟨hsmall, hsame, hresult⟩ := validateFilterArgs_spec argv h
  refine ⟨_, _, rfl, hsmall, hsame, ?_⟩
  split_ifs at hresult with hvalid
  · exact .inl ⟨hvalid, by rw [hresult]⟩
  · exact .inr ⟨hvalid, Option.ne_none_iff_exists'.mp hresult⟩

def zeroRange (o : List FilterOption) : List SrcIpInfo :=
  ((o.filterMap (·.invert?)).head?.map fun invert => (⟨0, 0, invert⟩ : SrcIpInfo)).toList

variable (o : List FilterOption)

theorem mem_methodArray_foldl (m : Nat) : ∀ rule : AclFilterRule, m ∈ (o.foldl apply rule).methodArray ↔
      m ∈ rule.methodArray ∨ m ∈ methods o := by
  induction o with
  | nil => simp [methods]
  | cons x o ih =>
    intro rule
    rw [foldl_cons, ih]
    cases x with
    | method n =>
      by_cases hn : n ∈ rule.methodArray
      · simp only [apply, if_pos hn, methods, filterMap_cons, method?, mem_cons]
        grind
      · simp only [apply, if_neg hn, methods, filterMap_cons,
          method?, mem_cons, mem_append, not_mem_nil, or_false, or_assoc]
    | srcIp invert range =>
      simp only [apply, methods, filterMap_cons, method?]
      split <;> rfl
    | action allow => rfl
    | other => rfl

theorem srcIpArray_foldl : ∀ rule : AclFilterRule, (o.foldl apply rule).srcIpArray =
      if rule.srcIpArray = [] then zeroRange o else rule.srcIpArray := by
  induction o with
  | nil =>
    intro rule
    split
    · rename_i hnil
      exact hnil
    · rfl
  | cons x o ih =>
    intro rule
    rw [foldl_cons, ih]
    cases x with
    | method n =>
      simp only [apply]
      split <;> rfl
    | srcIp invert range =>
      simp only [apply]
      split
      · simp [zeroRange, invert?]
      · rfl
    | action allow => rfl
    | other => rfl

theorem allowFlag_foldl : ∀ rule : AclFilterRule, (o.foldl apply rule).allowFlag =
      ((o.filterMap (·.action?)).getLast?).getD rule.allowFlag := by
  induction o with
  | nil => exact fun rule => rfl
  | cons x o ih =>
    intro rule
    rw [foldl_cons, ih]
    cases x with
    | method n =>
      simp only [apply, filterMap_cons, action?]
      split <;> rfl
    | srcIp invert range =>
      simp only [apply, filterMap_cons, action?]
      split <;> rfl
    | action allow => simp only [apply, filterMap_cons, action?, getLast?_cons, Option.getD_some]
    | other => rfl

/-- The options `kept` are all that is left of `argv`, and they are made into a filter without the
addresses: nothing is lost by it. -/
structure Kept (inetAddr : Bytes → BitVec 32) (argv kept : List Bytes) : Prop where
  methods : ∀ m, m ∈ methods (written kept) ↔ m ∈ methods (written argv)
  ranges : ∀ r, r ∈ zeroRange (written kept) ↔ r ∈ ranges inetAddr (written argv)
  action : allows (written kept) = allows (written argv)

variable (inetAddr : Bytes → BitVec 32)

theorem holds_iff_kept (argv kept : List Bytes) :
    Holds inetAddr ((written kept).foldl apply .new) (written argv) ↔ Kept inetAddr argv kept := by
  have hmethods : ∀ m, m ∈ ((written kept).foldl apply .new).methodArray ↔ m ∈ methods (written kept) := by
    intro m
    rw [mem_methodArray_foldl]
    simp [new]
  have hranges : ((written kept).foldl apply .new).srcIpArray = zeroRange (written kept) := by
    rw [srcIpArray_foldl]
    exact if_pos rfl
  have haction : ((written kept).foldl apply .new).allowFlag = allows (written kept) := allowFlag_foldl _ _
  constructor
  · rintro ⟨hm, hr, ha⟩
    refine ⟨fun m => ?_, fun r => ?_, ?_⟩
    · rw [← hmethods, hm]
    · rw [← hranges, hr]
    · rw [← haction, ha]
  · rintro ⟨hm, hr, ha⟩
    refine ⟨fun m => ?_, fun r => ?_, ?_⟩
    · rw [hmethods, hm]
    · rw [hranges, hr]
    · rw [haction, ha]

/-! ### The list of filters represents the names -/

theorem isInkeylist_nil : isInkeylist [] defineWords = false ∧ isInkeylist [] deleteWords = false ∧
      isInkeylist [] activateWords = false ∧ isInkeylist [] deactivateWords = false := by
  decide

def AclFilterRule.key (rule : AclFilterRule) : Bytes := lower rule.filterName

theorem AclFilterRule.hasName_iff {name : Bytes} : rule.hasName name = true ↔ rule.key = lower name := by
  simp only [hasName, key, Bool.and_eq_true, decide_eq_true_eq, and_iff_right_iff_imp]
  intro heq
  have hlen := congrArg List.length heq
  simpa only [lower, length_map] using hlen

section Byname
variable {pre post : List AclFilterRule} {rp rule : AclFilterRule} {name : Bytes}

section
variable (hpre : ∀ r ∈ pre, r.key ≠ lower name) (hrp : rp.key = lower name)

include hpre hrp

theorem eraseP_hasName : (pre ++ rp :: post).eraseP (hasName name) = pre ++ post := by
  rw [eraseP_append_right]
  · rw [eraseP_cons_of_pos (hasName_iff.mpr hrp)]
  · intro r hr hname
    exact hpre r hr (hasName_iff.mp hname)

theorem replaceByname_eq : replaceByname (pre ++ rp :: post) name rule = pre ++ rule :: post := by
  have hnot : ∀ r ∈ pre, (!r.hasName name) = true := by
    intro r hr
    rw [Bool.not_eq_true', Bool.eq_false_iff]
    exact fun hname => hpre r hr (hasName_iff.mp hname)
  unfold replaceByname
  rw [takeWhile_append_of_pos hnot, dropWhile_append_of_pos hnot]
  simp [hasName_iff.mpr hrp]

end

end Byname

theorem mem_middle {α : Type} {a x : α} {l1 l2 : List α} : a ∈ l1 ++ x :: l2 ↔ a = x ∨ a ∈ l1 ∨ a ∈ l2 := by
  rw [mem_append, mem_cons, or_left_comm]

/-- The filters of the list are the names that are defined, with as many of their options as there is
room for. -/
structure Entries (rules : List AclFilterRule) (options : Bytes → Option (List Bytes)) :
    Prop where
  nodup : (rules.map key).Nodup
  keys : ∀ n, (options n).isSome ↔ n ∈ rules.map key
  argv : ∀ r ∈ rules, ∀ args, options r.key = some args → r.argv = args.take aclFilterMaxArgv
  valid : ∀ n args, options n = some args → ∀ a ∈ args, (readOption a).isSome
  small : ∀ r ∈ rules, r.Small

namespace Entries

variable {rules rules' : List AclFilterRule} {options : Bytes → Option (List Bytes)}
  {pre post : List AclFilterRule} {rp : AclFilterRule} {name : Bytes}

theorem perm (h : Entries rules options) (hp : rules'.Perm rules) : Entries rules' options where
  nodup := (hp.map key).nodup_iff.mpr h.nodup
  keys n := by rw [h.keys, (hp.map key).mem_iff]
  argv r hr := h.argv r (hp.mem_iff.mp hr)
  valid := h.valid
  small r hr := h.small r (hp.mem_iff.mp hr)

theorem key_ne (h : Entries (pre ++ rp :: post) options) (hrp : rp.key = lower name) :
    (∀ r ∈ pre, r.key ≠ lower name) ∧ ∀ r ∈ post, r.key ≠ lower name := by
  have hnodup := h.nodup
  rw [map_append, map_cons, nodup_middle, nodup_cons, ← map_append] at hnodup
  constructor
  · intro r hr heq
    exact hnodup.1 (mem_map.mpr ⟨r, mem_append_left _ hr, heq.trans hrp.symm⟩)
  · intro r hr heq
    exact hnodup.1 (mem_map.mpr ⟨r, mem_append_right _ hr, heq.trans hrp.symm⟩)

theorem update (h : Entries rules options) {k : Bytes} {v : Option (List Bytes)}
    (hnodup : (rules'.map key).Nodup)
    (hkeys : ∀ n, n ∈ rules'.map key ↔ if n = k then v.isSome = true else n ∈ rules.map key)
    (hrules : ∀ r ∈ rules', (r.key = k ∧ r.Small ∧ ∀ args ∈ v, r.argv = args.take aclFilterMaxArgv)
      ∨ (r ∈ rules ∧ r.key ≠ k)) (hvalid : ∀ args ∈ v, ∀ a ∈ args, (readOption a).isSome) :
    Entries rules' (Function.update options k v) where
  nodup := hnodup
  keys n := by
    rw [hkeys, ← h.keys]
    by_cases hn : n = k
    · subst hn
      simp
    · simp [hn]
  argv r hr args hargs := by
    rcases hrules r hr with ⟨rfl, -, hargv⟩ | ⟨hold, hne⟩
    · exact hargv args (by simpa using hargs)
    · rw [update_of_ne hne] at hargs
      exact h.argv r hold args hargs
  valid n args hargs := by
    by_cases hn : n = k
    · subst hn
      exact hvalid args (by simpa using hargs)
    · rw [update_of_ne hn] at hargs
      exact h.valid n args hargs
  small r hr := by
    rcases hrules r hr with ⟨-, hsmall, -⟩ | ⟨hold, -⟩
    · exact hsmall
    · exact h.small r hold

theorem replace (h : Entries (pre ++ rp :: post) options) (rule : AclFilterRule) (hkey : rule.key = rp.key)
    (hsmall : rule.Small)
    (hargv : rule.argv = args.take aclFilterMaxArgv) (hvalid : ∀ a ∈ args, (readOption a).isSome) :
    Entries (pre ++ rule :: post) (Function.update options rp.key (some args)) := by
  have hmap : (pre ++ rule :: post).map key = (pre ++ rp :: post).map key := by simp [hkey]
  obtain ⟨hpre, hpost⟩ := h.key_ne (rfl : rp.key = lower rp.filterName)
  apply h.update
  · rw [hmap]
    exact h.nodup
  · intro n
    rw [hmap]
    split <;> simp [*]
  · intro r hr
    rcases mem_middle.mp hr with rfl | hr | hr
    · exact .inl ⟨hkey, hsmall, fun _ hargs => Option.some.inj hargs ▸ hargv⟩
    · exact .inr ⟨mem_middle.mpr (.inr (.inl hr)), hpre r hr⟩
    · exact .inr ⟨mem_middle.mpr (.inr (.inr hr)), hpost r hr⟩
  · exact fun _ hargs => Option.some.inj hargs ▸ hvalid

theorem append (h : Entries rules options) (rule : AclFilterRule)
    (hnew : options rule.key = none) (hsmall : rule.Small) (hargv : rule.argv = args.take aclFilterMaxArgv)
    (hvalid : ∀ a ∈ args, (readOption a).isSome) :
    Entries (rules ++ [rule]) (Function.update options rule.key (some args)) := by
  have hnot : rule.key ∉ rules.map key := by
    rw [← h.keys, hnew]
    exact Bool.false_ne_true
  apply h.update
  · rw [map_append, map_singleton, ← concat_eq_append]
    exact h.nodup.concat hnot
  · intro n
    split <;> simp [*]
  · intro r hr
    rcases mem_append.mp hr with hr | hr
    · exact .inr ⟨hr, fun heq => hnot (mem_map.mpr ⟨r, hr, heq⟩)⟩
    · rw [mem_singleton.mp hr]
      exact .inl ⟨rfl, hsmall, fun _ hargs => Option.some.inj hargs ▸ hargv⟩
  · exact fun _ hargs => Option.some.inj hargs ▸ hvalid

theorem delete (h : Entries (pre ++ rp :: post) options) :
    Entries (pre ++ post) (Function.update options rp.key none) := by
  obtain ⟨hpre, hpost⟩ := h.key_ne (rfl : rp.key = lower rp.filterName)
  have hnodup := h.nodup
  rw [map_append, map_cons, nodup_middle, nodup_cons, ← map_append] at hnodup
  apply h.update hnodup.2
  · intro n
    split
    · rename_i hn
      simpa [hn] using hnodup.1
    · simp [*]
  · intro r hr
    refine .inr ⟨mem_middle.mpr (.inr (mem_append.mp hr)), ?_⟩
    exact (mem_append.mp hr).elim (hpre r) (hpost r)
  · exact fun _ hargs => absurd hargs (Option.not_mem_none _)

end Entries

/-- The list of filters represents what is defined and active. -/
structure Rep (rules : List AclFilterRule) (c : Config) : Prop where
  entries : Entries rules c.options
  split : ∃ act pas, rules = act ++ pas ∧ (∀ r ∈ act, r.activeQueueFlag = true) ∧
    (∀ r ∈ pas, r.activeQueueFlag = false) ∧ act.map key = c.active

theorem exists_split_iff {names : List Bytes} :
    (∃ act pas, rules = act ++ pas ∧ (∀ r ∈ act, r.activeQueueFlag = true) ∧
      (∀ r ∈ pas, r.activeQueueFlag = false) ∧ act.map key = names) ↔
    rules.Pairwise (fun r r' => r'.activeQueueFlag = true → r.activeQueueFlag = true) ∧
      (rules.filter (·.activeQueueFlag)).map key = names := by
  constructor
  · rintro ⟨act, pas, rfl, hact, hpas, rfl⟩
    have hnone : pas.filter (·.activeQueueFlag) = [] := by simpa using hpas
    rw [filter_append, filter_eq_self.mpr hact, hnone, append_nil]
    refine ⟨pairwise_append.mpr ⟨?_, ?_, fun r hr _ _ _ => hact r hr⟩, rfl⟩
    · exact pairwise_of_forall_mem_list fun r hr _ _ _ => hact r hr
    · exact pairwise_of_forall_mem_list fun _ _ r hr hflag => by simp [hpas r hr] at hflag
  · rintro ⟨hsorted, rfl⟩
    refine ⟨rules.filter (·.activeQueueFlag), rules.filter (!·.activeQueueFlag), ?_, by simp, by simp, rfl⟩
    induction hsorted with
    | nil => rfl
    | @cons r rules hr _ ih =>
      cases hflag : r.activeQueueFlag with
      | true => simpa [hflag] using ih
      | false =>
        have hpas : ∀ r' ∈ rules, r'.activeQueueFlag = false := by simpa [hflag] using hr
        have hnone : rules.filter (·.activeQueueFlag) = [] := by simpa using hpas
        simpa [hflag, hnone] using ih

namespace Rep

variable {rules : List AclFilterRule} {c : Config} {name : Bytes} {rp : AclFilterRule}

theorem sorted (h : Rep rules c) :
    rules.Pairwise (fun r r' => r'.activeQueueFlag = true → r.activeQueueFlag = true) :=
  (exists_split_iff.mp h.split).1

theorem active_eq (h : Rep rules c) : (rules.filter (·.activeQueueFlag)).map key = c.active :=
  (exists_split_iff.mp h.split).2

theorem empty : Rep [] empty where
  entries :=
    { nodup := nodup_nil
      keys := fun n => by simp [Config.empty]
      argv := fun r hr => absurd hr not_mem_nil
      valid := fun n args hargs => absurd hargs (Option.some_ne_none args).symm
      small := fun r hr => absurd hr not_mem_nil }
  split := ⟨[], [], rfl, by simp, by simp, rfl⟩

theorem findByname_none (h : Rep rules c) (hname : name ≠ []) :
    findByname rules name = none ↔ c.options (lower name) = none := by
  rw [findByname, if_neg hname, find?_eq_none, ← Option.isNone_iff_eq_none,
    ← Option.not_isSome, Bool.not_eq_true', Bool.eq_false_iff, ne_eq, h.entries.keys, mem_map]
  simp only [hasName_iff, not_exists, not_and]

theorem takeWhile_active {act pas : List AclFilterRule} (hact : ∀ r ∈ act, r.activeQueueFlag = true)
    (hpas : ∀ r ∈ pas, r.activeQueueFlag = false) : (act ++ pas).takeWhile (·.activeQueueFlag) = act ∧
      (act ++ pas).dropWhile (·.activeQueueFlag) = pas := by
  rw [takeWhile_append_of_pos hact, dropWhile_append_of_pos hact]
  cases pas with
  | nil => simp
  | cons r pas => simp [hpas r mem_cons_self]

theorem filter_key_ne {pre post : List AclFilterRule} (hpre : ∀ r ∈ pre, r.key ≠ lower name)
    (hpost : ∀ r ∈ post, r.key ≠ lower name) (hkey : rp.key = lower name) :
    (((pre ++ rp :: post).filter (·.activeQueueFlag)).map key).filter (· ≠ lower name) =
      ((pre ++ post).filter (·.activeQueueFlag)).map key := by
  have hkeep {l : List AclFilterRule} (hl : ∀ r ∈ l, r.key ≠ lower name) :
      ((l.filter (·.activeQueueFlag)).map key).filter (· ≠ lower name) = (l.filter (·.activeQueueFlag)).map key := by
    apply filter_eq_self.mpr
    intro n hn
    obtain ⟨r, hr, rfl⟩ := mem_map.mp hn
    exact decide_eq_true (hl r (mem_filter.mp hr).1)
  rw [filter_append, filter_append, map_append, filter_append, hkeep hpre, map_append, filter_cons]
  split
  · rw [map_cons, hkey, filter_cons_of_neg (by simp), hkeep hpost]
  · rw [hkeep hpost]

theorem take_append_take (args new : List Bytes) (n : Nat) :
    args.take n ++ new.take (n - (args.take n).length) = (args ++ new).take n := by
  rw [take_append, length_take]
  congr 2
  omega

variable {rule : AclFilterRule}

theorem define_new (h : Rep rules c) (hname : name ≠ []) (hfind : findByname rules name = none)
    (hvalid : ∀ a ∈ argv, (readOption a).isSome) (hsmall : rule.Small) (hsame : new.SameEntry rule) :
    Rep (rules ++ [{ rule with filterName := name }.addArgv argv]) (c.define name argv) := by
  have hnone := (h.findByname_none hname).mp hfind
  rw [define, if_pos hvalid, hnone, Option.getD_none, nil_append]
  obtain ⟨act, pas, rfl, hact, hpas, hactive⟩ := h.split
  refine ⟨?_, act, pas ++ [_], append_assoc _ _ _, hact, ?_, hactive⟩
  · apply h.entries.append (({ rule with filterName := name } : AclFilterRule).addArgv argv) hnone
    · exact ⟨hsmall.methods, hsmall.nodup, hsmall.srcIps⟩
    · show rule.argv ++ argv.take (aclFilterMaxArgv - rule.argv.length) = _
      rw [hsame.2.1]
      rfl
    · exact hvalid
  · intro r hr
    rcases mem_append.mp hr with hr | hr
    · exact hpas r hr
    · rw [mem_singleton.mp hr]
      exact hsame.2.2

theorem filter_active (hnot : lower name ∉ c.active) : c.active.filter (· ≠ lower name) = c.active := by
  apply filter_eq_self.mpr
  intro n hn
  exact decide_eq_true fun heq => hnot (heq ▸ hn)

theorem not_active (h : Rep rules c) (hnone : c.options (lower name) = none) : lower name ∉ c.active := by
  intro hin
  rw [← h.active_eq] at hin
  have hsome := (h.entries.keys _).mpr (map_subset key (filter_subset_self rules) hin)
  rw [hnone] at hsome
  cases hsome

section Found
variable (h : Rep rules c) (hfind : findByname rules name = some rp)
include h hfind

theorem findByname_some : rp.key = lower name ∧ rp ∈ rules ∧ (rp.activeQueueFlag = true ↔ lower name ∈ c.active) ∧
      ∃ args, c.options (lower name) = some args ∧ rp.argv = args.take aclFilterMaxArgv := by
  by_cases hname : name = []
  · rw [findByname, if_pos hname] at hfind
    cases hfind
  rw [findByname, if_neg hname] at hfind
  have hkey : rp.key = lower name := hasName_iff.mp (find?_some hfind)
  have hmem := mem_of_find?_eq_some hfind
  refine ⟨hkey, hmem, ?_, ?_⟩
  · rw [← h.active_eq, ← hkey]
    constructor
    · exact fun hflag => mem_map.mpr ⟨rp, mem_filter.mpr ⟨hmem, hflag⟩, rfl⟩
    · intro hin
      obtain ⟨r, hr, heq⟩ := mem_map.mp hin
      obtain ⟨hr, hflag⟩ := mem_filter.mp hr
      -- the names differ, so the active filter with this name is the one found
      rwa [inj_on_of_nodup_map h.entries.nodup hr hmem heq] at hflag
  · have hsome := (h.entries.keys rp.key).mpr (mem_map.mpr ⟨rp, hmem, rfl⟩)
    obtain ⟨args, hargs⟩ := Option.isSome_iff_exists.mp hsome
    exact ⟨args, hkey ▸ hargs, h.entries.argv rp hmem args hargs⟩

theorem replace (hkey : rule.key = rp.key) (hflag : rule.activeQueueFlag = rp.activeQueueFlag) (hsmall : rule.Small)
    (hargv : rule.argv = args.take aclFilterMaxArgv) (hvalid : ∀ a ∈ args, (readOption a).isSome) :
    Rep (replaceByname rules name rule) { c with options := Function.update c.options (lower name) (some args) } := by
  obtain ⟨hname, hmem, -, -⟩ := h.findByname_some hfind
  obtain ⟨pre, post, rfl⟩ := append_of_mem hmem
  rw [replaceByname_eq (h.entries.key_ne hname).1 hname, ← hname]
  refine ⟨h.entries.replace rule hkey hsmall hargv hvalid, exists_split_iff.mpr ⟨?_, ?_⟩⟩
  · have hsorted := h.sorted
    simp only [pairwise_append, pairwise_cons, mem_cons, forall_eq_or_imp, hflag] at hsorted ⊢
    exact hsorted
  · show _ = c.active
    rw [← h.active_eq, filter_append, filter_append, filter_cons, filter_cons, hflag]
    split <;> simp [hkey]

theorem define_found (hvalid : ∀ a ∈ argv, (readOption a).isSome) (hsmall : rule.Small) (hsame : rp.SameEntry rule) :
    Rep (replaceByname rules name (rule.addArgv argv)) (c.define name argv) := by
  obtain ⟨-, -, -, args, hargs, hargv⟩ := h.findByname_some hfind
  rw [define, if_pos hvalid, hargs, Option.getD_some]
  apply h.replace hfind
  · exact congrArg lower hsame.1
  · exact hsame.2.2
  · exact ⟨hsmall.methods, hsmall.nodup, hsmall.srcIps⟩
  · show rule.argv ++ argv.take (aclFilterMaxArgv - rule.argv.length) = _
    rw [hsame.2.1, hargv, take_append_take]
  · intro a ha
    rcases mem_append.mp ha with ha | ha
    · exact h.entries.valid _ args hargs a ha
    · exact hvalid a ha

theorem define_error (hsmall : rule.Small) (hsame : rp.SameEntry rule) : Rep (replaceByname rules name rule) c := by
  obtain ⟨-, -, -, args, hargs, hargv⟩ := h.findByname_some hfind
  have hrep := h.replace hfind (congrArg lower hsame.1) hsame.2.2 hsmall
    (hsame.2.1.trans hargv) (h.entries.valid _ args hargs)
  rwa [← hargs, update_eq_self] at hrep

theorem activate : Rep (requeueInActiveList rules name rp) (c.activate name) := by
  obtain ⟨hkey, hmem, hiff, args, hargs, hargv⟩ := h.findByname_some hfind
  unfold requeueInActiveList Config.activate
  cases hflag : rp.activeQueueFlag with
  | true =>
    rw [if_neg (by simp), if_neg fun hc => hc.2 (hiff.mp hflag)]
    exact h
  | false =>
    have hnot : lower name ∉ c.active := by
      rw [← hiff, hflag]
      exact Bool.false_ne_true
    rw [if_pos rfl, if_pos ⟨by rw [hargs]; rfl, hnot⟩]
    obtain ⟨act, pas, rfl, hact, hpas, hactive⟩ := h.split
    have hin : rp ∈ pas := by
      rcases mem_append.mp hmem with hin | hin
      · rw [hact rp hin] at hflag
        cases hflag
      · exact hin
    obtain ⟨p1, p2, rfl⟩ := append_of_mem hin
    have hrest : ∀ r ∈ p1 ++ p2, r.activeQueueFlag = false := fun r hr =>
      hpas r (mem_middle.mpr (.inr (mem_append.mp hr)))
    have hentries := h.entries
    rw [← append_assoc] at hentries ⊢
    rw [eraseP_hasName (hentries.key_ne hkey).1 hkey, append_assoc]
    obtain ⟨htake, hdrop⟩ := takeWhile_active hact hrest
    simp only [htake, hdrop]
    have hmoved := hentries.replace { rp with activeQueueFlag := true } rfl
      ((h.entries.small rp hmem).setActive true) hargv (h.entries.valid _ args hargs)
    rw [hkey, ← hargs, update_eq_self] at hmoved
    refine ⟨hmoved.perm ?_, act ++ [{ rp with activeQueueFlag := true }], p1 ++ p2, by simp, ?_, hrest, ?_⟩
    · rw [append_assoc]
      exact (perm_middle.symm).append_left act
    · intro r hr
      rcases mem_append.mp hr with hr | hr
      · exact hact r hr
      · rw [mem_singleton.mp hr]
    · rw [map_append, hactive, ← hkey]
      rfl

theorem deactivate : Rep (requeueInPassiveList rules name rp) (c.deactivate name) := by
  obtain ⟨hkey, hmem, hiff, args, hargs, hargv⟩ := h.findByname_some hfind
  unfold requeueInPassiveList Config.deactivate
  cases hflag : rp.activeQueueFlag with
  | false =>
    have hnot : lower name ∉ c.active := by
      rw [← hiff, hflag]
      exact Bool.false_ne_true
    rw [if_neg Bool.false_ne_true, filter_active hnot]
    exact h
  | true =>
    rw [if_pos rfl]
    obtain ⟨pre, post, rfl⟩ := append_of_mem hmem
    obtain ⟨hpre, hpost⟩ := h.entries.key_ne hkey
    rw [eraseP_hasName hpre hkey]
    have hmoved := h.entries.replace { rp with activeQueueFlag := false } rfl
      ((h.entries.small rp hmem).setActive false) hargv (h.entries.valid _ args hargs)
    rw [hkey, ← hargs, update_eq_self] at hmoved
    refine ⟨hmoved.perm ?_, exists_split_iff.mpr ⟨pairwise_append.mpr ⟨?_, ?_, ?_⟩, ?_⟩⟩
    · rw [append_assoc]
      exact (perm_append_singleton _ _).append_left pre
    · exact h.sorted.sublist ((sublist_cons_self rp post).append_left pre)
    · exact pairwise_singleton _ _
    · simp
    · show _ = c.active.filter _
      rw [← h.active_eq, filter_key_ne hpre hpost hkey, filter_append]
      simp

end Found

theorem delete (h : Rep rules c) (hname : name ≠ []) : Rep (deleteByname rules name) (c.delete name) := by
  rw [deleteByname, if_neg hname]
  cases hfind : findByname rules name with
  | none =>
    have hnone := (h.findByname_none hname).mp hfind
    rw [findByname, if_neg hname, find?_eq_none] at hfind
    rw [eraseP_of_forall_not hfind, Config.delete, ← hnone, update_eq_self, filter_active (h.not_active hnone)]
    exact h
  | some rp =>
    obtain ⟨hkey, hmem, -, -⟩ := h.findByname_some hfind
    obtain ⟨pre, post, rfl⟩ := append_of_mem hmem
    obtain ⟨hpre, hpost⟩ := h.entries.key_ne hkey
    rw [eraseP_hasName hpre hkey, delete, ← hkey]
    refine ⟨h.entries.delete, exists_split_iff.mpr ⟨?_, ?_⟩⟩
    · exact h.sorted.sublist ((sublist_cons_self rp post).append_left pre)
    · show _ = c.active.filter _
      rw [← h.active_eq, hkey, filter_key_ne hpre hpost hkey]

theorem parseDirective (h : Rep rules c) {line : Words} (hnames : ∀ w ∈ line.paramv, w ≠ []) :
    Rep (parseDirective rules line).1 (c.directive line) := by
  unfold Remap.parseDirective directive
  rcases hparamv : line.paramv with _ | ⟨word, _ | ⟨name, params⟩⟩
  · exact h
  · simp only
    repeat' split
    all_goals exact h
  have hname : name ≠ [] := hnames name (by rw [hparamv]; simp)
  by_cases hdot : word.head? ≠ some 46
  · simp only [if_pos hdot, if_pos (Or.inl hdot)]
    exact h
  by_cases htail : word.tail = []
  · obtain ⟨hdefine, hdelete, hactivate, hdeactivate⟩ := isInkeylist_nil
    simp only [if_neg hdot, htail, hdefine, hdelete, hactivate, hdeactivate, Bool.false_eq_true, or_true, ↓reduceIte]
    exact h
  simp only [if_neg hdot, if_neg (not_or.mpr ⟨hdot, htail⟩)]
  by_cases hdefine : isInkeylist word.tail defineWords
  · simp only [if_pos hdefine]
    by_cases hargv : line.argv = []
    · simp only [if_pos hargv]
      exact h
    simp only [if_neg hargv]
    cases hfind : findByname rules name with
    | none =>
      obtain ⟨rule, e, heq, hsmall, hsame, ⟨hvalid, rfl⟩ | ⟨hvalid, text, rfl⟩⟩ :=
        validateFilterArgs_cases line.argv Small.new
      · rw [heq]
        exact h.define_new hname hfind hvalid hsmall hsame
      · rw [heq, define, if_neg hvalid]
        exact h
    | some rp =>
      obtain ⟨rule, e, heq, hsmall, hsame, ⟨hvalid, rfl⟩ | ⟨hvalid, text, rfl⟩⟩ :=
        validateFilterArgs_cases line.argv (h.entries.small rp (h.findByname_some hfind).2.1)
      · simp only [heq]
        exact h.define_found hfind hvalid hsmall hsame
      · simp only [heq, define, if_neg hvalid]
        exact h.define_error hfind hsmall hsame
  by_cases hdelete : isInkeylist word.tail deleteWords
  · simp only [if_neg hdefine, if_pos hdelete]
    exact h.delete hname
  by_cases hactivate : isInkeylist word.tail activateWords
  · simp only [if_neg hdefine, if_neg hdelete, if_pos hactivate]
    cases hfind : findByname rules name with
    | none =>
      rw [Config.activate, (h.findByname_none hname).mp hfind]
      exact h
    | some rp => exact h.activate hfind
  by_cases hdeactivate : isInkeylist word.tail deactivateWords
  · simp only [if_neg hdefine, if_neg hdelete, if_neg hactivate, if_pos hdeactivate]
    cases hfind : findByname rules name with
    | none =>
      rw [Config.deactivate, filter_active (h.not_active ((h.findByname_none hname).mp hfind))]
      exact h
    | some rp => exact h.deactivate hfind
  · simp only [if_neg hdefine, if_neg hdelete, if_neg hactivate, if_neg hdeactivate]
    exact h

theorem tokens_ne_nil (delimit : Bytes) (s : Bytes) : ∀ word, ∀ t ∈ tokens delimit word s, t ≠ [] := by
  induction s with
  | nil =>
    intro word t ht
    unfold tokens at ht
    split at ht
    · cases ht
    · rename_i hword
      rw [mem_singleton.mp ht]
      exact hword
  | cons x s ih =>
    intro word t ht
    unfold tokens at ht
    split at ht
    · split at ht
      · exact ih [] t ht
      · rename_i hword
        rcases mem_cons.mp ht with rfl | ht
        · exact hword
        · exact ih [] t ht
    · exact ih _ t ht

theorem lineWords_ne_nil {words : Words} (h : lineWords text = some words) : ∀ w ∈ words.paramv, w ≠ [] := by
  unfold lineWords at h
  simp only at h
  split at h
  · cases h
  · cases h
    intro w hw
    exact tokens_ne_nil _ _ _ w (mem_of_mem_filter hw)

theorem line (h : Rep rules c) {rules' : List AclFilterRule}
    (hline : buildTableLine rules text = some rules') : Rep rules' (c.line text) := by
  unfold buildTableLine at hline
  unfold Config.line
  cases hwords : lineWords text with
  | none =>
    simp only [hwords] at hline ⊢
    cases hline
    exact h
  | some words =>
    simp only [hwords] at hline ⊢
    split at hline
    · cases hline
    split_ifs with hlen
    · cases hparamv : words.paramv with
      | nil =>
        rw [hparamv] at hline
        cases hline
        rw [directive, hparamv]
        exact h
      | cons p params =>
        simp only [hparamv] at hline hlen
        split at hline
        · cases hline
          exact h.parseDirective (lineWords_ne_nil hwords)
        · rename_i hnot
          cases hline
          -- a line that is no directive means nothing for the filters
          have hdot : p.head? ≠ some 46 := fun hdot => hnot ⟨hdot, hlen⟩
          have hsame : c.directive words = c := by
            rw [directive, hparamv]
            cases params with
            | nil => rfl
            | cons name params => exact if_pos hdot
          rw [hsame]
          exact h
    · split at hline
      · cases hline
        exact h
      · rename_i p params hparamv
        rw [if_neg fun hc => hlen hc.2] at hline
        cases hline
        exact h

theorem run {before : List Bytes} :
    ∀ {rules : List AclFilterRule} {c : Config} {rules' : List AclFilterRule}, Rep rules c →
      before.foldlM buildTableLine rules = some rules' → Rep rules' (before.foldl Config.line c) := by
  induction before with
  | nil =>
    intro rules c rules' h hrun
    cases hrun
    exact h
  | cons text before ih =>
    intro rules c rules' h hrun
    obtain ⟨mid, hline, hrest⟩ := Option.bind_eq_some_iff.mp hrun
    exact ih (h.line hline) hrest

end Rep

def LineFits (text : Bytes) : Prop := ∀ words, lineWords text = some words → words.Fits

theorem buildTableLine_isSome (rules : List AclFilterRule) (text : Bytes) :
    (buildTableLine rules text).isSome ↔ LineFits text := by
  unfold buildTableLine LineFits
  cases lineWords text with
  | none => simp
  | some words =>
    simp only [Option.some.injEq, forall_eq']
    by_cases hfits : words.Fits
    · rw [if_neg (not_not.mpr hfits)]
      simp only [hfits, iff_true]
      split
      · rfl
      · split <;> rfl
    · rw [if_pos hfits]
      simp [hfits]

theorem foldlM_isSome (before : List Bytes) :
    ∀ rules : List AclFilterRule, (before.foldlM buildTableLine rules).isSome ↔ ∀ text ∈ before, LineFits text := by
  induction before with
  | nil => simp
  | cons text before ih =>
    intro rules
    rw [foldlM_cons, forall_mem_cons, ← buildTableLine_isSome rules text]
    cases buildTableLine rules text with
    | none => simp
    | some mid => simpa using ih mid

/-! ### The filters of a rule -/

theorem mapM_eq_ok {α β ε : Type} {f : α → Except ε β} {g : α → β} {l : List α}
    (h : ∀ a ∈ l, f a = .ok (g a)) : l.mapM f = .ok (l.map g) := by
  induction l with
  | nil => rfl
  | cons a l ih =>
    rw [mapM_cons, h a mem_cons_self, ih fun b hb => h b (mem_cons_of_mem _ hb)]
    rfl

def made (argv : List Bytes) : AclFilterRule := (written argv).foldl AclFilterRule.apply .new

theorem makeFilter_ok (h : ∀ a ∈ argv, (readOption a).isSome) : makeFilter argv = .ok (made argv) := by
  have hspec := (validateFilterArgs_spec argv Small.new).2.2
  rw [if_pos h] at hspec
  rw [makeFilter, hspec]
  rfl

theorem makeFilter_error (h : ¬∀ a ∈ argv, (readOption a).isSome) : ∃ e, makeFilter argv = .error e := by
  obtain ⟨rule, e, heq, -, -, ⟨hvalid, -⟩ | ⟨-, text, rfl⟩⟩ := validateFilterArgs_cases argv Small.new
  · exact absurd hvalid h
  · exact ⟨text, by rw [makeFilter, heq]⟩

/-- `process_filter_opt` makes the active filters of what is stored of them, and one of the options of the
rule unless one of these is wrong. -/
theorem processFilterOpt_eq {c : Config} (h : Rep rules c) (line : Words) :
    if line.HasFilter → ∀ a ∈ line.argv, (readOption a).isSome then processFilterOpt rules line = .ok
        (c.active.map (fun name => made (((c.options name).getD []).take aclFilterMaxArgv)) ++
          if line.HasFilter then [made line.argv] else []) else ∃ e, processFilterOpt rules line = .error e := by
  obtain ⟨act, hfilter⟩ : ∃ act, rules.filter (·.activeQueueFlag) = act := ⟨_, rfl⟩
  have hactive := h.active_eq
  rw [hfilter] at hactive
  have hstored : ∀ r ∈ act, r.argv = ((c.options r.key).getD []).take aclFilterMaxArgv ∧
      ∀ a ∈ r.argv, (readOption a).isSome := by
    intro r hr
    have hmem : r ∈ rules := mem_of_mem_filter (hfilter ▸ hr)
    obtain ⟨args, hargs⟩ := Option.isSome_iff_exists.mp ((h.entries.keys r.key).mpr (mem_map.mpr ⟨r, hmem, rfl⟩))
    have hargv := h.entries.argv r hmem args hargs
    refine ⟨by rw [hargs, hargv]; rfl, fun a ha => ?_⟩
    rw [hargv] at ha
    exact h.entries.valid _ args hargs a (mem_of_mem_take ha)
  have hnames : act.map (fun r => made r.argv) =
      c.active.map fun name => made (((c.options name).getD []).take aclFilterMaxArgv) := by
    rw [← hactive, map_map]
    apply map_congr_left
    intro r hr
    exact congrArg made (hstored r hr).1
  have hmap : act.mapM (fun rp => makeFilter rp.argv) = .ok (act.map fun r => made r.argv) :=
    mapM_eq_ok fun r hr => makeFilter_ok (hstored r hr).2
  unfold processFilterOpt
  rw [hfilter, hmap, hnames]
  simp only [bind, Except.bind]
  by_cases hhas : line.HasFilter
  · have hany := hhas
    unfold Words.HasFilter at hany
    by_cases hvalid : ∀ a ∈ line.argv, (readOption a).isSome
    · rw [if_pos fun _ => hvalid, if_pos hhas, if_pos hany, makeFilter_ok hvalid]
    · obtain ⟨e, he⟩ := makeFilter_error hvalid
      rw [if_neg fun himp => hvalid (himp hhas), if_pos hany, he]
      exact ⟨e, rfl⟩
  · have hany := hhas
    unfold Words.HasFilter at hany
    rw [if_pos fun hc => absurd hc hhas, if_neg hhas, if_neg hany, append_nil]

theorem forall₂_map_append {α β γ : Type} {R : β → γ → Prop} {f : α → β} {g : α → γ} {x : List β}
    {y : List γ} (l : List α) :
    List.Forall₂ R (l.map f ++ x) (l.map g ++ y) ↔ (∀ a ∈ l, R (f a) (g a)) ∧ List.Forall₂ R x y := by
  induction l with
  | nil => simp
  | cons a l ih => simp [ih, and_assoc]

theorem forall₂_filters (c : Config) (line : Words) :
    List.Forall₂ (fun rule argv => Holds inetAddr rule (written argv))
        (c.active.map (fun name => made (((c.options name).getD []).take aclFilterMaxArgv)) ++
          if line.HasFilter then [made line.argv] else []) (c.filters line) ↔
      (∀ name ∈ c.active, Kept inetAddr ((c.options name).getD [])
        (((c.options name).getD []).take aclFilterMaxArgv)) ∧
      (line.HasFilter → Kept inetAddr line.argv line.argv) := by
  rw [filters, forall₂_map_append]
  apply and_congr
  · exact forall₂_congr fun name _ => holds_iff_kept _ _ _
  · by_cases hhas : line.HasFilter
    · rw [if_pos hhas, if_pos hhas, List.forall₂_cons]
      constructor
      · exact fun hholds _ => (holds_iff_kept _ _ _).mp hholds.1
      · exact fun hkept => ⟨(holds_iff_kept _ _ _).mpr (hkept hhas), .nil⟩
    · simp [hhas]

/-- Nothing is lost of the filters of the rule, and none of them denies the request unless the connection is
disabled already. -/
structure NothingLost (inetAddr : Bytes → BitVec 32) (c : Config) (line : Words)
    (s : TransactState) : Prop where
  active : ∀ name ∈ c.active, Kept inetAddr ((c.options name).getD [])
    (((c.options name).getD []).take aclFilterMaxArgv)
  own : line.HasFilter → Kept inetAddr line.argv line.argv
  denied : (∃ argv ∈ c.filters line, Denies inetAddr (written argv) s) →
    s.clientConnectionEnabled = false

/-- **Filters are not enforced.** The rule of a line has its filters, and they decide about a request, iff
every line fits into the arrays of `BuildTable` and, unless the rule is rejected for a wrong option, no
filter has more than 512 options that count or a source address other than 0.0.0.0, and no filter denies the
request. -/
theorem filtersEnforced_iff (inetAddr : Bytes → BitVec 32) (before : List Bytes)
    (line : Words) (s : TransactState) : FiltersEnforced inetAddr before line s ↔
      (∀ text ∈ before, LineFits text) ∧ line.Fits ∧ ((line.HasFilter → ∀ a ∈ line.argv, (readOption a).isSome) →
          NothingLost inetAddr (configOf before) line s) := by
  unfold FiltersEnforced ruleFilters
  rw [← foldlM_isSome before []]
  cases hrun : before.foldlM buildTableLine [] with
  | none => simp
  | some rules =>
    have hrep : Rep rules (configOf before) := Rep.run Rep.empty hrun
    by_cases hfits : line.Fits
    · have hopt := processFilterOpt_eq hrep line
      simp only [Option.isSome_some, true_and, hfits]
      by_cases hvalid : line.HasFilter → ∀ a ∈ line.argv, (readOption a).isSome
      · rw [if_pos hvalid] at hopt
        simp only [hopt, Option.bind_eq_bind, Option.bind_some, ↓reduceIte]
        rw [forall₂_filters]
        constructor
        · rintro ⟨⟨hactive, hown⟩, hdeny, -⟩ -
          exact ⟨hactive, hown, hdeny⟩
        · intro hlost
          obtain ⟨hactive, hown, hdenied⟩ := hlost hvalid
          exact ⟨⟨hactive, hown⟩, hdenied, fun _ => rfl⟩
      · rw [if_neg hvalid] at hopt
        obtain ⟨e, he⟩ := hopt
        simp [he, hvalid]
    · simp [hfits]

def denyAll : List Bytes :=
  [strBytes ".definefilter f @action=deny", strBytes ".activatefilter f"]

/-- A `GET` request of a client is let through the rule of a line after these. -/
theorem denyAll_not_enforced :
    ¬FiltersEnforced (fun _ => 0) denyAll ⟨[strBytes "map", strBytes "http://a/", strBytes "http://b/"], []⟩
      ⟨some 112, 0x7f000001, true⟩ := by
  have hfilters : ruleFilters denyAll
      ⟨[strBytes "map", strBytes "http://a/", strBytes "http://b/"], []⟩ =
        some (.ok [{ new with allowFlag := false }]) := by decide +kernel
  have hconfig : (configOf denyAll).filters
      ⟨[strBytes "map", strBytes "http://a/", strBytes "http://b/"], []⟩ =
        [[strBytes "action=deny"]] := by decide +kernel
  unfold FiltersEnforced
  rw [hfilters]
  rintro ⟨-, hdeny, -⟩
  have hdenies : Denies (fun _ => 0) (written [strBytes "action=deny"])
      ⟨some 112, 0x7f000001, true⟩ := by
    refine ⟨by decide +kernel, .inl (by decide +kernel), .inl ?_⟩
    decide +kernel
  have henabled := hdeny ⟨_, by rw [hconfig]; exact mem_singleton.mpr rfl, hdenies⟩
  cases henabled

end Remap

end TrafficServer
