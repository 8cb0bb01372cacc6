import TrafficServer.Lib.LeastKey
import TrafficServer.Proxy.ControlBase

/-!
# Rules of `cache.config`

A record has one directive. `UpdateMatch` lets the record with the lowest line number decide, for each
directive on its own, so for each of them the result is a slot kept by its least key. The exception is
`never_line`, which `never-cache` and `standard-cache` compare and `ttl-in-cache` overwrites without a
comparison. The result is free of the order exactly if no such comparison can be lost
(`verdict_orderFree_iff`).
-/

namespace TrafficServer

open List MatcherUtils ControlBase LeastKey Option

/-- The directives, without the ones of a record that is not initialised. -/
inductive CacheControlType where
  | revalidateAfter
  | neverCache
  | standardCache
  | ignoreNoCache
  | ignoreClientNoCache
  | ignoreServerNoCache
  | pinInCache
  | ttlInCache
deriving DecidableEq

structure CacheControlRecord where
  directive : CacheControlType
  timeArg : Int
  lineNum : Nat
  mods : Option (List Modifier)
deriving DecidableEq

/-- The values and the lines they are from; `-1` is `CC_UNSET_TIME` and the line of no rule. -/
@[ext] structure CacheControlResult where
  revalidateAfter : Int := -1
  pinInCacheFor : Int := -1
  ttlInCache : Int := -1
  neverCache : Bool := false
  ignoreClientNoCache : Bool := false
  ignoreServerNoCache : Bool := false
  revalLine : Int := -1
  neverLine : Int := -1
  pinLine : Int := -1
  ttlLine : Int := -1
  ignoreClientLine : Int := -1
  ignoreServerLine : Int := -1
deriving DecidableEq

namespace CacheControl

/-! ### Reading a line -/

def modulePrefix : String := "[CacheControl]"

def directiveOf (label val : Bytes) : Except String (Option (CacheControlType × Int)) :=
  if caseEq label "action" then
    if caseEq val "never-cache" then .ok (some (.neverCache, 0))
    else if caseEq val "standard-cache" then .ok (some (.standardCache, 0))
    else if caseEq val "ignore-no-cache" then .ok (some (.ignoreNoCache, 0))
    else if caseEq val "ignore-client-no-cache" then .ok (some (.ignoreClientNoCache, 0))
    else if caseEq val "ignore-server-no-cache" then .ok (some (.ignoreServerNoCache, 0))
    else .error "Invalid action"
  else if caseEq label "revalidate" then
    (processDurationString val).map fun t => some (.revalidateAfter, t)
  else if caseEq label "pin-in-cache" then
    (processDurationString val).map fun t => some (.pinInCache, t)
  else if caseEq label "ttl-in-cache" then
    (processDurationString val).map fun t => some (.ttlInCache, t)
  else .ok none

/-- The loop of `Init`: the first directive, and the line without its label. -/
def findDirective : List (Option Bytes × Bytes) →
    Except String (Option ((CacheControlType × Int) × List (Option Bytes × Bytes)))
  | [] => .ok none
  | (none, val) :: line => do
    let found ← findDirective line
    .ok (found.map fun (d, line) => (d, (none, val) :: line))
  | (some label, val) :: line => do
    match ← directiveOf label val with
    | some d => .ok (some (d, (none, val) :: line))
    | none =>
      let found ← findDirective line
      .ok (found.map fun (d, line) => (d, (some label, val) :: line))

def lineError (msg : String) (lineNum : Nat) : String :=
  modulePrefix ++ " " ++ msg ++ " at line " ++ toString lineNum ++ " in cache.config"

/-- `CacheControlRecord::Init` of a new record, and the line it leaves. -/
def init (inetAddr : Bytes → BitVec 32) (p : MatcherLine) :
    Except String (CacheControlRecord × MatcherLine) :=
  match findDirective p.line with
  | .error msg => .error (lineError msg p.lineNum)
  | .ok none =>
    .error (modulePrefix ++ " No directive in cache.config at line " ++ toString p.lineNum)
  | .ok (some ((directive, timeArg), line)) =>
    let p := { p with line, numEl := p.numEl - 1 }
    if p.numEl > 0 then
      match processModifiers inetAddr line with
      | .error msg => .error (lineError msg p.lineNum)
      | .ok mods => .ok (⟨directive, timeArg, p.lineNum, some mods⟩, p)
    else .ok (⟨directive, timeArg, p.lineNum, none⟩, p)

def directiveNames : List String := ["action", "revalidate", "pin-in-cache", "ttl-in-cache"]

section Reading
variable {inetAddr : Bytes → BitVec 32} {x : Item} {xs M : List Item} {d : CacheControlType × Int}
  {line line' : List (Option Bytes × Bytes)} {p : MatcherLine}

theorem directiveOf_of_readsAs {m : Modifier} (h : ReadsAs inetAddr x m) :
    directiveOf x.label x.value = .ok none := by
  have hname (t : String) (ht : t ∈ directiveNames) : caseEq x.label t = false :=
    h.caseEq_false (by decide +kernel) ht
  have h1 := hname "action" (by simp [directiveNames])
  have h2 := hname "revalidate" (by simp [directiveNames])
  have h3 := hname "pin-in-cache" (by simp [directiveNames])
  have h4 := hname "ttl-in-cache" (by simp [directiveNames])
  simp [directiveOf, h1, h2, h3, h4]

theorem findDirective_perm (h : findDirective line = .ok (some (d, line'))) :
    ∃ x : Item, (labelled line).Perm (x :: labelled line') ∧ directiveOf x.label x.value = .ok (some d) := by
  induction line generalizing line' with
  | nil => cases h
  | cons y line ih =>
    obtain ⟨_ | label, val⟩ := y
    · obtain ⟨found, hf, h⟩ := bind_eq_ok_iff.mp h
      obtain ⟨⟨d', rest⟩, rfl, heq⟩ := map_eq_some_iff.mp (Except.ok.inj h)
      obtain ⟨rfl, rfl⟩ := Prod.mk.inj heq
      obtain ⟨x, hperm, hx⟩ := ih hf
      exact ⟨x, hperm, hx⟩
    · obtain ⟨o, ho, h⟩ := bind_eq_ok_iff.mp h
      cases o with
      | some d' =>
        obtain ⟨rfl, rfl⟩ := Prod.mk.inj (some.inj (Except.ok.inj h))
        exact ⟨⟨label, val⟩, .refl _, ho⟩
      | none =>
        obtain ⟨found, hf, h⟩ := bind_eq_ok_iff.mp h
        obtain ⟨⟨d', rest⟩, rfl, heq⟩ := map_eq_some_iff.mp (Except.ok.inj h)
        obtain ⟨rfl, rfl⟩ := Prod.mk.inj heq
        obtain ⟨x, hperm, hx⟩ := ih hf
        exact ⟨x, (hperm.cons _).trans (.swap ..), hx⟩

theorem findDirective_of_perm (hperm : (labelled line).Perm (x :: M))
    (hx : directiveOf x.label x.value = .ok (some d))
    (hM : ∀ y ∈ M, directiveOf y.label y.value = .ok none) :
    ∃ line', findDirective line = .ok (some (d, line')) ∧ (labelled line').Perm M := by
  induction line generalizing M with
  | nil => simp at hperm
  | cons y line ih =>
    obtain ⟨_ | label, val⟩ := y
    · obtain ⟨line', hf, hp⟩ := ih hperm hM
      exact ⟨(none, val) :: line', by rw [findDirective, hf]; rfl, hp⟩
    · rw [labelled_cons_some] at hperm
      rcases mem_cons.mp (hperm.subset (mem_cons_self ..)) with hy | hy
      · subst hy
        exact ⟨(none, val) :: line, by rw [findDirective, hx]; rfl, (perm_cons _).mp hperm⟩
      · obtain ⟨as, bs, rfl⟩ := append_of_mem hy
        have hrest : (labelled line).Perm (x :: (as ++ bs)) := by
          refine (perm_cons (⟨label, val⟩ : Item)).mp (hperm.trans ?_)
          exact (perm_middle.cons x).trans (.swap ..)
        obtain ⟨line', hf, hp⟩ := ih hrest fun z hz => hM z (by
          rcases mem_append.mp hz with h | h
          · exact mem_append_left _ h
          · exact mem_append_right _ (mem_cons_of_mem _ h))
        refine ⟨(some label, val) :: line', ?_, (hp.cons _).trans perm_middle.symm⟩
        rw [findDirective, show directiveOf label val = .ok none from hM _ hy, hf]
        rfl

/-- **An accepted line** has one directive, and its other items are modifiers. -/
theorem init_ok {r : CacheControlRecord} {p' : MatcherLine} (hx : labelled p.line = xs)
    (hnum : p.numEl = xs.length) (h : init inetAddr p = .ok (r, p')) :
    ∃ x M, xs.Perm (x :: M) ∧ directiveOf x.label x.value = .ok (some (r.directive, r.timeArg)) ∧
      StoredAs inetAddr M r.mods := by
  rw [init] at h
  rcases hf : findDirective p.line with msg | _ | ⟨⟨directive, timeArg⟩, line⟩
  · rw [hf] at h
    cases h
  · rw [hf] at h
    cases h
  · rw [hf] at h
    obtain ⟨x, hperm, hd⟩ := findDirective_perm hf
    rw [hx] at hperm
    have hlen : p.numEl - 1 = ((labelled line).length : Int) := by
      have := hperm.length_eq
      rw [length_cons] at this
      omega
    obtain ⟨mods, hmods, heq⟩ := (readModifiers_ok_iff (f := fun mods =>
      ((⟨directive, timeArg, p.lineNum, mods⟩ : CacheControlRecord),
        { p with line, numEl := p.numEl - 1 })) rfl hlen).mp h
    obtain ⟨rfl, -⟩ := Prod.mk.inj heq
    exact ⟨x, labelled line, hperm, hd, hmods⟩

/-- **Such a line is accepted** in every order. -/
theorem exists_init_ok (hx : labelled p.line = xs) (hnum : p.numEl = xs.length) (hperm : xs.Perm (x :: M))
    (hd : directiveOf x.label x.value = .ok (some d)) (hM : ∀ y ∈ M, ∃ m, ReadsAs inetAddr y m) :
    ∃ r p', init inetAddr p = .ok (r, p') ∧ (r.directive, r.timeArg) = d := by
  obtain ⟨line, hf, hline⟩ := findDirective_of_perm (hx ▸ hperm) hd fun y hy => by
    obtain ⟨m, hm⟩ := hM y hy
    exact directiveOf_of_readsAs hm
  obtain ⟨mods, hmods⟩ := exists_storedAs_iff.mpr fun y hy => hM y (hline.subset hy)
  have hlen : p.numEl - 1 = ((labelled line).length : Int) := by
    have := hperm.length_eq
    rw [length_cons, ← hline.length_eq] at this
    omega
  obtain ⟨directive, timeArg⟩ := d
  refine ⟨⟨directive, timeArg, p.lineNum, mods⟩, { p with line, numEl := p.numEl - 1 }, ?_, rfl⟩
  rw [init, hf]
  exact (readModifiers_ok_iff (f := fun mods => ((⟨directive, timeArg, p.lineNum, mods⟩ :
    CacheControlRecord), { p with line, numEl := p.numEl - 1 })) rfl hlen).mpr ⟨mods, hmods, rfl⟩

end Reading

/-! ### The verdict -/

variable {rd : HttpRequestData} {rs rs' : List CacheControlRecord} {r : CacheControlRecord}
  {result : CacheControlResult}

def ignoreClient (rd : HttpRequestData) (result : CacheControlResult) (r : CacheControlRecord) :
    CacheControlResult :=
  if checkForMatch r.mods r.lineNum rd result.ignoreClientLine then
    { result with ignoreClientNoCache := true, ignoreClientLine := r.lineNum }
  else result

def ignoreServer (rd : HttpRequestData) (result : CacheControlResult) (r : CacheControlRecord) :
    CacheControlResult :=
  if checkForMatch r.mods r.lineNum rd result.ignoreServerLine then
    { result with ignoreServerNoCache := true, ignoreServerLine := r.lineNum }
  else result

def updateMatch (rd : HttpRequestData) (result : CacheControlResult) (r : CacheControlRecord) :
    CacheControlResult :=
  match r.directive with
  | .revalidateAfter =>
    if checkForMatch r.mods r.lineNum rd result.revalLine then
      { result with revalidateAfter := r.timeArg, revalLine := r.lineNum }
    else result
  | .neverCache =>
    if checkForMatch r.mods r.lineNum rd result.neverLine then
      { result with neverCache := true, neverLine := r.lineNum }
    else result
  | .standardCache =>
    if checkForMatch r.mods r.lineNum rd result.neverLine then
      { result with neverCache := false, neverLine := r.lineNum }
    else result
  -- falls through to the directive of the server
  | .ignoreNoCache => ignoreServer rd (ignoreClient rd result r) r
  | .ignoreClientNoCache => ignoreClient rd result r
  | .ignoreServerNoCache => ignoreServer rd result r
  | .pinInCache =>
    if checkForMatch r.mods r.lineNum rd result.pinLine then
      { result with pinInCacheFor := r.timeArg, pinLine := r.lineNum }
    else result
  | .ttlInCache =>
    if checkForMatch r.mods r.lineNum rd result.ttlLine then
      { result with
        ttlInCache := r.timeArg, ttlLine := r.lineNum, neverCache := false, neverLine := r.lineNum }
    else result

def verdict (rd : HttpRequestData) (rs : List CacheControlRecord) : CacheControlResult :=
  rs.foldl (updateMatch rd) {}

/-- The order of `ControlMatcher::Match` for records of the given kinds. -/
def matchOrder (type : CacheControlRecord → MatcherType) (rs : List CacheControlRecord) :
    List CacheControlRecord :=
  rs.filter (fun r => type r = .host ∨ type r = .domain) ++ rs.filter (type · = .regex) ++
    rs.filter (type · = .ip) ++ rs.filter (type · = .hostRegex)

/-! ### Slots of the result -/

def revalSlot : Slot CacheControlResult CacheControlRecord Int :=
  ⟨(·.directive = .revalidateAfter), (·.revalLine), (·.revalidateAfter), (·.timeArg)⟩

def pinSlot : Slot CacheControlResult CacheControlRecord Int :=
  ⟨(·.directive = .pinInCache), (·.pinLine), (·.pinInCacheFor), (·.timeArg)⟩

def ttlSlot : Slot CacheControlResult CacheControlRecord Int :=
  ⟨(·.directive = .ttlInCache), (·.ttlLine), (·.ttlInCache), (·.timeArg)⟩

def ignoreClientSlot : Slot CacheControlResult CacheControlRecord Bool :=
  ⟨fun r => r.directive = .ignoreClientNoCache ∨ r.directive = .ignoreNoCache, (·.ignoreClientLine),
    (·.ignoreClientNoCache), fun _ => true⟩

def ignoreServerSlot : Slot CacheControlResult CacheControlRecord Bool :=
  ⟨fun r => r.directive = .ignoreServerNoCache ∨ r.directive = .ignoreNoCache, (·.ignoreServerLine),
    (·.ignoreServerNoCache), fun _ => true⟩

def neverSlot : Slot CacheControlResult CacheControlRecord Bool :=
  ⟨fun r => r.directive = .neverCache ∨ r.directive = .standardCache, (·.neverLine), (·.neverCache),
    (·.directive = .neverCache)⟩

/-- The lowest line with the directive decides each of the five. -/
def Decided (rs : List CacheControlRecord) (result : CacheControlResult) : Prop :=
  revalSlot.Decided (·.lineNum) (-1) rs result ∧ pinSlot.Decided (·.lineNum) (-1) rs result ∧
    ttlSlot.Decided (·.lineNum) (-1) rs result ∧
    ignoreClientSlot.Decided (·.lineNum) false rs result ∧
    ignoreServerSlot.Decided (·.lineNum) false rs result

/-- **The verdict does not depend on the order of the calls**, nor on the kinds of the rules. -/
def OrderFree (rd : HttpRequestData) (rs : List CacheControlRecord) : Prop :=
  (∀ rs', rs'.Perm rs → verdict rd rs' = verdict rd rs ∧ Decided rs (verdict rd rs')) ∧
    ∀ type : CacheControlRecord → MatcherType, (∀ r ∈ rs, type r ≠ .none) →
      verdict rd (matchOrder type rs) = verdict rd rs

/-- Records of different lines, all of which match the request. -/
structure Matching (rd : HttpRequestData) (rs : List CacheControlRecord) : Prop where
  lines : (rs.map (·.lineNum)).Nodup
  holds : ∀ r ∈ rs, checkModifiers r.mods rd = true

/-- There is no `ttl-in-cache`, or one of them is above each `never-cache` and `standard-cache`. -/
def TtlAbove (rs : List CacheControlRecord) : Prop :=
  (∀ r ∈ rs, r.directive ≠ .ttlInCache) ∨
    ∀ n ∈ rs, neverSlot.sel n = true → ∃ t ∈ rs, t.directive = .ttlInCache ∧ t.lineNum < n.lineNum

/-! ### One call -/

theorem checkForMatch_eq (h : checkModifiers r.mods rd = true) (last : Int) :
    checkForMatch r.mods r.lineNum rd last = decide (last < 0 ∨ last > r.lineNum) := by
  rw [checkForMatch, h, Bool.and_true, Bool.decide_or]

/-- Of the records that match, the one with the lowest line number decides. -/
def Keeps {α : Type} (rd : HttpRequestData) (slot : Slot CacheControlResult CacheControlRecord α) : Prop :=
  slot.Kept (·.lineNum) (updateMatch rd) (checkModifiers ·.mods rd = true)

theorem slots_kept (rd : HttpRequestData) : Keeps rd revalSlot ∧ Keeps rd pinSlot ∧ Keeps rd ttlSlot ∧
    Keeps rd ignoreClientSlot ∧ Keeps rd ignoreServerSlot := by
  refine ⟨?_, ?_, ?_, ?_, ?_⟩ <;> intro result r hr <;> obtain ⟨d, t, n, mods⟩ := r <;> cases d <;>
    simp only [updateMatch, ignoreClient, ignoreServer, revalSlot, pinSlot, ttlSlot, ignoreClientSlot,
      ignoreServerSlot, checkForMatch_eq hr] <;> grind

theorem neverSlot_kept : neverSlot.Kept (·.lineNum) (updateMatch rd)
      fun r => checkModifiers r.mods rd = true ∧ r.directive ≠ .ttlInCache := by
  intro result r ⟨hr, httl⟩
  obtain ⟨d, t, n, mods⟩ := r
  cases d <;> simp only [updateMatch, ignoreClient, ignoreServer, neverSlot, checkForMatch_eq hr] <;> grind

theorem neverLine_updateMatch (result : CacheControlResult) (r : CacheControlRecord) :
    (updateMatch rd result r).neverLine = result.neverLine ∨ (updateMatch rd result r).neverLine = r.lineNum ∧
        (neverSlot.sel r = true ∨ r.directive = .ttlInCache) := by
  obtain ⟨d, t, n, mods⟩ := r
  cases d <;> simp only [updateMatch, ignoreClient, ignoreServer, neverSlot] <;> grind

/-- A `ttl-in-cache` at line `m` has its own line and the shared one. -/
def TtlSettled (m : Nat) (result : CacheControlResult) : Prop :=
  result.ttlLine = m ∧ result.neverLine = m ∧ result.neverCache = false

theorem updateMatch_settled {m : Nat} (hr : checkModifiers r.mods rd = true)
    (hlow : neverSlot.sel r = true ∨ r.directive = .ttlInCache → m < r.lineNum) (h : TtlSettled m result) :
    TtlSettled m (updateMatch rd result r) := by
  obtain ⟨d, t, n, mods⟩ := r
  cases d <;>
    simp only [TtlSettled, updateMatch, ignoreClient, ignoreServer, neverSlot, checkForMatch_eq hr] at * <;> grind

/-! ### All calls -/

theorem Matching.perm (h : Matching rd rs) (hperm : rs'.Perm rs) : Matching rd rs' where
  lines := (hperm.map _).nodup_iff.mpr h.lines
  holds r hr := h.holds r (hperm.mem_iff.mp hr)

theorem Matching.decided (h : Matching rd rs) : Decided rs (verdict rd rs) := by
  obtain ⟨hreval, hpin, httl, hclient, hserver⟩ := slots_kept rd
  exact ⟨hreval.decided {} rfl h.holds, hpin.decided {} rfl h.holds, httl.decided {} rfl h.holds,
    hclient.decided {} rfl h.holds, hserver.decided {} rfl h.holds⟩

theorem Decided.perm (hperm : rs'.Perm rs) (h : Decided rs' result) : Decided rs result :=
  ⟨h.1.perm hperm, h.2.1.perm hperm, h.2.2.1.perm hperm, h.2.2.2.1.perm hperm, h.2.2.2.2.perm hperm⟩

theorem Matching.verdict_eq_iff (h : Matching rd rs) (hperm : rs'.Perm rs) : verdict rd rs' = verdict rd rs ↔
      (verdict rd rs').neverLine = (verdict rd rs).neverLine ∧
        (verdict rd rs').neverCache = (verdict rd rs).neverCache := by
  refine ⟨fun heq => by rw [heq]; exact ⟨rfl, rfl⟩, fun ⟨hline, hcache⟩ => ?_⟩
  obtain ⟨hreval, hpin, httl, hclient, hserver⟩ := slots_kept rd
  obtain ⟨hrl, hrv⟩ := hreval.perm {} rfl h.holds h.lines hperm
  obtain ⟨hpl, hpv⟩ := hpin.perm {} rfl h.holds h.lines hperm
  obtain ⟨htl, htv⟩ := httl.perm {} rfl h.holds h.lines hperm
  obtain ⟨hcl, hcv⟩ := hclient.perm {} rfl h.holds h.lines hperm
  obtain ⟨hsl, hsv⟩ := hserver.perm {} rfl h.holds h.lines hperm
  exact CacheControlResult.ext hrv hpv htv hcache hcv hsv hrl hline hpl htl hcl hsl

theorem neverLine_verdict (rd : HttpRequestData) (rs : List CacheControlRecord) :
    (verdict rd rs).neverLine = -1 ∨ ∃ r ∈ rs, (verdict rd rs).neverLine = r.lineNum ∧
        (neverSlot.sel r = true ∨ r.directive = .ttlInCache) := by
  induction rs using List.reverseRecOn with
  | nil => exact .inl rfl
  | append_singleton rs r ih =>
    rw [verdict, foldl_concat]
    obtain h | ⟨h, hsel⟩ := neverLine_updateMatch (rs.foldl (updateMatch rd) {}) r
    · rw [h]
      exact ih.imp_right fun ⟨a, ha, hline⟩ => ⟨a, mem_append_left _ ha, hline⟩
    · exact .inr ⟨r, by simp, h, hsel⟩

variable {m : CacheControlRecord}

theorem neverLine_ttl_last (h : Matching rd (rs ++ [m])) (hm : m.directive = .ttlInCache)
    (hmin : ∀ t ∈ rs, t.directive = .ttlInCache → m.lineNum < t.lineNum) :
    TtlSettled m.lineNum (verdict rd (rs ++ [m])) := by
  have hholds : ∀ r ∈ rs, checkModifiers r.mods rd = true := fun r hr => h.holds r (mem_append_left _ hr)
  have hbefore : (rs.foldl (updateMatch rd) {}).ttlLine < 0 ∨ (rs.foldl (updateMatch rd) {}).ttlLine > m.lineNum := by
    obtain ⟨hline, -, -⟩ | ⟨t, ht, hsel, -, hline, -⟩ := (slots_kept rd).2.2.1.decided {} rfl hholds
    · simp only [ttlSlot] at hline
      exact .inl (by omega)
    · have hlt := hmin t ht (of_decide_eq_true hsel)
      simp only [ttlSlot] at hline
      exact .inr (by omega)
  rw [verdict, foldl_concat, updateMatch, hm]
  dsimp only
  rw [checkForMatch_eq (h.holds m (by simp)), if_pos (decide_eq_true hbefore)]
  exact ⟨rfl, rfl, rfl⟩

theorem neverLine_last {n : CacheControlRecord} (h : Matching rd (rs ++ [n])) (hn : neverSlot.sel n = true)
    (hmin : ∀ r ∈ rs, neverSlot.sel r = true ∨ r.directive = .ttlInCache → n.lineNum < r.lineNum) :
    (verdict rd (rs ++ [n])).neverLine = n.lineNum := by
  have hbefore : (rs.foldl (updateMatch rd) {}).neverLine < 0 ∨
      (rs.foldl (updateMatch rd) {}).neverLine > n.lineNum := by
    obtain hline | ⟨r, hr, hline, hsel⟩ := neverLine_verdict rd rs
    · exact .inl (by rw [verdict] at hline; omega)
    · have := hmin r hr hsel
      rw [verdict] at hline
      exact .inr (by omega)
  have hcheck := checkForMatch_eq (h.holds n (by simp)) (rs.foldl (updateMatch rd) {}).neverLine
  rw [decide_eq_true hbefore] at hcheck
  rw [verdict, foldl_concat, updateMatch]
  obtain hd | hd := of_decide_eq_true hn <;> simp only [hd, hcheck, if_true]

/-! ### Every order -/

theorem Matching.lt_of_le (h : Matching rd rs) (hm : m ∈ rs) (hr : r ∈ rs) (hne : r ≠ m)
    (hle : m.lineNum ≤ r.lineNum) : m.lineNum < r.lineNum := by
  refine lt_of_le_of_ne hle fun heq => hne ?_
  exact (inj_on_of_nodup_map h.lines hm hr heq).symm

theorem Matching.erase_append (h : Matching rd rs) (hm : m ∈ rs) :
    (rs.erase m ++ [m]).Perm rs ∧ ∀ r ∈ rs.erase m, r ∈ rs ∧ r ≠ m := by
  have hnodup : rs.Nodup := h.lines.of_map _
  refine ⟨(perm_append_singleton m _).trans (perm_cons_erase hm).symm, fun r hr => ?_⟩
  rw [hnodup.mem_erase_iff] at hr
  exact ⟨hr.2, hr.1⟩

theorem settled_foldl {m : Nat} (hl : ∀ r ∈ rs, checkModifiers r.mods rd = true ∧
      (neverSlot.sel r = true ∨ r.directive = .ttlInCache → m < r.lineNum))
    (h : TtlSettled m result) : TtlSettled m (rs.foldl (updateMatch rd) result) := by
  induction rs generalizing result with
  | nil => exact h
  | cons r rs ih =>
    have hr := hl r mem_cons_self
    exact ih (fun a ha => hl a (mem_cons_of_mem _ ha)) (updateMatch_settled hr.1 hr.2 h)

theorem Matching.ttl_wins (h : Matching rd rs) (hm : m ∈ rs) (hd : m.directive = .ttlInCache)
    (hlow : ∀ r ∈ rs, r ≠ m → neverSlot.sel r = true ∨ r.directive = .ttlInCache → m.lineNum <
      r.lineNum) : (verdict rd rs).neverLine = m.lineNum ∧ (verdict rd rs).neverCache = false := by
  obtain ⟨before, behind, rfl⟩ := append_of_mem hm
  have hnodup : (before ++ m :: behind).Nodup := h.lines.of_map _
  have hsplit : before ++ m :: behind = (before ++ [m]) ++ behind := by simp
  rw [hsplit] at h hnodup hlow ⊢
  have hfirst : Matching rd (before ++ [m]) :=
    ⟨h.lines.sublist ((sublist_append_left _ _).map _), fun r hr => h.holds r (mem_append_left _ hr)⟩
  have hne : ∀ r ∈ before, r ≠ m := fun r hr heq =>
    (nodup_append.mp (nodup_append.mp hnodup).1).2.2 r hr m (by simp) heq
  have hne' : ∀ r ∈ behind, r ≠ m := fun r hr heq => (nodup_append.mp hnodup).2.2 m (by simp) r hr heq.symm
  have hlast := neverLine_ttl_last hfirst hd fun t ht htd => hlow t (by simp [ht]) (hne t ht) (.inr htd)
  rw [verdict, foldl_append]
  refine (settled_foldl (fun r hr => ⟨h.holds r (by simp [hr]), ?_⟩) hlast).2
  exact hlow r (by simp [hr]) (hne' r hr)

theorem matchOrder_perm {type : CacheControlRecord → MatcherType} (h : ∀ r ∈ rs, type r ≠ .none) :
    (matchOrder type rs).Perm rs := by
  rw [perm_iff_count]
  intro a
  have hcount (p : CacheControlRecord → Bool) : (rs.filter p).count a = if p a = true then rs.count a else 0 := by
    split
    · next hp => exact count_filter hp
    · next hp => exact count_eq_zero.mpr fun hmem => hp (mem_filter.mp hmem).2
  simp only [matchOrder, count_append, hcount, decide_eq_true_eq]
  cases htype : type a with
  | none => simp [count_eq_zero.mpr fun ha => h a ha htype]
  | _ => simp

theorem Matching.orderFree (h : Matching rd rs)
    (hnever : ∀ rs', rs'.Perm rs → (verdict rd rs').neverLine = (verdict rd rs).neverLine ∧
      (verdict rd rs').neverCache = (verdict rd rs).neverCache) : OrderFree rd rs := by
  have heq : ∀ rs', rs'.Perm rs → verdict rd rs' = verdict rd rs := fun rs' hperm =>
    (h.verdict_eq_iff hperm).mpr (hnever rs' hperm)
  refine ⟨fun rs' hperm => ⟨heq rs' hperm, (h.perm hperm).decided.perm hperm⟩, ?_⟩
  exact fun type htype => heq _ (matchOrder_perm htype)

theorem Matching.orderFree_of_above (h : Matching rd rs) (habove : TtlAbove rs) : OrderFree rd rs := by
  by_cases httl : ∃ t ∈ rs, decide (t.directive = .ttlInCache) = true
  · -- the top `ttl-in-cache` has the shared line in every order
    obtain ⟨m, hm, hmd, hmin⟩ := exists_least (·.lineNum) httl
    have hd : m.directive = .ttlInCache := of_decide_eq_true hmd
    have hlow : ∀ r ∈ rs, r ≠ m → neverSlot.sel r = true ∨ r.directive = .ttlInCache → m.lineNum < r.lineNum := by
      rintro r hr hne (hsel | hrd)
      · obtain hno | hyes := habove
        · exact absurd hd (hno m hm)
        · obtain ⟨t, ht, htd, hlt⟩ := hyes r hr hsel
          exact lt_of_le_of_lt (hmin t ht (decide_eq_true htd)) hlt
      · exact h.lt_of_le hm hr hne (hmin r hr (decide_eq_true hrd))
    refine h.orderFree fun rs' hperm => ?_
    obtain ⟨hline, hcache⟩ := h.ttl_wins hm hd hlow
    obtain ⟨hline', hcache'⟩ := (h.perm hperm).ttl_wins (hperm.mem_iff.mpr hm) hd fun r hr =>
      hlow r (hperm.mem_iff.mp hr)
    exact ⟨hline'.trans hline.symm, hcache'.trans hcache.symm⟩
  · have hno : ∀ r ∈ rs, checkModifiers r.mods rd = true ∧ r.directive ≠ .ttlInCache :=
      fun r hr => ⟨h.holds r hr, fun hd => httl ⟨r, hr, decide_eq_true hd⟩⟩
    exact h.orderFree fun rs' hperm => neverSlot_kept.perm {} rfl hno h.lines hperm

/-- With a `never-cache` on top, it has the shared line if it comes last, and so has the top
`ttl-in-cache` if that comes last. -/
theorem Matching.above_of_orderFree (h : Matching rd rs) (hfree : OrderFree rd rs) : TtlAbove rs := by
  by_contra habove
  simp only [TtlAbove, not_or, not_forall, not_exists, not_and, not_lt, ne_eq, not_not] at habove
  obtain ⟨⟨t, ht, htd⟩, n', hn', hsel', htop⟩ := habove
  obtain ⟨m, hm, hmd, hmin⟩ := exists_least (·.lineNum) (p := (·.directive = .ttlInCache)) ⟨t, ht, decide_eq_true htd⟩
  obtain ⟨n, hn, hsel, hleast⟩ := exists_least (·.lineNum) ⟨n', hn', hsel'⟩
  have hd : m.directive = .ttlInCache := of_decide_eq_true hmd
  obtain ⟨hmperm, hmrest⟩ := h.erase_append hm
  obtain ⟨hnperm, hnrest⟩ := h.erase_append hn
  have hmline : (verdict rd (rs.erase m ++ [m])).neverLine = m.lineNum := by
    refine (neverLine_ttl_last (h.perm hmperm) hd fun t ht htd => ?_).2.1
    obtain ⟨ht, hne⟩ := hmrest t ht
    exact h.lt_of_le hm ht hne (hmin t ht (decide_eq_true htd))
  have hnline : (verdict rd (rs.erase n ++ [n])).neverLine = n.lineNum := by
    refine neverLine_last (h.perm hnperm) hsel fun r hr hrsel => ?_
    obtain ⟨hr, hne⟩ := hnrest r hr
    obtain hrsel | hrd := hrsel
    · exact h.lt_of_le hn hr hne (hleast r hr hrsel)
    · exact h.lt_of_le hn hr hne ((hleast n' hn' hsel').trans (htop r hr hrd))
  rw [(hfree.1 _ hmperm).1] at hmline
  rw [(hfree.1 _ hnperm).1, hmline] at hnline
  have hmn : m = n := inj_on_of_nodup_map h.lines hm hn (by exact_mod_cast hnline)
  simp [neverSlot, ← hmn, hd] at hsel

/-- **The verdict is free of the order of the calls** exactly if there is no `ttl-in-cache` rule, or one
of them is above every `never-cache` and `standard-cache` rule. -/
theorem verdict_orderFree_iff (h : Matching rd rs) : OrderFree rd rs ↔ TtlAbove rs :=
  ⟨h.above_of_orderFree, h.orderFree_of_above⟩

def rootRequest : HttpRequestData :=
  ⟨true, 80, none, [], strBytes "GET", 0, 0, 0, 8080, strBytes "h", strBytes "http://h/", none⟩

def neverAt (lineNum : Nat) : CacheControlRecord := ⟨.neverCache, 0, lineNum, none⟩

def ttlAt (lineNum : Nat) : CacheControlRecord := ⟨.ttlInCache, 60, lineNum, none⟩

theorem matching_of_two {a b : Nat} (h : a ≠ b) : Matching rootRequest [neverAt a, ttlAt b] where
  lines := by simp [neverAt, ttlAt, h]
  holds r hr := by
    obtain rfl | rfl : r = neverAt a ∨ r = ttlAt b := by simpa using hr
    · exact checkModifiers_none
    · exact checkModifiers_none

theorem verdict_orderFree_of_ttl_first : OrderFree rootRequest [neverAt 2, ttlAt 1] := by
  refine (verdict_orderFree_iff (matching_of_two (by decide))).mpr (.inr fun n hn _ => ?_)
  refine ⟨ttlAt 1, by simp, rfl, ?_⟩
  obtain rfl | rfl : n = neverAt 2 ∨ n = ttlAt 1 := by simpa using hn
  · decide
  · contradiction

/-- A `never-cache` on line 1 and a `ttl-in-cache` on line 2 that match: the object is cached or not, by
which of the rules is evaluated first. -/
theorem never_cache_by_order : Matching rootRequest [neverAt 1, ttlAt 2] ∧
    (verdict rootRequest [neverAt 1, ttlAt 2]).neverCache = false ∧
    (verdict rootRequest [ttlAt 2, neverAt 1]).neverCache = true ∧ ¬OrderFree rootRequest [neverAt 1, ttlAt 2] := by
  have hfirst : (verdict rootRequest [neverAt 1, ttlAt 2]).neverCache = false := by decide +kernel
  have hsecond : (verdict rootRequest [ttlAt 2, neverAt 1]).neverCache = true := by decide +kernel
  refine ⟨matching_of_two (by decide), hfirst, hsecond, fun hfree => ?_⟩
  have heq := (hfree.1 [ttlAt 2, neverAt 1] (List.Perm.swap ..)).1
  rw [heq, hfirst] at hsecond
  cases hsecond

end CacheControl

end TrafficServer
