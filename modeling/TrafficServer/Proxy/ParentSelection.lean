import TrafficServer.Lib.LeastKey
import TrafficServer.Proxy.ControlBase

/-!
# Parent selection

A rule of `parent.config` has a list of parents. `FindParent` scans them in a circle, from an index that
the round-robin mode gives to `start_parent`, and takes the first one that is up or may be retried. The
array is read with a bound, so that an index outside of it gives no result; so does a scan that does not
come back to `start_parent`.
-/

namespace TrafficServer

open Option List CInt ControlBase LeastKey

/-- `pRecord`, with what the selection reads. -/
structure PRecord where
  hostname : Bytes
  port : Int
  failedAt : Int
  failCount : Int
deriving DecidableEq

/-- `ParentRR_t`, in the order of the source. -/
inductive ParentRR where
  | noRoundRobin
  | strictRoundRobin
  | hashRoundRobin
deriving DecidableEq

inductive ParentResultType where
  | undefined
  | direct
  | specified
  | agent
  | fail
deriving DecidableEq

/-- What the selection reads of a rule. No parents stand for the null array. -/
structure ParentRecord where
  roundRobin : ParentRR
  goDirect : Bool
  lineNum : Nat
  mods : Option (List Modifier)
deriving DecidableEq

structure ParentConfigParams where
  parentRetryTime : Int
  parentEnable : Int
  failThreshold : Int
  dnsParentOnly : Int
deriving DecidableEq

/-- What `FindParent` reads and writes of a `ParentResult`; `start_parent` and `last_parent` are unsigned. -/
structure ParentResult where
  r : ParentResultType := .undefined
  hostname : Option Bytes := none
  port : Int := 0
  lastParent : Nat := 0
  startParent : Nat := 0
  wrapAround : Bool := false
  retry : Bool := false
deriving DecidableEq

namespace ParentSelection

def bypassOk (rule : ParentRecord) (config : ParentConfigParams) : Bool :=
  rule.goDirect && config.dnsParentOnly = 0

def isUp (config : ParentConfigParams) (p : PRecord) : Bool :=
  p.failedAt = 0 || p.failCount < config.failThreshold

/-- The time to retry the parent has come; the sum is one of `int`. -/
def retryElapsed (config : ParentConfigParams) (xactStart : Int) (p : PRecord) : Bool :=
  toInt32 (p.failedAt + config.parentRetryTime) < xactStart

def take (p : PRecord) (curIndex : Nat) (parentRetry : Bool) (result : ParentResult) : ParentResult :=
  { result with
    r := .specified, hostname := some p.hostname, port := p.port, lastParent := curIndex,
    retry := parentRetry }

def noParents (rule : ParentRecord) (result : ParentResult) : ParentResult :=
  { result with r := if rule.goDirect then .direct else .fail, hostname := none, port := 0 }

/-- How the scan ends: with a parent, or back at `start_parent`. -/
inductive Scan where
  | taken (result : ParentResult)
  | around

/-- The `do` loop; `none` for an index outside of the array or no end within the fuel. -/
def scan (config : ParentConfigParams) (xactStart : Int) (parents : List PRecord)
    (result : ParentResult) : Nat → Int → Option Scan
  | 0, _ => none
  | fuel + 1, curIndex =>
    if curIndex < 0 then none
    else
      match parents[curIndex.toNat]? with
      | none => none
      | some p =>
        if isUp config p then some (.taken (take p curIndex.toNat false result))
        else if result.wrapAround || retryElapsed config xactStart p then
          some (.taken (take p curIndex.toNat true result))
        else
          let curIndex := (curIndex + 1).tmod parents.length
          if curIndex = result.startParent then some .around
          else scan config xactStart parents result fuel curIndex

/-- The loop and what follows it; the jump to `FORCE_WRAP_AROUND` is taken at most once more. -/
def scanAround (rule : ParentRecord) (config : ParentConfigParams) (xactStart : Int)
    (parents : List PRecord) (result : ParentResult) (curIndex : Int) : Option ParentResult := do
  match ← scan config xactStart parents result (parents.length + 1) curIndex with
  | .taken result => some result
  | .around =>
    if bypassOk rule config then some (noParents rule result)
    else
      match ← scan config xactStart parents { result with wrapAround := true } (parents.length + 1)
          result.startParent with
      | .taken result => some result
      | .around => none

/-- The first call: `rrNext` is the counter before it is incremented, read as an `int`. Only
`P_STRICT_ROUND_ROBIN` is equal to `true`. -/
def findFirst (rule : ParentRecord) (config : ParentConfigParams) (xactStart : Int)
    (clientIp rrNext : BitVec 32) (parents : List PRecord) (result : ParentResult) :
    Option ParentResult :=
  if parents = [] then some (noParents rule result)
  else
    match rule.roundRobin with
    | .strictRoundRobin =>
      let curIndex := rrNext.toInt.tmod parents.length
      scanAround rule config xactStart parents
        { result with startParent := (curIndex % 2 ^ 32).toNat } curIndex
    -- `start_parent` stays as it is
    | .hashRoundRobin =>
      scanAround rule config xactStart parents result (clientIp.toNat % parents.length : Nat)
    | .noRoundRobin => scanAround rule config xactStart parents { result with startParent := 0 } 0

def findNext (rule : ParentRecord) (config : ParentConfigParams) (xactStart : Int)
    (parents : List PRecord) (result : ParentResult) : Option ParentResult :=
  if parents = [] then none
  else
    let curIndex := (result.lastParent + 1) % parents.length
    if curIndex = result.startParent then
      if bypassOk rule config then some (noParents rule result)
      else scanAround rule config xactStart parents { result with wrapAround := true } curIndex
    else scanAround rule config xactStart parents result curIndex

/-! ### What the scan finds -/

variable {rule : ParentRecord} {config : ParentConfigParams} {xactStart : Int} {parents : List PRecord}
  {result : ParentResult}

/-- **A parent is usable** if it is up or its time to retry has come. -/
def usable (config : ParentConfigParams) (xactStart : Int) (p : PRecord) : Bool :=
  isUp config p || retryElapsed config xactStart p

/-- The loop takes the parent: it is usable, or the scan has wrapped around. -/
def ready (config : ParentConfigParams) (xactStart : Int) (wrapAround : Bool) (p : PRecord) : Bool :=
  usable config xactStart p || wrapAround

def takeAt (config : ParentConfigParams) (parents : List PRecord) (result : ParentResult) (i : Nat)
    (hi : i < parents.length) : ParentResult :=
  take parents[i] i (!isUp config parents[i]) result

theorem scan_succ {fuel i : Nat} (hi : i < parents.length) : scan config xactStart parents result (fuel + 1) i =
      if ready config xactStart result.wrapAround parents[i] = true then
        some (.taken (takeAt config parents result i hi))
      else if (i + 1) % parents.length = result.startParent then some .around
      else scan config xactStart parents result fuel ((i + 1) % parents.length : Nat) := by
  have hnext : ((i : Int) + 1).tmod parents.length = ((i + 1) % parents.length : Nat) := by
    rw [Int.tmod_eq_emod_of_nonneg (by omega)]
    norm_cast
  rw [scan, if_neg (by omega), Int.toNat_natCast, getElem?_eq_getElem hi]
  dsimp only
  rw [hnext]
  unfold ready usable takeAt
  cases hup : isUp config parents[i] with
  | true => simp
  | false =>
    cases hretry : retryElapsed config xactStart parents[i] with
    | true => simp
    | false =>
      cases hwrap : result.wrapAround with
      | true => simp
      | false => simp only [Bool.or_false, Bool.false_eq_true, if_false, Nat.cast_inj]

/-- None of the `k` positions from `i` has a parent with the property. -/
def NoneOf (p : PRecord → Bool) (parents : List PRecord) (i k : Nat) : Prop :=
  ∀ m, m < k → ∀ hm : (i + m) % parents.length < parents.length,
    p parents[(i + m) % parents.length] = false

/-- Position `j` is the first of the `k` positions from `i` that has one. -/
structure FirstOf (p : PRecord → Bool) (parents : List PRecord) (i k j : Nat) : Prop where
  lt : j < k
  holds : ∀ hj : (i + j) % parents.length < parents.length, p parents[(i + j) % parents.length] = true
  before : NoneOf p parents i j

/-- **The scan takes the first parent that is ready**, of the `k` positions before it is back at
`start_parent`. The induction is on these positions. -/
theorem scan_spec {k fuel i : Nat} (hi : i < parents.length) (hk : 0 < k) (hfuel : k ≤ fuel)
    (hback : (i + k) % parents.length = result.startParent)
    (hnot : ∀ j, 0 < j → j < k → (i + j) % parents.length ≠ result.startParent) :
    (∃ j hj, FirstOf (ready config xactStart result.wrapAround) parents i k j ∧
        scan config xactStart parents result fuel i =
          some (.taken (takeAt config parents result ((i + j) % parents.length) hj))) ∨
      NoneOf (ready config xactStart result.wrapAround) parents i k ∧
        scan config xactStart parents result fuel i = some .around := by
  have hpos : 0 < parents.length := by omega
  have hself : (i + 0) % parents.length = i := Nat.mod_eq_of_lt hi
  induction k generalizing i fuel with
  | zero => omega
  | succ k ih =>
    obtain ⟨fuel, rfl⟩ : ∃ f, fuel = f + 1 := ⟨fuel - 1, by omega⟩
    rw [scan_succ hi]
    by_cases hready : ready config xactStart result.wrapAround parents[i] = true
    · refine .inl ⟨0, Nat.mod_lt _ hpos, ⟨hk, fun _ => ?_, fun m hm => absurd hm (by omega)⟩, ?_⟩
      · simpa only [hself] using hready
      · rw [if_pos hready]
        simp only [hself]
    · have hshift (m : Nat) : ((i + 1) % parents.length + m) % parents.length = (i + (m + 1)) % parents.length := by
        rw [Nat.mod_add_mod]
        congr 1
        omega
      have hcons {k : Nat} (hrest : NoneOf (ready config xactStart result.wrapAround) parents
          ((i + 1) % parents.length) k) :
          NoneOf (ready config xactStart result.wrapAround) parents i (k + 1) := by
        intro m hm hlt
        cases m with
        | zero => simpa only [hself, Bool.not_eq_true] using hready
        | succ m =>
          have := hrest m (Nat.lt_of_succ_lt_succ hm) (by rwa [hshift])
          simpa only [hshift] using this
      rw [if_neg hready]
      by_cases hk0 : k = 0
      · -- the next position is `start_parent`
        subst hk0
        rw [if_pos hback]
        exact .inr ⟨hcons fun m hm => absurd hm (Nat.not_lt_zero m), rfl⟩
      · rw [if_neg (hnot 1 (by omega) (by omega))]
        have hi' : (i + 1) % parents.length < parents.length := Nat.mod_lt _ hpos
        have hrest := ih hi' (by omega) (by omega : k ≤ fuel) (by rw [hshift]; exact hback)
          (fun j hj hjk => by rw [hshift]; exact hnot (j + 1) (by omega) (by omega))
          (Nat.mod_eq_of_lt hi')
        obtain ⟨j, hj, ⟨hjk, hjready, hbefore⟩, heq⟩ | ⟨hall, heq⟩ := hrest
        · simp only [hshift] at hj hjready heq
          exact .inl ⟨j + 1, hj, ⟨by omega, hjready, hcons hbefore⟩, heq⟩
        · exact .inr ⟨hcons hall, heq⟩

/-! ### The calls for one request -/

/-- What the calls for one request are made with. -/
structure Request where
  rule : ParentRecord
  config : ParentConfigParams
  xactStart : Int
  clientIp : BitVec 32
  rrNext : BitVec 32

/-- The parents as they are now, the indices that earlier calls returned, and the last result. -/
structure CallState where
  parents : List PRecord
  returned : List Nat
  result : ParentResult

/-- Between two calls only parents that were returned change, as `markParentDown` changes them. -/
def Marked (returned : List Nat) (parents parents' : List PRecord) : Prop :=
  parents'.length = parents.length ∧ ∀ i, i ∉ returned → parents'[i]? = parents[i]?

/-- The states after `findParent` and any number of calls of `nextParent`. -/
inductive Reached (q : Request) (parents : List PRecord) : CallState → Prop
  | first {result : ParentResult}
      (h : findFirst q.rule q.config q.xactStart q.clientIp q.rrNext parents {} = some result) :
      Reached q parents ⟨parents, [], result⟩
  | next {s : CallState} {parents' : List PRecord} {result : ParentResult} (hs : Reached q parents s)
      (hr : s.result.r = .specified)
      (hmark : Marked (s.returned ++ [s.result.lastParent]) s.parents parents')
      (h : findNext q.rule q.config q.xactStart parents' s.result = some result) :
      Reached q parents ⟨parents', s.returned ++ [s.result.lastParent], result⟩

def AllTried (q : Request) (parents : List PRecord) (returned : List Nat) : Prop :=
  ∀ i (hi : i < parents.length), usable q.config q.xactStart parents[i] = true → i ∈ returned

/-- **Every usable parent is tried.** Each call ends; the answer is direct only if that is allowed and all
usable parents were returned; and a parent that is not usable is returned only if going direct is not
allowed and all usable parents were returned. -/
structure TriesAll (q : Request) (parents : List PRecord) : Prop where
  first_ends : ∃ result,
    findFirst q.rule q.config q.xactStart q.clientIp q.rrNext parents {} = some result
  next_ends : ∀ s, Reached q parents s → s.result.r = .specified →
    ∀ parents', Marked (s.returned ++ [s.result.lastParent]) s.parents parents' →
      ∃ result, findNext q.rule q.config q.xactStart parents' s.result = some result
  direct : ∀ s, Reached q parents s → s.result.r = .direct →
    bypassOk q.rule q.config = true ∧ AllTried q parents s.returned
  unusable : ∀ s, Reached q parents s → s.result.r = .specified →
    ∀ hi : s.result.lastParent < s.parents.length,
      usable q.config q.xactStart s.parents[s.result.lastParent] = false →
        bypassOk q.rule q.config = false ∧ AllTried q parents s.returned

def hashIndex (q : Request) (n : Nat) : Nat := q.clientIp.toNat % n

/-- **When that holds.** A rule without parents goes direct only where that is allowed; the counter of the
strict mode gives an index of the array; and in hash mode the parents in front of the index of the client
are of no use (where going direct is allowed), or the usable ones come first among them (where not). -/
def Covered (q : Request) (parents : List PRecord) : Prop :=
  if parents = [] then q.rule.goDirect = true → q.config.dnsParentOnly = 0
  else
    match q.rule.roundRobin with
    | .noRoundRobin => True
    | .strictRoundRobin => 0 ≤ q.rrNext.toInt.tmod parents.length
    | .hashRoundRobin =>
      if bypassOk q.rule q.config = true then
        ∀ i (hi : i < parents.length), i < hashIndex q parents.length →
          usable q.config q.xactStart parents[i] = false
      else
        ∀ i j (hi : i < parents.length) (hj : j < i), i < hashIndex q parents.length →
          usable q.config q.xactStart parents[i] = true →
            usable q.config q.xactStart parents[j] = true

/-! ### Positions in the circle -/

/-- The positions from `i` until the scan is back at `start`. -/
def span (n i start : Nat) : Nat := if i < start then start - i else start + n - i

section Span
variable {n i start : Nat}

theorem span_pos (hi : i < n) : 0 < span n i start := by
  unfold span
  split <;> omega

theorem span_le (hstart : start < n) : span n i start ≤ n := by
  unfold span
  split <;> omega

variable {j m : Nat}

theorem add_mod_cases (hi : i < n) (hj : j ≤ n) :
    (i + j < n ∧ (i + j) % n = i + j) ∨ (n ≤ i + j ∧ (i + j) % n = i + j - n) := by
  by_cases h : i + j < n
  · exact .inl ⟨h, Nat.mod_eq_of_lt h⟩
  · refine .inr ⟨by omega, ?_⟩
    rw [Nat.mod_eq_sub_mod (by omega), Nat.mod_eq_of_lt (by omega)]

theorem add_mod_inj (hi : i < n) (hj : j < n) (hm : m < n) (h : (i + j) % n = (i + m) % n) : j = m := by
  have hcj := add_mod_cases hi hj.le
  have hcm := add_mod_cases hi hm.le
  omega

theorem add_mod_add (n i t j : Nat) : ((i + t) % n + j) % n = (i + (t + j)) % n := by rw [Nat.mod_add_mod, add_assoc]

/-- The positions that the first scan leaves out, behind `start`. -/
def skipped (n i start : Nat) : Nat := n - span n i start

variable (hi : i < n) (hstart : start < n)
include hi hstart

theorem add_span_mod : (i + span n i start) % n = start := by
  unfold span
  split
  · rw [show i + (start - i) = start by omega, Nat.mod_eq_of_lt hstart]
  · rw [show i + (start + n - i) = start + n by omega, Nat.add_mod_right, Nat.mod_eq_of_lt hstart]

theorem add_mod_ne_start (hj : 0 < j) (hlt : j < span n i start) : (i + j) % n ≠ start := by
  have hle := span_le (i := i) hstart
  have hcases := add_mod_cases hi (by omega : j ≤ n)
  unfold span at hlt
  split at hlt <;> omega

theorem span_add_mod {t : Nat} (ht : t < span n i start) : span n ((i + t) % n) start = span n i start - t := by
  have hle := span_le (i := i) hstart
  have hcases := add_mod_cases hi (by omega : t ≤ n)
  generalize (i + t) % n = x at hcases ⊢
  unfold span at ht ⊢
  split at ht <;> split <;> omega

theorem start_add_skipped : (start + skipped n i start) % n = i := by
  unfold skipped span
  split
  · rw [show start + (n - (start - i)) = i + n by omega, Nat.add_mod_right, Nat.mod_eq_of_lt hi]
  · rw [show start + (n - (start + n - i)) = i by omega, Nat.mod_eq_of_lt hi]

theorem add_mod_eq_skipped (m : Nat) : (i + m) % n = (start + (skipped n i start + m)) % n := by
  rw [← add_mod_add, start_add_skipped hi hstart]

theorem scanned_ne_skipped {k : Nat} (hm : m < span n i start) (hk : k < skipped n i start) :
    (i + m) % n ≠ (start + k) % n := by
  have hle := span_le (i := i) hstart
  rw [add_mod_eq_skipped hi hstart]
  intro heq
  have := add_mod_inj hstart (by unfold skipped; omega) (by unfold skipped at hk; omega) heq
  omega

theorem scanned_or_skipped {x : Nat} (hx : x < n) :
    (∃ m, m < span n i start ∧ x = (i + m) % n) ∨ ∃ k, k < skipped n i start ∧ x = (start + k) % n := by
  obtain ⟨k, hk, hxk⟩ : ∃ k, k < n ∧ x = (start + k) % n := by
    by_cases hlt : x < start
    · refine ⟨x + n - start, by omega, ?_⟩
      rw [show start + (x + n - start) = x + n by omega, Nat.add_mod_right, Nat.mod_eq_of_lt hx]
    · refine ⟨x - start, by omega, ?_⟩
      rw [show start + (x - start) = x by omega, Nat.mod_eq_of_lt hx]
  by_cases hsk : k < skipped n i start
  · exact .inr ⟨k, hsk, hxk⟩
  · refine .inl ⟨k - skipped n i start, by unfold skipped at hsk ⊢; omega, ?_⟩
    rw [add_mod_eq_skipped hi hstart, hxk]
    congr 2
    omega

end Span

theorem scanAround_wrapped {i : Nat} (hi : i < parents.length) (hwrap : result.wrapAround = true) :
    scanAround rule config xactStart parents result i = some (takeAt config parents result i hi) := by
  rw [scanAround, scan_succ hi, if_pos (by simp [ready, hwrap])]
  rfl

/-- The loop with what follows it, from a position before the wrap: the first ready parent, or what is
done when there is none. -/
theorem scanAround_spec {i : Nat} (hi : i < parents.length)
    (hstart : result.startParent < parents.length) (hwrap : result.wrapAround = false) :
    (∃ j hj, FirstOf (usable config xactStart) parents i (span parents.length i result.startParent) j ∧
        scanAround rule config xactStart parents result i =
          some (takeAt config parents result ((i + j) % parents.length) hj)) ∨
      NoneOf (usable config xactStart) parents i (span parents.length i result.startParent) ∧
        scanAround rule config xactStart parents result i =
          if bypassOk rule config = true then some (noParents rule result)
          else scanAround rule config xactStart parents { result with wrapAround := true } result.startParent := by
  have hle := span_le (i := i) hstart
  have hscan := @scan_spec config xactStart parents result _ _ i hi (span_pos hi)
    (by omega : span parents.length i result.startParent ≤ parents.length + 1)
    (add_span_mod hi hstart) fun j => add_mod_ne_start hi hstart
  have hready : ready config xactStart false = usable config xactStart := by
    funext p
    exact Bool.or_false _
  rw [hwrap, hready] at hscan
  obtain ⟨j, hj, hfirst, heq⟩ | ⟨hall, heq⟩ := hscan
  · refine .inl ⟨j, hj, hfirst, ?_⟩
    rw [scanAround, heq]
    rfl
  · refine .inr ⟨hall, ?_⟩
    rw [scanAround_wrapped hstart rfl, scanAround, heq]
    simp only [bind_eq_bind, bind_some]
    split
    · rfl
    · rw [scan_succ hstart, if_pos (by simp [ready])]
      rfl

/-! ### Runs of calls -/

section Run
variable {q : Request} {st : CallState} {c start : Nat}

/-- The usable parents among the positions of the first scan have been returned. -/
def ScanTried (q : Request) (parents : List PRecord) (c start : Nat) (returned : List Nat) : Prop :=
  ∀ m, m < span parents.length c start → ∀ hm : (c + m) % parents.length < parents.length,
    usable q.config q.xactStart parents[(c + m) % parents.length] = true →
      (c + m) % parents.length ∈ returned

/-- Before the wrap, at position `t` of the first scan. -/
structure Before (q : Request) (parents : List PRecord) (c start : Nat) (st : CallState) (t : Nat) :
    Prop where
  specified : st.result.r = .specified
  wrap : st.result.wrapAround = false
  inside : t < span parents.length c start
  last : st.result.lastParent = (c + t) % parents.length
  usable : ∀ hi : (c + t) % parents.length < parents.length,
    usable q.config q.xactStart parents[(c + t) % parents.length] = true
  tried : ∀ m, m < t → ∀ hm : (c + m) % parents.length < parents.length,
    ParentSelection.usable q.config q.xactStart parents[(c + m) % parents.length] = true →
      (c + m) % parents.length ∈ st.returned
  only : ∀ x ∈ st.returned, ∃ m, m < t ∧ x = (c + m) % parents.length
  few : st.returned.length ≤ t

/-- After the wrap, `t` positions behind `start_parent`. -/
structure After (q : Request) (parents : List PRecord) (c start : Nat) (st : CallState) (t : Nat) :
    Prop where
  specified : st.result.r = .specified
  wrap : st.result.wrapAround = true
  forbidden : bypassOk q.rule q.config = false
  last : st.result.lastParent = (start + t) % parents.length
  scanned : ScanTried q parents c start st.returned
  tried : ∀ m, m < t → (start + m) % parents.length ∈ st.returned
  only : ∀ x ∈ st.returned, (∃ m, m < span parents.length c start ∧ x = (c + m) % parents.length) ∨
    ∃ m, m < t ∧ x = (start + m) % parents.length

/-- The answer is direct: the usable parents of the first scan were returned, and no others. -/
structure Done (q : Request) (parents : List PRecord) (c start : Nat) (st : CallState) : Prop where
  direct : st.result.r = .direct
  allowed : bypassOk q.rule q.config = true
  scanned : ScanTried q parents c start st.returned
  only : ∀ x ∈ st.returned, ∃ m, m < span parents.length c start ∧ x = (c + m) % parents.length

/-- A state that a scan from before the wrap leads to: if it wraps, it is at `start_parent`. -/
structure Entered (q : Request) (parents : List PRecord) (c start : Nat) (st : CallState) : Prop where
  marked : Marked st.returned parents st.parents
  startParent : st.result.startParent = start
  phase : (∃ t, Before q parents c start st t) ∨ After q parents c start st 0 ∨
    Done q parents c start st

/-- **The invariant of the calls**, for a first scan from `c` to `start`. -/
structure Inv (q : Request) (parents : List PRecord) (c start : Nat) (st : CallState) : Prop where
  marked : Marked st.returned parents st.parents
  startParent : st.result.startParent = start
  phase : (∃ t, Before q parents c start st t) ∨ (∃ t, After q parents c start st t) ∨
    Done q parents c start st

theorem Entered.inv (h : Entered q parents c start st) : Inv q parents c start st :=
  ⟨h.marked, h.startParent, h.phase.imp_right (Or.imp_left fun hafter => ⟨0, hafter⟩)⟩

theorem Marked.refl (returned : List Nat) (parents : List PRecord) : Marked returned parents parents :=
  ⟨rfl, fun _ _ => rfl⟩

variable {parents' : List PRecord}

theorem Marked.trans {returned : List Nat} {x : Nat} {parents'' : List PRecord}
    (h : Marked returned parents parents') (h' : Marked (returned ++ [x]) parents' parents'') :
    Marked (returned ++ [x]) parents parents'' :=
  ⟨h'.1.trans h.1, fun i hi => (h'.2 i hi).trans (h.2 i fun hmem => hi (mem_append_left _ hmem))⟩

theorem Marked.getElem {returned : List Nat} (h : Marked returned parents parents') {i : Nat}
    (hi : i ∉ returned) (hlt : i < parents'.length) (hlt' : i < parents.length) : parents'[i] = parents[i] := by
  have hget := h.2 i hi
  rwa [getElem?_eq_getElem hlt, getElem?_eq_getElem hlt', some.injEq] at hget

theorem Entered.around {returned : List Nat} (hmark : Marked returned parents parents')
    (hstart : start < parents.length) (hstartParent : result.startParent = start)
    (hscanned : ScanTried q parents c start returned)
    (honly : ∀ x ∈ returned, ∃ m, m < span parents.length c start ∧ x = (c + m) % parents.length) :
    ∃ result', (if bypassOk q.rule q.config = true then some (noParents q.rule result)
        else scanAround q.rule q.config q.xactStart parents' { result with wrapAround := true } start) =
          some result' ∧ Entered q parents c start ⟨parents', returned, result'⟩ := by
  by_cases hbypass : bypassOk q.rule q.config = true
  · have hdirect : q.rule.goDirect = true := by
      rw [bypassOk, Bool.and_eq_true] at hbypass
      exact hbypass.1
    rw [if_pos hbypass]
    refine ⟨_, rfl, hmark, hstartParent, .inr (.inr ⟨?_, hbypass, hscanned, honly⟩)⟩
    simp only [noParents, hdirect, if_true]
  · have hlt : start < parents'.length := by
      rw [hmark.1]
      exact hstart
    rw [if_neg hbypass, scanAround_wrapped hlt rfl]
    refine ⟨_, rfl, hmark, hstartParent, .inr (.inl ?_)⟩
    refine ⟨rfl, rfl, by simpa using hbypass, ?_, hscanned, fun m hm => absurd hm (by omega),
      fun x hx => .inl (honly x hx)⟩
    rw [add_zero, Nat.mod_eq_of_lt hstart]
    rfl

theorem Before.returned {t : Nat} (h : Before q parents c start st t) :
    (∀ m, m < t + 1 → ∀ hm : (c + m) % parents.length < parents.length,
      ParentSelection.usable q.config q.xactStart parents[(c + m) % parents.length] = true →
        (c + m) % parents.length ∈ st.returned ++ [st.result.lastParent]) ∧
      (∀ x ∈ st.returned ++ [st.result.lastParent], ∃ m, m < t + 1 ∧ x = (c + m) % parents.length) ∧
      (st.returned ++ [st.result.lastParent]).length ≤ t + 1 := by
  refine ⟨?_, ?_, ?_⟩
  · intro m hm hlt hu
    by_cases hmt : m < t
    · exact mem_append_left _ (h.tried m hmt hlt hu)
    · obtain rfl : m = t := by omega
      simp [h.last]
  · intro x hx
    obtain hx | hx := mem_append.mp hx
    · obtain ⟨m, hm, hxm⟩ := h.only x hx
      exact ⟨m, by omega, hxm⟩
    · exact ⟨t, by omega, by rw [mem_singleton.mp hx, h.last]⟩
  · have := h.few
    simpa using this

theorem After.returned {t : Nat} (h : After q parents c start st t) :
    ScanTried q parents c start (st.returned ++ [st.result.lastParent]) ∧
      (∀ m, m < t + 1 → (start + m) % parents.length ∈ st.returned ++ [st.result.lastParent]) ∧
      ∀ x ∈ st.returned ++ [st.result.lastParent],
        (∃ m, m < span parents.length c start ∧ x = (c + m) % parents.length) ∨
          ∃ m, m < t + 1 ∧ x = (start + m) % parents.length := by
  refine ⟨fun m hm hlt hu => mem_append_left _ (h.scanned m hm hlt hu), fun m hm => ?_, fun x hx => ?_⟩
  · by_cases hmt : m < t
    · exact mem_append_left _ (h.tried m hmt)
    · obtain rfl : m = t := by omega
      simp [h.last]
  · obtain hx | hx := mem_append.mp hx
    · refine (h.only x hx).imp_right fun ⟨m, hm, hxm⟩ => ⟨m, by omega, hxm⟩
    · exact .inr ⟨t, by omega, by rw [mem_singleton.mp hx, h.last]⟩

theorem findNext_eq (hlen : parents'.length = parents.length) (hpos : 0 < parents.length) {i : Nat}
    (hi : (result.lastParent + 1) % parents.length = i) : findNext rule config xactStart parents' result =
      if i = result.startParent then if bypassOk rule config = true then some (noParents rule result)
        else scanAround rule config xactStart parents' { result with wrapAround := true } i
      else scanAround rule config xactStart parents' result i := by
  have hne : parents' ≠ [] := ne_nil_of_length_pos (by omega)
  rw [findNext, if_neg hne]
  rw [hlen, hi]

theorem After.next {t : Nat} (h : After q parents c start st t) (hstart : start < parents.length)
    (hstartParent : st.result.startParent = start)
    (hmark : Marked (st.returned ++ [st.result.lastParent]) parents parents') :
    ∃ result', findNext q.rule q.config q.xactStart parents' st.result = some result' ∧ result'.startParent = start ∧
      After q parents c start ⟨parents', st.returned ++ [st.result.lastParent], result'⟩ (t + 1) := by
  obtain ⟨hscanned, htried, honly⟩ := h.returned
  have hcur : (st.result.lastParent + 1) % parents.length = (start + (t + 1)) % parents.length := by
    rw [h.last, add_mod_add]
  have hlt : (start + (t + 1)) % parents.length < parents'.length := by
    rw [hmark.1]
    exact Nat.mod_lt _ (by omega)
  rw [findNext_eq hmark.1 (by omega) hcur, h.forbidden]
  -- in both cases the scan has wrapped around
  split_ifs with hback hfalse
  · cases hfalse
  · rw [scanAround_wrapped hlt rfl]
    exact ⟨_, rfl, hstartParent, rfl, rfl, h.forbidden, rfl, hscanned, htried, honly⟩
  · rw [scanAround_wrapped hlt h.wrap]
    exact ⟨_, rfl, hstartParent, rfl, h.wrap, h.forbidden, rfl, hscanned, htried, honly⟩

section Scan
variable (hc : c < parents.length) (hstart : start < parents.length)
include hc hstart

theorem scanAround_entered {returned : List Nat} {t : Nat} (hmark : Marked returned parents parents')
    (hstartParent : result.startParent = start)
    (hwrap : result.wrapAround = false) (ht : t < span parents.length c start)
    (htried : ∀ m, m < t → ∀ hm : (c + m) % parents.length < parents.length, usable q.config
      q.xactStart parents[(c + m) % parents.length] = true → (c + m) % parents.length ∈ returned)
    (honly : ∀ x ∈ returned, ∃ m, m < t ∧ x = (c + m) % parents.length) (hfew : returned.length ≤ t) :
    ∃ result', scanAround q.rule q.config q.xactStart parents' result
        ((c + t) % parents.length : Nat) = some result' ∧
      Entered q parents c start ⟨parents', returned, result'⟩ := by
  have hpos : 0 < parents.length := by omega
  have hlen : parents'.length = parents.length := hmark.1
  have hspan := span_add_mod hc hstart ht
  have hle := span_le (i := c) hstart
  -- positions from `t` on were not returned, so their parents are as at first
  have hsame (j : Nat) (hj : t + j < span parents.length c start)
      (hlt : (c + (t + j)) % parents.length < parents'.length)
      (hlt' : (c + (t + j)) % parents.length < parents.length) :
      parents'[(c + (t + j)) % parents.length] = parents[(c + (t + j)) % parents.length] := by
    refine hmark.getElem (fun hmem => ?_) hlt hlt'
    obtain ⟨m, hm, heq⟩ := honly _ hmem
    have := add_mod_inj hc (by omega) (by omega) heq
    omega
  -- a position that the scan has passed is not usable
  have htried' {k : Nat} (hk : t + k ≤ span parents.length c start)
      (hbefore : NoneOf (usable q.config q.xactStart) parents' ((c + t) % parents.length) k) (m : Nat)
      (hm : m < t + k) (hlt : (c + m) % parents.length < parents.length)
      (hu : usable q.config q.xactStart parents[(c + m) % parents.length] = true) :
      (c + m) % parents.length ∈ returned := by
    by_cases hmt : m < t
    · exact htried m hmt hlt hu
    · obtain ⟨m', rfl⟩ : ∃ m', m = t + m' := ⟨m - t, by omega⟩
      have hlt' : (c + (t + m')) % parents.length < parents'.length := by rwa [hlen]
      have hnot := hbefore m' (by omega)
      simp only [hlen, add_mod_add] at hnot
      rw [← hsame m' (by omega) hlt' hlt, hnot hlt] at hu
      cases hu
  subst hstartParent
  have hscan := @scanAround_spec q.rule q.config q.xactStart parents' result
    ((c + t) % parents.length) (by rw [hlen]; exact Nat.mod_lt _ hpos)
    (by rw [hlen]; exact hstart) hwrap
  simp only [hlen, hspan, add_mod_add] at hscan
  obtain ⟨j, hj, ⟨hjk, husable, hbefore⟩, heq⟩ | ⟨hall, heq⟩ := hscan
  · simp only [hlen, add_mod_add] at husable
    refine ⟨_, heq, hmark, rfl, .inl ⟨t + j, ?_⟩⟩
    refine ⟨rfl, hwrap, by omega, rfl, fun hi => ?_, ?_, fun x hx => ?_, ?_⟩
    · rw [← hsame j (by omega) (by rw [hlen]; exact hj) hj]
      exact husable hj
    · exact htried' (by omega) hbefore
    · obtain ⟨m, hm, hxm⟩ := honly x hx
      exact ⟨m, by omega, hxm⟩
    · exact Nat.le_add_right_of_le hfew
  · rw [heq]
    refine Entered.around hmark hstart rfl (fun m hm => ?_) fun x hx => ?_
    · exact htried' (by omega) hall m (by omega)
    · obtain ⟨m, hm, hxm⟩ := honly x hx
      exact ⟨m, by omega, hxm⟩

theorem Before.next {t : Nat} (h : Before q parents c start st t) (hstartParent : st.result.startParent = start)
    (hmark : Marked (st.returned ++ [st.result.lastParent]) parents parents') :
    ∃ result', findNext q.rule q.config q.xactStart parents' st.result = some result' ∧
      Entered q parents c start ⟨parents', st.returned ++ [st.result.lastParent], result'⟩ := by
  obtain ⟨htried, honly, hfew⟩ := h.returned
  have hinside := h.inside
  have hcur : (st.result.lastParent + 1) % parents.length = (c + (t + 1)) % parents.length := by
    rw [h.last, add_mod_add]
  rw [findNext_eq hmark.1 (by omega) hcur]
  by_cases hend : t + 1 = span parents.length c start
  · have hback : (c + (t + 1)) % parents.length = start := by rw [hend, add_span_mod hc hstart]
    rw [if_pos (hback.trans hstartParent.symm), hback]
    exact Entered.around hmark hstart hstartParent (fun m hm => htried m (by omega)) fun x hx => hend ▸ honly x hx
  · have hnot : (c + (t + 1)) % parents.length ≠ st.result.startParent := by
      rw [hstartParent]
      exact add_mod_ne_start hc hstart (by omega) (by omega)
    rw [if_neg hnot]
    exact scanAround_entered hc hstart hmark hstartParent h.wrap (by omega) htried honly hfew

theorem Inv.next (h : Inv q parents c start st) (hr : st.result.r = .specified)
    (hmark : Marked (st.returned ++ [st.result.lastParent]) st.parents parents') :
    ∃ result', findNext q.rule q.config q.xactStart parents' st.result = some result' ∧
      Inv q parents c start ⟨parents', st.returned ++ [st.result.lastParent], result'⟩ := by
  obtain ⟨t, ht⟩ | ⟨t, ht⟩ | hdone := h.phase
  · obtain ⟨result', heq, hentered⟩ := ht.next hc hstart h.startParent (h.marked.trans hmark)
    exact ⟨result', heq, hentered.inv⟩
  · obtain ⟨result', heq, hstart', hafter⟩ := ht.next hstart h.startParent (h.marked.trans hmark)
    exact ⟨result', heq, h.marked.trans hmark, hstart', .inr (.inl ⟨t + 1, hafter⟩)⟩
  · rw [hdone.direct] at hr
    cases hr

/-- **Run:** every state of the calls has the invariant, if the first one has. -/
theorem Inv.run (hfirst : ∀ result, findFirst q.rule q.config q.xactStart q.clientIp q.rrNext parents {} =
      some result → Inv q parents c start ⟨parents, [], result⟩) (h : Reached q parents st) :
    Inv q parents c start st := by
  induction h with
  | first h => exact hfirst _ h
  | next hs hr hmark heq ih =>
    obtain ⟨result', heq', hinv⟩ := ih.next hc hstart hr hmark
    rw [heq, some.injEq] at heq'
    rwa [heq']

/-! ### When every usable parent is tried -/

/-- The parents that the first scan leaves out are of no use where going direct is allowed; where not,
the usable ones come first among them. -/
def CoveredFrom (q : Request) (parents : List PRecord) (c start : Nat) : Prop :=
  if bypassOk q.rule q.config = true then
    ∀ m, m < skipped parents.length c start → ∀ hm : (start + m) % parents.length < parents.length,
      usable q.config q.xactStart parents[(start + m) % parents.length] = false
  else
    ∀ m k, k < m → m < skipped parents.length c start →
      ∀ (hm : (start + m) % parents.length < parents.length)
        (hk : (start + k) % parents.length < parents.length),
        usable q.config q.xactStart parents[(start + m) % parents.length] = true →
          usable q.config q.xactStart parents[(start + k) % parents.length] = true

theorem Done.allTried (h : Done q parents c start st) (hcov : CoveredFrom q parents c start) :
    AllTried q parents st.returned := by
  rw [CoveredFrom, if_pos h.allowed] at hcov
  intro i hi hu
  obtain ⟨m, hm, rfl⟩ | ⟨k, hk, rfl⟩ := scanned_or_skipped hc hstart hi
  · exact h.scanned m hm hi hu
  · rw [hcov k hk hi] at hu
    cases hu

theorem Before.usable_now {t : Nat} (h : Before q parents c start st t) (hmark : Marked st.returned parents st.parents)
    (hi : st.result.lastParent < st.parents.length) :
    ParentSelection.usable q.config q.xactStart st.parents[st.result.lastParent] = true := by
  have hle := span_le (i := c) hstart
  have hinside := h.inside
  have hlt : (c + t) % parents.length < parents.length := Nat.mod_lt _ (by omega)
  have hnew : st.result.lastParent ∉ st.returned := by
    intro hmem
    obtain ⟨m, hm, heq⟩ := h.only _ hmem
    rw [h.last] at heq
    have := add_mod_inj hc (by omega) (by omega) heq
    omega
  rw [hmark.getElem hnew hi (by rw [h.last]; exact hlt)]
  simpa only [h.last] using h.usable hlt

theorem After.new {t : Nat} (h : After q parents c start st t) {k : Nat} (hk : k < skipped parents.length c start)
    (hle : t ≤ k) : (start + k) % parents.length ∉ st.returned := by
  intro hmem
  obtain ⟨m, hm, heq⟩ | ⟨m, hm, heq⟩ := h.only _ hmem
  · exact scanned_ne_skipped hc hstart hm hk heq.symm
  · have hkn : k < parents.length := by
      unfold skipped at hk
      omega
    have := add_mod_inj hstart hkn (by omega) heq
    omega

theorem After.allTried {t : Nat} (h : After q parents c start st t) (hmark : Marked st.returned parents st.parents)
    (hcov : CoveredFrom q parents c start) (hi : st.result.lastParent < st.parents.length)
    (hnot : usable q.config q.xactStart st.parents[st.result.lastParent] = false) :
    AllTried q parents st.returned := by
  rw [CoveredFrom, if_neg (by rw [h.forbidden]; decide)] at hcov
  intro i hlt hu
  obtain ⟨m, hm, rfl⟩ | ⟨k, hk, rfl⟩ := scanned_or_skipped hc hstart hlt
  · exact h.scanned m hm hlt hu
  · by_cases hkt : k < t
    · exact h.tried k hkt
    · -- then the parent at position `t` is usable as well, and it is still as it was
      have hlast : (start + t) % parents.length < parents.length := Nat.mod_lt _ (by omega)
      have hut : usable q.config q.xactStart parents[(start + t) % parents.length] = true := by
        obtain rfl | hlt' : k = t ∨ t < k := by omega
        · exact hu
        · exact hcov k t hlt' hk hlt hlast hu
      have hnew : st.result.lastParent ∉ st.returned := by
        rw [h.last]
        exact h.new hc hstart (by omega) (le_refl t)
      rw [hmark.getElem hnew hi (by rw [h.last]; exact hlast)] at hnot
      simp only [h.last] at hnot
      rw [hut] at hnot
      cases hnot

end Scan

/-- The first call is a scan from `c`, with `start_parent` at `start`. -/
structure FirstScan (q : Request) (parents : List PRecord) (c start : Nat) : Prop where
  index : c < parents.length
  startIndex : start < parents.length
  first : ∀ result : ParentResult, result.startParent = 0 →
    findFirst q.rule q.config q.xactStart q.clientIp q.rrNext parents result =
      scanAround q.rule q.config q.xactStart parents { result with startParent := start } c

/-- A state that is reached while no parent changes. -/
structure ReachedAs (q : Request) (parents : List PRecord) (start : Nat) (st : CallState) : Prop where
  reached : Reached q parents st
  parents : st.parents = parents
  startParent : st.result.startParent = start

theorem ReachedAs.next (h : ReachedAs q parents start st) (hr : st.result.r = .specified)
    (heq : findNext q.rule q.config q.xactStart parents st.result = some result)
    (hstart : result.startParent = start) :
    ReachedAs q parents start ⟨parents, st.returned ++ [st.result.lastParent], result⟩ := by
  refine ⟨.next h.reached hr ?_ heq, rfl, hstart⟩
  rw [h.parents]
  exact .refl _ _

section FirstScan
variable (h : FirstScan q parents c start)
include h

theorem FirstScan.entered :
    ∃ result, findFirst q.rule q.config q.xactStart q.clientIp q.rrNext parents {} = some result ∧
      Entered q parents c start ⟨parents, [], result⟩ := by
  have hscan := @scanAround_entered parents { startParent := start } q c start parents
    h.index h.startIndex [] 0 (.refl [] parents) rfl rfl (span_pos h.index)
    (fun m hm => absurd hm (by omega)) (fun x hx => absurd hx (by simp)) (le_refl 0)
  rw [add_zero, Nat.mod_eq_of_lt h.index] at hscan
  rw [h.first {} rfl]
  exact hscan

theorem FirstScan.inv (hst : Reached q parents st) : Inv q parents c start st := by
  refine Inv.run h.index h.startIndex (fun result heq => ?_) hst
  obtain ⟨result', heq', hentered⟩ := h.entered
  rw [heq, some.injEq] at heq'
  rw [heq']
  exact hentered.inv

theorem FirstScan.exists_over : ∃ st, ReachedAs q parents start st ∧
    (After q parents c start st 0 ∨ Done q parents c start st) := by
  have hcalls : ∀ k : Nat, (∃ st, ReachedAs q parents start st ∧
        (After q parents c start st 0 ∨ Done q parents c start st)) ∨
      ∃ st t, ReachedAs q parents start st ∧ Before q parents c start st t ∧ st.returned.length = k := by
    intro k
    induction k with
    | zero =>
      obtain ⟨result, heq, hentered⟩ := h.entered
      obtain ⟨t, ht⟩ | hover := hentered.phase
      · exact .inr ⟨_, t, ⟨.first heq, rfl, hentered.startParent⟩, ht, rfl⟩
      · exact .inl ⟨_, ⟨.first heq, rfl, hentered.startParent⟩, hover⟩
    | succ k ih =>
      obtain hover | ⟨st, t, hst, ht, hk⟩ := ih
      · exact .inl hover
      · obtain ⟨result, heq, hentered⟩ := ht.next h.index h.startIndex hst.startParent (.refl _ _)
        have hnext := hst.next ht.specified heq hentered.startParent
        obtain ⟨t', ht'⟩ | hover := hentered.phase
        · exact .inr ⟨_, t', hnext, ht', by simp [hk]⟩
        · exact .inl ⟨_, hnext, hover⟩
  obtain hover | ⟨st, t, -, ht, hk⟩ := hcalls parents.length
  · exact hover
  · have hle := span_le (i := c) h.startIndex
    have hfew := ht.few
    have hinside := ht.inside
    omega

theorem FirstScan.exists_after (hforbidden : bypassOk q.rule q.config = false) (t : Nat) :
    ∃ st, ReachedAs q parents start st ∧ After q parents c start st t := by
  induction t with
  | zero =>
    obtain ⟨st, hst, hafter | hdone⟩ := h.exists_over
    · exact ⟨st, hst, hafter⟩
    · rw [hdone.allowed] at hforbidden
      cases hforbidden
  | succ t ih =>
    obtain ⟨st, hst, hafter⟩ := ih
    obtain ⟨result, heq, hstart', hafter'⟩ := hafter.next h.startIndex hst.startParent (.refl _ _)
    exact ⟨_, hst.next hafter.specified heq hstart', hafter'⟩

theorem FirstScan.triesAll (hcov : CoveredFrom q parents c start) : TriesAll q parents where
  first_ends := by
    obtain ⟨result, heq, -⟩ := h.entered
    exact ⟨result, heq⟩
  next_ends st hst hr parents' hmark := by
    obtain ⟨result, heq, -⟩ := (h.inv hst).next h.index h.startIndex hr hmark
    exact ⟨result, heq⟩
  direct st hst hr := by
    obtain ⟨t, ht⟩ | ⟨t, ht⟩ | hdone := (h.inv hst).phase
    · rw [ht.specified] at hr
      cases hr
    · rw [ht.specified] at hr
      cases hr
    · exact ⟨hdone.allowed, hdone.allTried h.index h.startIndex hcov⟩
  unusable st hst hr hi hnot := by
    have hinv := h.inv hst
    obtain ⟨t, ht⟩ | ⟨t, ht⟩ | hdone := hinv.phase
    · rw [ht.usable_now h.index h.startIndex hinv.marked hi] at hnot
      cases hnot
    · exact ⟨ht.forbidden, ht.allTried h.index h.startIndex hinv.marked hcov hi hnot⟩
    · rw [hdone.direct] at hr
      cases hr

theorem FirstScan.coveredFrom (htries : TriesAll q parents) : CoveredFrom q parents c start := by
  unfold CoveredFrom
  split
  · next hallowed =>
    -- the answer is direct, and a parent that was left out has not been returned
    intro m hm hlt
    by_contra hu
    obtain ⟨st, ⟨hst, -, -⟩, hafter | hdone⟩ := h.exists_over
    · rw [hafter.forbidden] at hallowed
      cases hallowed
    · have hmem := (htries.direct st hst hdone.direct).2 _ hlt (by simpa using hu)
      obtain ⟨k, hk, heq⟩ := hdone.only _ hmem
      exact scanned_ne_skipped h.index h.startIndex hk hm heq.symm
  · next hforbidden =>
    -- the one in front is returned, and the usable one behind it has not been
    intro m k hkm hm hlt hlt' hu
    by_contra hnot
    obtain ⟨st, ⟨hst, hparents, -⟩, hafter⟩ := h.exists_after (by simpa using hforbidden) k
    have hlast : st.result.lastParent < st.parents.length := by
      rw [hafter.last, hparents]
      exact hlt'
    have hunusable : usable q.config q.xactStart st.parents[st.result.lastParent] = false := by
      simp only [hafter.last, hparents]
      simpa using hnot
    have hmem := (htries.unusable st hst hafter.specified hlast hunusable).2 _ hlt hu
    exact hafter.new h.index h.startIndex hm (by omega) hmem

theorem FirstScan.triesAll_iff : TriesAll q parents ↔ CoveredFrom q parents c start := ⟨h.coveredFrom, h.triesAll⟩

end FirstScan

theorem coveredFrom_self : CoveredFrom q parents start start := by
  have hnone : skipped parents.length start start = 0 := by simp [skipped, span]
  unfold CoveredFrom
  split
  · intro m hm
    omega
  · intro m k hk hm
    omega

/-! ### The modes -/

section
variable (hne : parents ≠ [])

include hne

theorem firstScan_noRoundRobin (hmode : q.rule.roundRobin = .noRoundRobin) : FirstScan q parents 0 0 where
  index := length_pos_iff.mpr hne
  startIndex := length_pos_iff.mpr hne
  first result _ := by
    rw [findFirst, if_neg hne, hmode]
    rfl

theorem firstScan_strict (hmode : q.rule.roundRobin = .strictRoundRobin)
    (hindex : 0 ≤ q.rrNext.toInt.tmod parents.length) :
    ∃ c : Nat, FirstScan q parents c c ∧ q.rrNext.toInt.tmod parents.length = c := by
  have hpos : 0 < parents.length := length_pos_iff.mpr hne
  obtain ⟨c, hc⟩ := Int.eq_ofNat_of_zero_le hindex
  have hlt : c < parents.length := by
    have := Int.tmod_lt_of_pos q.rrNext.toInt (by omega : (0 : Int) < parents.length)
    omega
  have hsmall : c < 2 ^ 32 := by
    have habs : c = q.rrNext.toInt.natAbs % parents.length := by
      have := Int.natAbs_tmod q.rrNext.toInt parents.length
      rw [hc] at this
      simpa using this
    have hle : c ≤ q.rrNext.toInt.natAbs := habs ▸ Nat.mod_le _ _
    have hupper := q.rrNext.toInt_lt
    have hlower := q.rrNext.le_toInt
    omega
  refine ⟨c, ⟨hlt, hlt, fun result _ => ?_⟩, hc⟩
  have hstart : ((c : Int) % 2 ^ 32).toNat = c := by
    rw [Int.emod_eq_of_lt (by omega) (by omega)]
    exact Int.toNat_natCast c
  rw [findFirst, if_neg hne, hmode]
  dsimp only
  rw [hc, hstart]

theorem findFirst_strict_negative (hmode : q.rule.roundRobin = .strictRoundRobin)
    (hindex : q.rrNext.toInt.tmod parents.length < 0) :
    findFirst q.rule q.config q.xactStart q.clientIp q.rrNext parents result = none := by
  rw [findFirst, if_neg hne, hmode]
  rw [scanAround, scan, if_pos hindex]
  rfl

theorem firstScan_hash (hmode : q.rule.roundRobin = .hashRoundRobin) :
    FirstScan q parents (hashIndex q parents.length) 0 where
  index := Nat.mod_lt _ (length_pos_iff.mpr hne)
  startIndex := length_pos_iff.mpr hne
  first result hzero := by
    rw [findFirst, if_neg hne, hmode, ← hzero]
    rfl

end

theorem skipped_zero (n i : Nat) (hi : i < n) : skipped n i 0 = i := by
  unfold skipped span
  rw [if_neg (by omega)]
  omega

theorem coveredFrom_hash_iff (hne : parents ≠ []) (hmode : q.rule.roundRobin = .hashRoundRobin) :
    CoveredFrom q parents (hashIndex q parents.length) 0 ↔ Covered q parents := by
  have hlt : hashIndex q parents.length < parents.length := Nat.mod_lt _ (length_pos_iff.mpr hne)
  unfold CoveredFrom Covered
  rw [skipped_zero _ _ hlt, if_neg hne, hmode]
  have hmod {m : Nat} (hm : m < parents.length) : (0 + m) % parents.length = m := by
    rw [zero_add, Nat.mod_eq_of_lt hm]
  split
  · constructor
    · intro h i hi hlt'
      simpa only [hmod hi] using h i hlt' (by rw [hmod hi]; exact hi)
    · intro h m hm hm'
      have hlt' : m < parents.length := by omega
      simpa only [hmod hlt'] using h m hlt' hm
  · constructor
    · intro h i j hi hj hlt' hu
      have hj' : j < parents.length := by omega
      have := h i j hj hlt' (by rw [hmod hi]; exact hi) (by rw [hmod hj']; exact hj')
      simp only [hmod hi, hmod hj'] at this
      exact this hu
    · intro h m k hkm hm hm' hk'
      have hlt' : m < parents.length := by omega
      have hkn : k < parents.length := by omega
      simp only [hmod hlt', hmod hkn]
      exact h m k hlt' hkm hm

theorem triesAll_nil : TriesAll q [] ↔ (q.rule.goDirect = true → q.config.dnsParentOnly = 0) := by
  have hfirst : findFirst q.rule q.config q.xactStart q.clientIp q.rrNext [] {} =
      some (noParents q.rule {}) := by rw [findFirst, if_pos rfl]
  have hr : (noParents q.rule {}).r ≠ .specified := by
    unfold noParents
    split <;> simp
  have honly : ∀ st, Reached q [] st → st = ⟨[], [], noParents q.rule {}⟩ := by
    intro st hst
    induction hst with
    | first h =>
      rw [hfirst, some.injEq] at h
      rw [h]
    | next hs hspec _ _ ih =>
      rw [ih] at hspec
      exact absurd hspec hr
  have hnot (st : CallState) (hst : Reached q [] st) : st.result.r ≠ .specified := honly st hst ▸ hr
  constructor
  · intro h hdirect
    have := (h.direct _ (.first hfirst) (by simp [noParents, hdirect])).1
    rw [bypassOk, Bool.and_eq_true, decide_eq_true_iff] at this
    exact this.2
  · intro h
    refine ⟨⟨_, hfirst⟩, fun st hst hspec => absurd hspec (hnot st hst), ?_,
      fun st hst hspec => absurd hspec (hnot st hst)⟩
    intro st hst hdirect
    rw [honly st hst] at hdirect
    refine ⟨?_, fun i hi => absurd hi (by simp)⟩
    have hgo : q.rule.goDirect = true := by
      by_contra hgo
      simp [noParents, hgo] at hdirect
    rw [bypassOk, hgo, h hgo]
    rfl

/-- **Every usable parent of a rule is tried exactly if the rule is covered.** -/
theorem triesAll_iff_covered (q : Request) (parents : List PRecord) : TriesAll q parents ↔ Covered q parents := by
  by_cases hne : parents = []
  · subst hne
    rw [Covered, if_pos rfl]
    exact triesAll_nil
  · cases hmode : q.rule.roundRobin with
    | noRoundRobin =>
      rw [Covered, if_neg hne, hmode]
      exact iff_true_intro ((firstScan_noRoundRobin hne hmode).triesAll coveredFrom_self)
    | strictRoundRobin =>
      rw [Covered, if_neg hne, hmode]
      constructor
      · intro h
        by_contra hneg
        obtain ⟨result, heq⟩ := h.first_ends
        rw [findFirst_strict_negative hne hmode (by omega)] at heq
        cases heq
      · intro hindex
        obtain ⟨c, hc, -⟩ := firstScan_strict hne hmode hindex
        exact hc.triesAll coveredFrom_self
    | hashRoundRobin => exact (firstScan_hash hne hmode).triesAll_iff.trans (coveredFrom_hash_iff hne hmode)

end Run

/-! ### Finding the rule -/

/-- A rule with its parents and its counter. -/
structure Rule where
  record : ParentRecord
  parents : List PRecord
  rrNext : BitVec 32

/-- The part of a `ParentResult` that `UpdateMatch` writes (`recPtr` is its `rec`); `0xffffffff` is the
line of no rule. -/
structure Found where
  lineNumber : Int := -1
  recPtr : Option Rule := none

def updateMatch (rd : HttpRequestData) (found : Found) (rule : Rule) : Found :=
  if checkForMatch rule.record.mods rule.record.lineNum rd found.lineNumber then
    ⟨rule.record.lineNum, some rule⟩
  else found

/-- What `findParent` is called with: the parent set through the API, the rules whose destination
matches, in the order of the tables, and the default parent. -/
structure Lookup where
  config : ParentConfigParams
  rd : HttpRequestData
  xactStart : Int
  api : Option (Bytes × Int)
  rules : List Rule
  defaultParent : Option Rule

namespace Lookup

def matched (l : Lookup) : Option Rule := (l.rules.foldl (updateMatch l.rd) {}).recPtr

/-- The calls for one request with a rule. The address of the client is in host order. -/
def request (l : Lookup) (rule : Rule) : Request :=
  ⟨rule.record, l.config, l.xactStart, l.rd.srcIp, rule.rrNext⟩

def initial (l : Lookup) : ParentResult :=
  match l.api with
  | some (hostname, port) => { r := .specified, hostname := some hostname, port := port }
  | none => {}

def findIn (l : Lookup) (rule : Rule) : Option ParentResult :=
  findFirst rule.record l.config l.xactStart l.rd.srcIp rule.rrNext rule.parents l.initial

/-- `ParentConfigParams::findParent`. A rule that matches takes the place of the record of the API. -/
def findParent (l : Lookup) : Option ParentResult :=
  if l.config.parentEnable = 0 then some { r := .direct }
  else
    match l.matched with
    | some rule => l.findIn rule
    | none =>
      match l.api with
      | some _ => some l.initial
      | none =>
        match l.defaultParent with
        | some rule => l.findIn rule
        | none => some { l.initial with r := .direct }

/-- The rule the parents are taken from if none was set through the API. -/
def chosen (l : Lookup) : Option Rule := l.matched.or l.defaultParent

/-- **Parent selection is right:** the parent set through the API is returned, whatever rules match; and
without one, every usable parent of the rule is tried. -/
def Selects (l : Lookup) : Prop :=
  (∀ hostname port, l.api = some (hostname, port) → ∃ result, l.findParent = some result ∧
    result.r = .specified ∧ result.hostname = some hostname ∧ result.port = port) ∧
  (l.api = none → l.config.parentEnable ≠ 0 → ∀ rule, l.chosen = some rule →
    TriesAll (l.request rule) rule.parents)

end Lookup

def firstIndex (q : Request) (parents : List PRecord) : Option (Nat × Nat) :=
  if parents = [] then none
  else
    match q.rule.roundRobin with
    | .noRoundRobin => some (0, 0)
    | .strictRoundRobin =>
      let c := q.rrNext.toInt.tmod parents.length
      if c < 0 then none else some (c.toNat, c.toNat)
    | .hashRoundRobin => some (hashIndex q parents.length, 0)

/-- The parent of the first call: the first usable one of the scan, or the one at `start_parent` where
going direct is not allowed. -/
def firstPick (q : Request) (parents : List PRecord) : Option PRecord := do
  let (c, start) ← firstIndex q parents
  let scanned := (List.range (span parents.length c start)).filterMap fun m =>
    parents[(c + m) % parents.length]?
  match scanned.find? (usable q.config q.xactStart) with
  | some p => some p
  | none => if bypassOk q.rule q.config then none else parents[start]?

/-- **When parent selection is right.** With a parent set through the API: parents are enabled and no rule
matches, or the rule that does picks a parent of the same name and port. Without one: the rule is
covered. -/
def Lookup.Safe (l : Lookup) : Prop :=
  (∀ hostname port, l.api = some (hostname, port) → l.config.parentEnable ≠ 0 ∧
    ∀ rule, l.matched = some rule → ∃ p, firstPick (l.request rule) rule.parents = some p ∧
      p.hostname = hostname ∧ p.port = port) ∧
  (l.api = none → l.config.parentEnable ≠ 0 → ∀ rule, l.chosen = some rule →
    Covered (l.request rule) rule.parents)

/-! ### The rule is the one with the lowest line -/

def ruleSlot (rd : HttpRequestData) : Slot Found Rule (Option Rule) :=
  ⟨fun rule => checkModifiers rule.record.mods rd, (·.lineNumber), (·.recPtr), some⟩

theorem ruleSlot_kept (rd : HttpRequestData) :
    (ruleSlot rd).Kept (·.record.lineNum) (updateMatch rd) fun _ => True := by
  intro found rule _
  have hiff : checkForMatch rule.record.mods rule.record.lineNum rd found.lineNumber = true ↔
      (ruleSlot rd).sel rule = true ∧ (found.lineNumber < 0 ∨ found.lineNumber > rule.record.lineNum) := by
    simp [checkForMatch, ruleSlot, and_comm]
  by_cases hcheck : checkForMatch rule.record.mods rule.record.lineNum rd found.lineNumber = true
  · rw [updateMatch, if_pos hcheck]
    exact (if_pos (hiff.mp hcheck)).symm
  · rw [updateMatch, if_neg hcheck]
    exact (if_neg fun h => hcheck (hiff.mpr h)).symm

/-- **The matching rule with the lowest line is chosen.** -/
theorem matched_lowest (l : Lookup) : (ruleSlot l.rd).Decided (·.record.lineNum) none l.rules
    (l.rules.foldl (updateMatch l.rd) {}) :=
  (ruleSlot_kept l.rd).decided {} rfl fun _ _ => trivial

/-! ### When parent selection is right -/

section Selects
variable {q : Request} {c start : Nat}

theorem find?_filterMap_range {f : Nat → Option PRecord} {p : PRecord → Bool} {k : Nat} {x : PRecord}
    {j : Nat} (hj : j < k) (hx : f j = some x) (hpx : p x = true)
    (hbefore : ∀ m, m < j → ∀ y, f m = some y → p y = false) : ((List.range k).filterMap f).find? p = some x := by
  have hfirst : (List.range k).find? (fun m => (f m).any p) = some j := by
    refine find?_range_eq_some.mpr ⟨by simp [hx, hpx], mem_range.mpr hj, fun m hm => ?_⟩
    cases hy : f m with
    | none => rfl
    | some y => simpa using hbefore m hm y hy
  rw [find?_filterMap, hfirst, bind_some, hx]

/-- The first call returns the parent of `firstPick`, or none if there is none. -/
def Picks (q : Request) (parents : List PRecord) (result : ParentResult) : Prop :=
  ∀ hostname port, (∃ result', findFirst q.rule q.config q.xactStart q.clientIp q.rrNext parents result =
        some result' ∧ result'.r = .specified ∧ result'.hostname = some hostname ∧
        result'.port = port) ↔
      ∃ p, firstPick q parents = some p ∧ p.hostname = hostname ∧ p.port = port

variable (hzero : result.startParent = 0) (hwrap : result.wrapAround = false)
include hzero hwrap

theorem FirstScan.picks (h : FirstScan q parents c start) (hindex : firstIndex q parents = some (c, start)) :
    Picks q parents result := by
  intro hostname port
  have hget (m : Nat) (hm : (c + m) % parents.length < parents.length) :
      parents[(c + m) % parents.length]? = some parents[(c + m) % parents.length] :=
    getElem?_eq_getElem hm
  have hmod (m : Nat) : (c + m) % parents.length < parents.length := Nat.mod_lt _ (Nat.zero_lt_of_lt h.index)
  have hscan := @scanAround_spec q.rule q.config q.xactStart parents
    { result with startParent := start } c h.index h.startIndex hwrap
  rw [h.first result hzero]
  obtain ⟨j, hj, ⟨hjk, hu, hbefore⟩, heq⟩ | ⟨hall, heq⟩ := hscan
  · have hpick : firstPick q parents = some parents[(c + j) % parents.length] := by
      rw [firstPick, hindex]
      simp only [bind_eq_bind, bind_some]
      rw [find?_filterMap_range hjk (hget j hj) (hu hj) fun m hm y hy => ?_]
      rw [hget m (hmod m), some.injEq] at hy
      rw [← hy]
      exact hbefore m hm (hmod m)
    simp [heq, takeAt, take, hpick]
  · have hnone : ((List.range (span parents.length c start)).filterMap fun m =>
        parents[(c + m) % parents.length]?).find? (usable q.config q.xactStart) = none := by
      simp only [find?_eq_none, mem_filterMap, mem_range, Bool.not_eq_true]
      rintro y ⟨m, hm, hy⟩
      rw [hget m (hmod m), some.injEq] at hy
      rw [← hy]
      exact hall m hm (hmod m)
    by_cases hbypass : bypassOk q.rule q.config = true
    · have hpick : firstPick q parents = none := by
        rw [firstPick, hindex]
        simp only [bind_eq_bind, bind_some, hnone, hbypass, if_true]
      rw [if_pos hbypass] at heq
      simp [heq, noParents, hpick]
    · have hstart := h.startIndex
      have hpick : firstPick q parents = some parents[start] := by
        rw [firstPick, hindex]
        simp only [bind_eq_bind, bind_some, hnone]
        rw [if_neg hbypass, getElem?_eq_getElem h.startIndex]
      rw [if_neg hbypass, scanAround_wrapped hstart rfl] at heq
      simp [heq, takeAt, take, hpick]

theorem findFirst_picks (q : Request) (parents : List PRecord) : Picks q parents result := by
  by_cases hne : parents = []
  · intro hostname port
    have hpick : firstPick q parents = none := by
      rw [firstPick, firstIndex, if_pos hne]
      rfl
    rw [hpick, findFirst, if_pos hne]
    simp [noParents]
  · cases hmode : q.rule.roundRobin with
    | noRoundRobin =>
      exact (firstScan_noRoundRobin hne hmode).picks hzero hwrap (by rw [firstIndex, if_neg hne, hmode])
    | hashRoundRobin => exact (firstScan_hash hne hmode).picks hzero hwrap (by rw [firstIndex, if_neg hne, hmode])
    | strictRoundRobin =>
      by_cases hneg : q.rrNext.toInt.tmod parents.length < 0
      · intro hostname port
        have hpick : firstPick q parents = none := by
          rw [firstPick, firstIndex, if_neg hne, hmode]
          simp only [if_pos hneg]
          rfl
        rw [hpick, findFirst_strict_negative hne hmode hneg]
        simp
      · obtain ⟨c, hc, hcount⟩ := firstScan_strict hne hmode (by omega)
        refine hc.picks hzero hwrap ?_
        rw [firstIndex, if_neg hne, hmode]
        rw [hcount, if_neg (by omega), Int.toNat_natCast]

omit hzero hwrap

/-- **Parent selection is right exactly if it is safe.** -/
theorem parent_selection_iff (l : Lookup) : l.Selects ↔ l.Safe := by
  refine and_congr (forall₃_congr fun hostname port hapi => ?_)
    (forall₄_congr fun _ _ rule _ => triesAll_iff_covered (l.request rule) rule.parents)
  have hzero : l.initial.startParent = 0 := by
    rw [Lookup.initial, hapi]
  have hwrap : l.initial.wrapAround = false := by
    rw [Lookup.initial, hapi]
  unfold Lookup.findParent
  split_ifs with henable
  · simp [henable]
  · cases hmatched : l.matched with
    | none =>
      rw [hapi]
      simp [Lookup.initial, hapi, henable]
    | some rule =>
      dsimp only
      rw [Lookup.findIn]
      refine (findFirst_picks hzero hwrap (l.request rule) rule.parents hostname port).trans
        ⟨fun h => ⟨henable, ?_⟩, fun h => h.2 rule rfl⟩
      rintro rule' hrule
      rwa [← some.inj hrule]

/-! ### Where it is not -/

/-- A request of the client with the given address, at second 110. -/
def lookupOf (mode : ParentRR) (api : Option (Bytes × Int)) (clientIp rrNext : BitVec 32)
    (parents : List PRecord) : Lookup where
  config := ⟨30, 1, 10, 0⟩
  rd := ⟨true, 80, none, [], strBytes "GET", 0, clientIp, 0, 8080, strBytes "h", strBytes "http://h/",
    none⟩
  xactStart := 110
  api := api
  rules := [⟨⟨mode, true, 1, none⟩, parents, rrNext⟩]
  defaultParent := none

def upParent : PRecord := ⟨strBytes "a", 80, 0, 0⟩

def downParent : PRecord := ⟨strBytes "b", 80, 100, 10⟩

theorem lookupOf_chosen (mode : ParentRR) (api : Option (Bytes × Int)) (clientIp rrNext : BitVec 32)
    (parents : List PRecord) : (lookupOf mode api clientIp rrNext parents).matched =
      some ⟨⟨mode, true, 1, none⟩, parents, rrNext⟩ := rfl

/-- In hash mode, with a client whose index is 1, the answer is direct although parent 0 is up; in strict
mode, a counter past `2 ^ 31` gives no index; and a rule that matches takes the place of the parent set
through the API. -/
theorem parent_selection_fails :
    ((lookupOf .hashRoundRobin none 1 0 [upParent, downParent]).findParent.map (·.r) = some .direct ∧
      ¬(lookupOf .hashRoundRobin none 1 0 [upParent, downParent]).Selects) ∧
    ((lookupOf .strictRoundRobin none 0 0x80000001#32 [upParent, upParent]).findParent = none ∧
      ¬(lookupOf .strictRoundRobin none 0 0x80000001#32 [upParent, upParent]).Selects) ∧
    (lookupOf .noRoundRobin (some (strBytes "p", 8080)) 0 0 [upParent]).findParent.map (·.hostname) =
        some (some (strBytes "a")) ∧
      ¬(lookupOf .noRoundRobin (some (strBytes "p", 8080)) 0 0 [upParent]).Selects := by
  have hhash : (lookupOf .hashRoundRobin none 1 0 [upParent, downParent]).findParent.map (·.r) =
      some .direct := by decide +kernel
  have hstrict : (lookupOf .strictRoundRobin none 0 0x80000001#32 [upParent, upParent]).findParent =
      none := by decide +kernel
  have hapi : (lookupOf .noRoundRobin (some (strBytes "p", 8080)) 0 0 [upParent]).findParent.map
      (·.hostname) = some (some (strBytes "a")) := by decide +kernel
  refine ⟨⟨hhash, fun h => ?_⟩, ⟨hstrict, fun h => ?_⟩, hapi, fun h => ?_⟩
  · have htries := h.2 rfl (by decide) _ (by rw [Lookup.chosen, lookupOf_chosen]; rfl)
    obtain ⟨result, heq⟩ := htries.first_ends
    have hdirect : result.r = .direct := some.inj ((congrArg (Option.map _) heq).symm.trans hhash)
    have hall := (htries.direct _ (.first heq) hdirect).2 0 (by decide) (by decide +kernel)
    cases hall
  · have htries := h.2 rfl (by decide) _ (by rw [Lookup.chosen, lookupOf_chosen]; rfl)
    obtain ⟨result, heq⟩ := htries.first_ends
    cases hstrict.symm.trans heq
  · obtain ⟨result, heq, -, hname, -⟩ := h.1 (strBytes "p") 8080 rfl
    rw [heq, map_some, hname, some.injEq, some.injEq] at hapi
    exact absurd hapi (by decide +kernel)

end Selects

end ParentSelection

end TrafficServer
