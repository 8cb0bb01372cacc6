import Mathlib.Algebra.Group.Nat.Defs
import Mathlib.Logic.Relation
import Mathlib.Order.Basic
import Mathlib.Tactic.SplitIfs

/-!
# Expiry of host database entries

The entry of one name, as `probe` finds it and `dnsEvent` replaces it. `probe` compares the age of an
entry with its time to live, and when it starts a refresh in the background it sets the timestamp to
the present (`refresh_ip`): from then on the age is not counted from the answer that the address came
from. `inserted` is the time of that answer. Which settings let an address outlive its answer is
`expired_not_served_iff`.

The name is not in dotted form, and there is no cluster; `owner` stands for what the latter would say.
-/

namespace TrafficServer

namespace HostDB

def hostDBMaxTTL : Nat := 0x1FFFFF

inductive TTLMode
  | obey
  | ignore
  | min
  | max
deriving DecidableEq, Repr

/-- The settings, all of them `unsigned int`. -/
structure Config where
  enable : Bool
  ttlMode : TTLMode
  ipTimeoutInterval : Nat
  ipStaleInterval : Nat
  ipFailTimeoutInterval : Nat
  serveStaleButRevalidate : Nat

/-- `HostDBInfo`, the fields that a lookup by name has to do with, and the time of the `insert`. -/
structure HostDBInfo where
  ip : Nat
  ipTimestamp : Nat
  ipTimeoutInterval : Nat
  deleted : Bool
  hits : Nat
  roundRobin : Bool
  reverseDns : Bool
  md5High : Nat
  inserted : Nat
deriving DecidableEq, Repr

namespace HostDBInfo
variable (cfg : Config) (now : Nat) (r : HostDBInfo)

def failed : Bool := r.ip = 0

def ipInterval : Nat := (now + (2 ^ 32 - r.ipTimestamp)) % 2 ^ 32 % 2 ^ 31

def isIpStale : Bool :=
  if r.ipTimeoutInterval ≥ 2 * cfg.ipStaleInterval % 2 ^ 32 then r.ipInterval now ≥ cfg.ipStaleInterval
  else false

def isIpTimeout : Bool := r.ipInterval now ≥ r.ipTimeoutInterval

def isIpFailTimeout : Bool := r.ipInterval now ≥ cfg.ipFailTimeoutInterval

def refreshIp : HostDBInfo := { r with ipTimestamp := now }

def serveStaleButRevalidate : Bool :=
  if cfg.serveStaleButRevalidate ≤ 0 then false
  else (r.ipTimeoutInterval + cfg.serveStaleButRevalidate) % 2 ^ 32 > r.ipInterval now

def hit : HostDBInfo := { r with hits := if (r.hits + 1) % 8 = 0 then 7 else (r.hits + 1) % 8 }

end HostDBInfo

open HostDBInfo Relation Option

/-- What else a probe depends on: whether this machine owns the name, and whether the heap has the
hostname or the round-robin data of the entry. -/
structure Surroundings where
  owner : Bool
  hostname : Bool
  rr : Bool

/-- What `probe` leaves in the database and returns, and whether it starts a refresh. -/
structure Probed where
  entry : Option HostDBInfo
  result : Option HostDBInfo
  refresh : Bool

section
variable (cfg : Config) (md5High : Nat)

def probe (now : Nat) (env : Surroundings) (ignoreTimeout : Bool) (entry : Option HostDBInfo) :
    Probed :=
  if !cfg.enable then ⟨entry, none, false⟩
  else
    match entry with
    | none => ⟨none, none, false⟩
    | some r =>
      if md5High ≠ r.md5High then ⟨some r, none, false⟩
      else if r.deleted then ⟨some r, none, false⟩
      else if r.failed && r.isIpFailTimeout cfg now then ⟨some r, none, false⟩
      else if !r.failed && !ignoreTimeout && r.isIpTimeout now && !r.serveStaleButRevalidate cfg now then
        ⟨some r, none, false⟩
      else if r.reverseDns && !env.hostname then ⟨none, none, false⟩
      else if r.roundRobin && !env.rr then ⟨none, none, false⟩
      else if (!ignoreTimeout && r.isIpStale cfg now && env.owner && !r.reverseDns) ||
          (r.isIpTimeout now && r.serveStaleButRevalidate cfg now) then
        ⟨some (r.refreshIp now).hit, some (r.refreshIp now).hit, true⟩
      else ⟨some r.hit, some r.hit, false⟩

/-- `HostDBContinuation::insert`, into an empty block. -/
def insert (now attl : Nat) : HostDBInfo where
  ip := 0
  ipTimestamp := now
  ipTimeoutInterval := if attl > hostDBMaxTTL then hostDBMaxTTL else attl
  deleted := false
  hits := 0
  roundRobin := false
  reverseDns := false
  md5High := md5High
  inserted := now

def ttlByMode (ttl : Nat) : Nat :=
  let timeout := cfg.ipTimeoutInterval * 60 % 2 ^ 32
  match cfg.ttlMode with
  | .obey => ttl
  | .ignore => timeout
  | .min => if timeout < ttl then timeout else ttl
  | .max => if timeout > ttl then timeout else ttl

/-- The time to live that `lookup_done` makes of the one in an answer. -/
def ttlSeconds (ttl : Nat) : Nat := if ttlByMode cfg ttl = 0 then 1 else ttlByMode cfg ttl

def lookupDone (now aip : Nat) (aroundRobin : Bool) (ttl : Nat) : HostDBInfo :=
  if aip = 0 then insert md5High now cfg.ipFailTimeoutInterval
  else { insert md5High now (ttlSeconds cfg ttl) with ip := aip, roundRobin := aroundRobin }

end

/-! ### Runs -/

/-- The clock, the entry under the key of the name, and whether a DNS query for it is out. -/
structure Db where
  now : Nat
  entry : Option HostDBInfo
  pending : Bool

namespace Db
variable (cfg : Config) (md5High : Nat)

def lookup (s : Db) (env : Surroundings) : Db × Option HostDBInfo :=
  let p := probe cfg md5High s.now env false s.entry
  (⟨s.now, p.entry, s.pending || p.refresh || p.result.isNone⟩, p.result)

/-- `dnsEvent` with an answer: the address, or 0 for a failure. The old entry is looked at first. -/
def dnsEvent (s : Db) (env : Surroundings) (aip : Nat) (aroundRobin : Bool) (ttl : Nat) : Db :=
  let p := probe cfg md5High s.now env true s.entry
  ⟨s.now, some (lookupDone cfg md5High s.now aip aroundRobin ttl), p.refresh⟩

/-- `dnsEvent` with `EVENT_INTERVAL`, for a query that nobody waits for. -/
def timeout (s : Db) : Db := { s with pending := false }

inductive Step : Db → Db → Prop
  | tick (s : Db) (t : Nat) (hle : s.now ≤ t) (hlt : t < 2 ^ 31) : Step s { s with now := t }
  | lookup (s : Db) (env : Surroundings) : Step s (s.lookup cfg md5High env).1
  | dnsEvent (s : Db) (env : Surroundings) (aip : Nat) (aroundRobin : Bool) (ttl : Nat)
      (hpending : s.pending = true) (httl : ttl < 2 ^ 32) :
      Step s (s.dnsEvent cfg md5High env aip aroundRobin ttl)
  | timeout (s : Db) (hpending : s.pending = true) : Step s s.timeout
  /-- The entry is evicted, or the block is taken for another name. -/
  | evict (s : Db) (entry : Option HostDBInfo) (hother : ∀ r, entry = some r → r.md5High ≠ md5High) :
      Step s { s with entry := entry }
  /-- The entry is marked as deleted by a user. -/
  | setDeleted (s : Db) : Step s { s with entry := s.entry.map fun r => { r with deleted := true } }

/-- A database that has nothing on the name. -/
structure Init (s : Db) : Prop where
  now : s.now < 2 ^ 31
  entry : s.entry = none
  pending : s.pending = false

def Reachable (s : Db) : Prop := ∃ s₀ : Db, s₀.Init ∧ ReflTransGen (Step cfg md5High) s₀ s

end Db

/-- The address is within its time to live, or within the time that stale entries may be served. -/
def Fresh (cfg : Config) (now : Nat) (r : HostDBInfo) : Prop :=
  now - r.inserted < r.ipTimeoutInterval ∨
    0 < cfg.serveStaleButRevalidate ∧
      now - r.inserted < r.ipTimeoutInterval + cfg.serveStaleButRevalidate

/-! ### One probe -/

variable {r : HostDBInfo} {env : Surroundings} {P : Nat → HostDBInfo → Prop} {ttl now : Nat}

section
variable {cfg : Config} {md5High aip : Nat} {ignoreTimeout : Bool} {entry : Option HostDBInfo} {p : Probed}

theorem HostDBInfo.ipInterval_eq (hle : r.ipTimestamp ≤ now) (hnow : now < 2 ^ 31) :
    r.ipInterval now = now - r.ipTimestamp := by
  unfold ipInterval
  omega

def Refreshes (cfg : Config) (now : Nat) (owner ignoreTimeout : Bool) (r : HostDBInfo) : Prop :=
  (ignoreTimeout = false ∧ r.isIpStale cfg now = true ∧ owner = true ∧ r.reverseDns = false) ∨
    (r.isIpTimeout now = true ∧ r.serveStaleButRevalidate cfg now = true)

/-- What a lookup does not take for expired. -/
def Served (cfg : Config) (now : Nat) (r : HostDBInfo) : Prop :=
  r.ip = 0 ∨ r.isIpTimeout now = false ∨ r.serveStaleButRevalidate cfg now = true

theorem probe_cases (h : probe cfg md5High now env false entry = p) :
    (p.result = none ∧ (p.entry = entry ∨ p.entry = none)) ∨
    ∃ r r', entry = some r ∧ cfg.enable = true ∧ r.md5High = md5High ∧
      p.entry = some r' ∧ p.result = some r' ∧ Served cfg now r ∧
      (Refreshes cfg now env.owner false r ∧ r' = (r.refreshIp now).hit ∨
        ¬Refreshes cfg now env.owner false r ∧ r' = r.hit) := by
  subst h
  unfold probe
  split_ifs with henable
  · exact .inl ⟨rfl, .inl rfl⟩
  have hon : cfg.enable = true := by simpa using henable
  cases entry with
  | none => exact .inl ⟨rfl, .inl rfl⟩
  | some r =>
    dsimp only
    split_ifs with hmd5 hdeleted hfail htimeout hname hrr hrefresh
    iterate 4 exact .inl ⟨rfl, .inl rfl⟩
    iterate 2 exact .inl ⟨rfl, .inr rfl⟩
    all_goals
      have hserved : Served cfg now r := by
        by_contra hno
        apply htimeout
        simp only [Served, not_or, Bool.not_eq_true, Bool.not_eq_false] at hno
        simp [failed, hno]
    · refine .inr ⟨r, _, rfl, hon, (not_not.1 hmd5).symm, rfl, rfl, hserved, .inl ⟨?_, rfl⟩⟩
      simpa [Refreshes, and_assoc] using hrefresh
    · refine .inr ⟨r, _, rfl, hon, (not_not.1 hmd5).symm, rfl, rfl, hserved, .inr ⟨?_, rfl⟩⟩
      simpa [Refreshes, and_assoc] using hrefresh

structure HostDBInfo.Timed (cfg : Config) (now : Nat) (r : HostDBInfo) : Prop where
  inserted : r.inserted ≤ r.ipTimestamp
  timestamp : r.ipTimestamp ≤ now
  ttl : r.ip ≠ 0 → ∃ ttl < 2 ^ 32, r.ipTimeoutInterval = min (ttlSeconds cfg ttl) hostDBMaxTTL

theorem lookupDone_timed (cfg : Config) (md5High now aip : Nat) (aroundRobin : Bool)
    (httl : ttl < 2 ^ 32) : (lookupDone cfg md5High now aip aroundRobin ttl).Timed cfg now := by
  unfold lookupDone
  split_ifs with hip
  · exact ⟨Nat.le_refl _, Nat.le_refl _, fun h => absurd rfl h⟩
  · refine ⟨Nat.le_refl _, Nat.le_refl _, fun _ => ⟨ttl, httl, ?_⟩⟩
    show (if ttlSeconds cfg ttl > hostDBMaxTTL then hostDBMaxTTL else ttlSeconds cfg ttl) = _
    split_ifs <;> omega

theorem HostDBInfo.Timed.refreshIp (h : r.Timed cfg now) : ((r.refreshIp now).hit).Timed cfg now :=
  ⟨Nat.le_trans h.inserted h.timestamp, Nat.le_refl _, h.ttl⟩

theorem HostDBInfo.Timed.hit (h : r.Timed cfg now) : r.hit.Timed cfg now := ⟨h.1, h.2, h.3⟩

theorem fresh_of_served (h : r.Timed cfg now) (hnow : now < 2 ^ 31) (hip : r.ip ≠ 0)
    (hstamp : r.ipTimestamp = r.inserted) (hserved : Served cfg now r) : Fresh cfg now r := by
  have hinterval := ipInterval_eq h.timestamp hnow
  rw [hstamp] at hinterval
  rcases hserved with h0 | hin | hstale
  · exact absurd h0 hip
  · left
    simpa [isIpTimeout, hinterval] using hin
  · right
    unfold serveStaleButRevalidate at hstale
    split_ifs at hstale with hzero
    refine ⟨by omega, ?_⟩
    have hlt := of_decide_eq_true hstale
    rw [hinterval] at hlt
    exact Nat.lt_of_lt_of_le hlt (Nat.mod_le ..)

end

/-! ### What runs keep -/

namespace Db
variable {cfg : Config} {md5High : Nat} {s s' : Db}

/-- The clock is in range, and all entries of the name have a property that depends on the time. -/
structure Inv (P : Nat → HostDBInfo → Prop) (md5High : Nat) (s : Db) : Prop where
  now : s.now < 2 ^ 31
  entry : ∀ r, s.entry = some r → r.md5High = md5High → P s.now r

/-- A property that a run keeps: it holds of new entries, as time passes, and after a probe. -/
structure Stable (cfg : Config) (md5High : Nat) (P : Nat → HostDBInfo → Prop) : Prop where
  new : ∀ now aip aroundRobin ttl, ttl < 2 ^ 32 → P now (lookupDone cfg md5High now aip aroundRobin ttl)
  tick : ∀ now t r, now ≤ t → P now r → P t r
  deleted : ∀ now r, P now r → P now { r with deleted := true }
  hit : ∀ now r, P now r → P now r.hit
  refresh : ∀ now r owner, now < 2 ^ 31 → Refreshes cfg now owner false r → Served cfg now r → P now r →
    P now (r.refreshIp now).hit

theorem Inv.step (hP : Stable cfg md5High P) (h : s.Inv P md5High)
    (hstep : Step cfg md5High s s') : s'.Inv P md5High := by
  cases hstep with
  | tick t hle hlt => exact ⟨hlt, fun r hr hmd5 => hP.tick _ _ r hle (h.entry r hr hmd5)⟩
  | lookup env =>
    refine ⟨h.now, fun r hr hmd5 => ?_⟩
    rcases probe_cases rfl with
      ⟨-, heq | hnone⟩ | ⟨r0, r', hr0, -, -, heq, -, hserved, ⟨hrefresh, rfl⟩ | ⟨-, rfl⟩⟩
    · exact h.entry r (heq.symm.trans hr) hmd5
    · exact absurd (hnone.symm.trans hr) (some_ne_none r).symm
    · obtain rfl : (r0.refreshIp s.now).hit = r := some.inj (heq.symm.trans hr)
      exact hP.refresh s.now r0 env.owner h.now hrefresh hserved (h.entry r0 hr0 hmd5)
    · obtain rfl : r0.hit = r := some.inj (heq.symm.trans hr)
      exact hP.hit s.now r0 (h.entry r0 hr0 hmd5)
  | dnsEvent env aip aroundRobin ttl _ httl =>
    refine ⟨h.now, fun r hr _ => ?_⟩
    obtain rfl : lookupDone cfg md5High s.now aip aroundRobin ttl = r := some.inj hr
    exact hP.new s.now aip aroundRobin ttl httl
  | timeout _ => exact ⟨h.now, h.entry⟩
  | evict entry hother => exact ⟨h.now, fun r hr hmd5 => absurd hmd5 (hother r hr)⟩
  | setDeleted =>
    refine ⟨h.now, fun r hr hmd5 => ?_⟩
    obtain ⟨r0, hr0, rfl⟩ := map_eq_some_iff.1 hr
    exact hP.deleted s.now r0 (h.entry r0 hr0 hmd5)

theorem Reachable.inv (hP : Stable cfg md5High P) (h : s.Reachable cfg md5High) : s.Inv P md5High := by
  obtain ⟨s0, hinit, hrun⟩ := h
  induction hrun with
  | refl => exact ⟨hinit.now, fun r hr => by rw [hinit.entry] at hr; cases hr⟩
  | tail _ hstep ih => exact ih.step hP hstep

theorem stable_timed (cfg : Config) (md5High : Nat) : Stable cfg md5High fun now r => r.Timed cfg now where
  new now aip aroundRobin _ httl := lookupDone_timed cfg md5High now aip aroundRobin httl
  tick _ _ _ hle h := ⟨h.inserted, Nat.le_trans h.timestamp hle, h.ttl⟩
  deleted _ _ h := ⟨h.inserted, h.timestamp, h.ttl⟩
  hit _ _ h := h.hit
  refresh _ _ _ _ _ _ h := h.refreshIp

end Db

/-! ### The settings that keep addresses from outliving their answers -/

/-- No entry is ever refreshed with an effect, or stale entries may be served for as long as the clock
runs. -/
def Config.NeverExtends (cfg : Config) : Prop :=
  cfg.enable = true → ∀ ttl < 2 ^ 32,
    if cfg.serveStaleButRevalidate = 0 then
      min (ttlSeconds cfg ttl) hostDBMaxTTL < max 2 (2 * cfg.ipStaleInterval)
    else 2 ^ 31 ≤ min (ttlSeconds cfg ttl) hostDBMaxTTL + cfg.serveStaleButRevalidate

/-- Without serving stale entries, the timestamp of an entry is the time of its answer. -/
def Unextended (cfg : Config) (r : HostDBInfo) : Prop :=
  r.ip ≠ 0 → r.ipTimestamp = r.inserted ∧ r.ipTimeoutInterval < max 2 (2 * cfg.ipStaleInterval)

namespace Db
variable {cfg : Config} {md5High : Nat} {s : Db}

theorem stable_unextended (md5High : Nat) (hstale : cfg.serveStaleButRevalidate = 0) (httl : ∀ ttl < 2 ^ 32,
      min (ttlSeconds cfg ttl) hostDBMaxTTL < max 2 (2 * cfg.ipStaleInterval)) :
    Stable cfg md5High fun now r => r.Timed cfg now ∧ Unextended cfg r where
  new now aip aroundRobin ttl hlt := by
    have htimed := lookupDone_timed cfg md5High now aip aroundRobin hlt
    refine ⟨htimed, fun hip => ⟨?_, ?_⟩⟩
    · unfold lookupDone
      split_ifs <;> rfl
    · obtain ⟨ttl', hlt', heq⟩ := htimed.ttl hip
      rw [heq]
      exact httl ttl' hlt'
  tick now t r hle h := ⟨(stable_timed cfg md5High).tick now t r hle h.1, h.2⟩
  deleted _ _ h := ⟨(stable_timed cfg md5High).deleted _ _ h.1, h.2⟩
  hit _ _ h := ⟨h.1.hit, h.2⟩
  refresh now r owner hnow hrefresh hserved h := by
    refine ⟨h.1.refreshIp, fun hip => ?_⟩
    obtain ⟨hstamp, hlt⟩ := h.2 hip
    refine ⟨?_, hlt⟩
    have hno : r.serveStaleButRevalidate cfg now = false := by simp [serveStaleButRevalidate, hstale]
    have hinterval := ipInterval_eq h.1.timestamp hnow
    have htime := h.1.timestamp
    -- it is stale and not timed out, so it is refreshed at the second of its answer
    have hin : r.isIpTimeout now = false := by
      rcases hserved with h0 | h0 | h0
      · exact absurd h0 hip
      · exact h0
      · rw [hno] at h0
        cases h0
    have hst : r.isIpStale cfg now = true := by
      rcases hrefresh with ⟨-, h0, -⟩ | ⟨h0, -⟩
      · exact h0
      · rw [hin] at h0
        cases h0
    unfold isIpStale at hst
    split_ifs at hst with hlong
    have hage := of_decide_eq_true hst
    have hyoung := of_decide_eq_false hin
    show now = r.inserted
    omega

theorem lookup_some (h : (s.lookup cfg md5High env).2 = some r) : ∃ r0, s.entry = some r0 ∧ cfg.enable = true ∧
      r0.md5High = md5High ∧ r.ip = r0.ip ∧ r.inserted = r0.inserted ∧
      r.ipTimeoutInterval = r0.ipTimeoutInterval ∧ Served cfg s.now r0 := by
  rcases probe_cases rfl with ⟨hnone, -⟩ | ⟨r0, r', hr0, hon, hmd5, -, heq, hserved, hr'⟩
  · exact absurd (hnone.symm.trans h) (some_ne_none r).symm
  · obtain rfl : r' = r := some.inj (heq.symm.trans h)
    rcases hr' with ⟨-, rfl⟩ | ⟨-, rfl⟩
    all_goals exact ⟨r0, hr0, hon, hmd5, rfl, rfl, rfl, hserved⟩

theorem fresh_of_unrefreshed (hs : s.Reachable cfg md5High) {r0 : HostDBInfo}
    (hr0 : s.entry = some r0) (hstamp : r0.ipTimestamp = r0.inserted)
    (hr : (s.lookup cfg md5High env).2 = some r) (hip : r.ip ≠ 0) : Fresh cfg s.now r := by
  have hinv := hs.inv (stable_timed cfg md5High)
  obtain ⟨r1, hr1, -, hmd5, hip', hins, httl, hserved⟩ := lookup_some hr
  obtain rfl : r0 = r1 := some.inj (hr0.symm.trans hr1)
  rw [Fresh, hins, httl]
  exact fresh_of_served (hinv.entry r0 hr0 hmd5) hinv.now (hip' ▸ hip) hstamp hserved

theorem fresh_of_neverExtends (hcfg : cfg.NeverExtends) (hs : s.Reachable cfg md5High)
    (hr : (s.lookup cfg md5High env).2 = some r) (hip : r.ip ≠ 0) : Fresh cfg s.now r := by
  obtain ⟨r0, hr0, hon, hmd5, hip', hins, httl, -⟩ := lookup_some hr
  by_cases hstale : cfg.serveStaleButRevalidate = 0
  · have hlt : ∀ ttl < 2 ^ 32, min (ttlSeconds cfg ttl) hostDBMaxTTL < max 2 (2 * cfg.ipStaleInterval) :=
      fun ttl h => by simpa only [hstale, if_true] using hcfg hon ttl h
    have hinv := hs.inv (stable_unextended md5High hstale hlt)
    obtain ⟨-, hun⟩ := hinv.entry r0 hr0 hmd5
    exact fresh_of_unrefreshed hs hr0 (hun (hip' ▸ hip)).1 hr hip
  · have hinv := hs.inv (stable_timed cfg md5High)
    have hnow := hinv.now
    obtain ⟨ttl, hlt, heq⟩ := (hinv.entry r0 hr0 hmd5).ttl (hip' ▸ hip)
    have hbound := hcfg hon ttl hlt
    rw [if_neg hstale, ← heq, ← httl] at hbound
    exact .inr ⟨Nat.pos_of_ne_zero hstale, by omega⟩

/-! ### A run in which an address outlives its answer -/

/-- An entry with one address. -/
structure Plain (md5High : Nat) (r : HostDBInfo) : Prop where
  md5 : r.md5High = md5High
  ip : r.ip ≠ 0
  deleted : r.deleted = false
  roundRobin : r.roundRobin = false
  reverseDns : r.reverseDns = false

theorem lookup_plain (s : Db) (env : Surroundings) (hon : cfg.enable = true)
    (hr : s.entry = some r) (hplain : Plain md5High r) (hserved : Served cfg s.now r) :
    ∃ r', (s.lookup cfg md5High env).2 = some r' ∧ (s.lookup cfg md5High env).1.entry = some r' ∧
      (s.lookup cfg md5High env).1.now = s.now ∧
      Plain md5High r' ∧ r'.inserted = r.inserted ∧ r'.ipTimeoutInterval = r.ipTimeoutInterval ∧
      (Refreshes cfg s.now env.owner false r → r'.ipTimestamp = s.now) := by
  have hgo : (!r.failed && !false && r.isIpTimeout s.now && !r.serveStaleButRevalidate cfg s.now) = false := by
    rcases hserved with h | h | h <;> simp [failed, h]
  have hok : (r.failed && r.isIpFailTimeout cfg s.now) = false := by simp [failed, hplain.ip]
  have hprobe : probe cfg md5High s.now env false (some r) =
      if (!false && r.isIpStale cfg s.now && env.owner && !r.reverseDns) ||
          (r.isIpTimeout s.now && r.serveStaleButRevalidate cfg s.now) then
        ⟨some (r.refreshIp s.now).hit, some (r.refreshIp s.now).hit, true⟩
      else ⟨some r.hit, some r.hit, false⟩ := by
    unfold probe
    rw [if_neg (by simp [hon])]
    dsimp only
    rw [if_neg (by simp [hplain.md5]), if_neg (by simp [hplain.deleted]), if_neg (by simp [hok]),
      if_neg (by rw [hgo]; exact Bool.false_ne_true), if_neg (by simp [hplain.reverseDns]),
      if_neg (by simp [hplain.roundRobin])]
  unfold lookup
  rw [hr, hprobe]
  split_ifs with hrefresh
  · exact ⟨_, rfl, rfl, rfl, ⟨hplain.1, hplain.2, hplain.3, hplain.4, hplain.5⟩, rfl, rfl, fun _ => rfl⟩
  · refine ⟨_, rfl, rfl, rfl, ⟨hplain.1, hplain.2, hplain.3, hplain.4, hplain.5⟩, rfl, rfl, fun h => ?_⟩
    exact absurd (by simpa [Refreshes, and_assoc] using h) hrefresh

/-- An address from an answer at time 0, with the time to live `T`, is served at time `t`. -/
def ServedAt (cfg : Config) (md5High t T : Nat) : Prop :=
  ∃ (s : Db) (env : Surroundings) (r : HostDBInfo), s.Reachable cfg md5High ∧
    (s.lookup cfg md5High env).2 = some r ∧ r.ip ≠ 0 ∧
    s.now = t ∧ r.inserted = 0 ∧ r.ipTimeoutInterval = T

theorem outlives (md5High t1 t2 : Nat) (hon : cfg.enable = true) {T : Nat} (httl : ttl < 2 ^ 32)
    (hT : T = min (ttlSeconds cfg ttl) hostDBMaxTTL) (hle : t1 ≤ t2) (ht2 : t2 < 2 ^ 31)
    (hserved : ∀ r : HostDBInfo, r.ipTimestamp = 0 → r.ipTimeoutInterval = T → r.reverseDns = false →
      Served cfg t1 r ∧ Refreshes cfg t1 true false r)
    (hagain : ∀ r : HostDBInfo, r.ipTimestamp = t1 → r.ipTimeoutInterval = T → Served cfg t2 r) :
    ServedAt cfg md5High t2 T := by
  let env : Surroundings := ⟨true, true, true⟩
  let s0 : Db := ⟨0, none, false⟩
  let s1 : Db := (s0.lookup cfg md5High env).1
  have hs1 : s1 = ⟨0, none, true⟩ := by simp [s1, s0, lookup, probe, hon]
  let s2 : Db := s1.dnsEvent cfg md5High env 1 false ttl
  let r2 : HostDBInfo := { insert md5High 0 (ttlSeconds cfg ttl) with ip := 1, roundRobin := false }
  have hs2 : s2.now = 0 ∧ s2.entry = some r2 := by simp [s2, hs1, dnsEvent, lookupDone, r2]
  have hr2 : Plain md5High r2 := ⟨rfl, by simp [r2], rfl, rfl, rfl⟩
  have hT2 : r2.ipTimeoutInterval = T := by
    show (if ttlSeconds cfg ttl > hostDBMaxTTL then hostDBMaxTTL else ttlSeconds cfg ttl) = T
    split_ifs <;> omega
  let s3 : Db := { s2 with now := t1 }
  obtain ⟨hsrv, hrefresh⟩ := hserved r2 rfl hT2 rfl
  obtain ⟨r4, -, hentry4, hnow4, hr4, hins4, hT4, hstamp⟩ := lookup_plain s3 env hon hs2.2 hr2 hsrv
  let s4 : Db := (s3.lookup cfg md5High env).1
  let s5 : Db := { s4 with now := t2 }
  obtain ⟨r6, hres, -, -, hr6, hins6, hT6, -⟩ := lookup_plain s5 env hon hentry4 hr4
    (hagain r4 (hstamp hrefresh) (hT4.trans hT2))
  refine ⟨s5, env, r6, ⟨s0, ⟨by decide, rfl, rfl⟩, ?_⟩, hres, hr6.ip, rfl, hins6.trans hins4,
    hT6.trans (hT4.trans hT2)⟩
  have hrun1 : ReflTransGen (Step cfg md5High) s0 s1 := .single (.lookup s0 env)
  have hrun2 := hrun1.tail (.dnsEvent s1 env 1 false ttl (by rw [hs1]) httl)
  have hrun3 := hrun2.tail (.tick s2 t1 (by rw [hs2.1]; exact Nat.zero_le _) (by omega))
  have hrun4 := hrun3.tail (.lookup s3 env)
  exact hrun4.tail (.tick s4 t2 (by rw [hnow4]; exact hle) ht2)

theorem ttlSeconds_pos (cfg : Config) (ttl : Nat) : 0 < ttlSeconds cfg ttl := by
  unfold ttlSeconds
  split_ifs with h
  · exact Nat.one_pos
  · exact Nat.pos_of_ne_zero h

theorem isIpTimeout_iff (hle : r.ipTimestamp ≤ now) (hnow : now < 2 ^ 31) :
    r.isIpTimeout now = true ↔ r.ipTimeoutInterval ≤ now - r.ipTimestamp := by
  rw [isIpTimeout, decide_eq_true_iff, ipInterval_eq hle hnow]

theorem serveStale_iff (hle : r.ipTimestamp ≤ now) (hnow : now < 2 ^ 31) (hpos : 0 < cfg.serveStaleButRevalidate)
    (hlt : r.ipTimeoutInterval + cfg.serveStaleButRevalidate < 2 ^ 32) : r.serveStaleButRevalidate cfg now = true ↔
      now - r.ipTimestamp < r.ipTimeoutInterval + cfg.serveStaleButRevalidate := by
  rw [serveStaleButRevalidate, if_neg (by omega), decide_eq_true_iff, ipInterval_eq hle hnow, Nat.mod_eq_of_lt hlt]

theorem outlives_stale (md5High : Nat) (hon : cfg.enable = true) {t : Nat} (httl : ttl < 2 ^ 32)
    (hT : max 2 (2 * cfg.ipStaleInterval) ≤ min (ttlSeconds cfg ttl) hostDBMaxTTL)
    (ht : min (ttlSeconds cfg ttl) hostDBMaxTTL ≤ t)
    (ht' : t < max 1 cfg.ipStaleInterval + min (ttlSeconds cfg ttl) hostDBMaxTTL) :
    ServedAt cfg md5High t (min (ttlSeconds cfg ttl) hostDBMaxTTL) := by
  generalize hTeq : min (ttlSeconds cfg ttl) hostDBMaxTTL = T at *
  have hmax : T ≤ hostDBMaxTTL := by omega
  rw [hostDBMaxTTL] at hmax
  refine outlives md5High (max 1 cfg.ipStaleInterval) t hon httl hTeq.symm (by omega) (by omega)
    (fun r hstamp hrT hrev => ⟨.inr (.inl ?_), .inl ⟨rfl, ?_, rfl, hrev⟩⟩)
    fun r hstamp hrT => .inr (.inl ?_)
  · rw [Bool.eq_false_iff, ne_eq, isIpTimeout_iff (by omega) (by omega)]
    omega
  · have hmod := Nat.mod_le (2 * cfg.ipStaleInterval) (2 ^ 32)
    rw [isIpStale, if_pos (by omega), decide_eq_true_iff, ipInterval_eq (by omega) (by omega)]
    omega
  · rw [Bool.eq_false_iff, ne_eq, isIpTimeout_iff (by omega) (by omega)]
    omega

theorem outlives_serveStale (md5High : Nat) (hon : cfg.enable = true)
    (hpos : cfg.serveStaleButRevalidate ≠ 0) (httl : ttl < 2 ^ 32)
    (hT : min (ttlSeconds cfg ttl) hostDBMaxTTL + cfg.serveStaleButRevalidate < 2 ^ 31) :
    ServedAt cfg md5High (min (ttlSeconds cfg ttl) hostDBMaxTTL + cfg.serveStaleButRevalidate)
      (min (ttlSeconds cfg ttl) hostDBMaxTTL) := by
  have hpos' := ttlSeconds_pos cfg ttl
  have hmax : 0 < hostDBMaxTTL := by decide
  generalize hTeq : min (ttlSeconds cfg ttl) hostDBMaxTTL = T at *
  refine outlives md5High T (T + cfg.serveStaleButRevalidate) hon httl hTeq.symm (by omega) hT
    (fun r hstamp hrT _ => ?_) fun r hstamp hrT => .inr (.inr ?_)
  · have hserve : r.serveStaleButRevalidate cfg T = true := by
      rw [serveStale_iff (by omega) (by omega) (by omega) (by omega)]
      omega
    refine ⟨.inr (.inr hserve), .inr ⟨?_, hserve⟩⟩
    rw [isIpTimeout_iff (by omega) (by omega)]
    omega
  · rw [serveStale_iff (by omega) (by omega) (by omega) (by omega)]
    omega

/-- **When expired addresses are not served**, over all sequences of lookups and answers: exactly under
settings by which no refresh extends an entry. With any settings, an entry is served in its time as
long as no lookup has refreshed it since its answer. -/
theorem expired_not_served_iff (cfg : Config) (md5High : Nat) :
    ((∀ s : Db, s.Reachable cfg md5High → ∀ env r, (s.lookup cfg md5High env).2 = some r → r.ip ≠ 0 →
      Fresh cfg s.now r) ↔ cfg.NeverExtends) ∧
    ∀ s : Db, s.Reachable cfg md5High → ∀ r₀, s.entry = some r₀ → r₀.ipTimestamp = r₀.inserted →
      ∀ env r, (s.lookup cfg md5High env).2 = some r → r.ip ≠ 0 → Fresh cfg s.now r := by
  refine ⟨⟨fun hall => ?_, fun hcfg s hs env r hr hip => fresh_of_neverExtends hcfg hs hr hip⟩,
    fun s hs r₀ hr0 hstamp env r hr hip => fresh_of_unrefreshed hs hr0 hstamp hr hip⟩
  have hfresh {t T : Nat} (h : ServedAt cfg md5High t T) : t < T ∨
      0 < cfg.serveStaleButRevalidate ∧ t < T + cfg.serveStaleButRevalidate := by
    obtain ⟨s, env, r, hs, hr, hip, rfl, hins, rfl⟩ := h
    have h := hall s hs env r hr hip
    rwa [Fresh, hins] at h
  intro hon ttl httl
  by_contra hno
  by_cases hstale : cfg.serveStaleButRevalidate = 0
  · rw [if_pos hstale] at hno
    have := hfresh (outlives_stale md5High hon httl (Nat.not_lt.1 hno) (Nat.le_refl _) (by omega))
    omega
  · rw [if_neg hstale] at hno
    have := hfresh (outlives_serveStale md5High hon hstale httl (Nat.not_le.1 hno))
    omega

def defaultConfig : Config := ⟨true, .obey, 24 * 60 * 60, 12 * 60 * 60, 60 * 60, 0⟩

/-- With them an answer for a day is served almost half a day longer, if it was looked up after half
a day and the refresh brought nothing. -/
theorem day_served_for_longer : ∃ (s : Db) (env : Surroundings) (r : HostDBInfo),
    s.Reachable defaultConfig 0 ∧ (s.lookup defaultConfig 0 env).2 = some r ∧ r.ip ≠ 0 ∧
      s.now = 129599 ∧ r.inserted = 0 ∧ ¬Fresh defaultConfig s.now r := by
  obtain ⟨s, env, r, hs, hr, hip, hnow, hins, hT⟩ : ServedAt defaultConfig 0 129599 _ :=
    outlives_stale 0 rfl (by decide : 86400 < 2 ^ 32) (by decide) (by decide) (by decide)
  refine ⟨s, env, r, hs, hr, hip, hnow, hins, ?_⟩
  rw [Fresh, hnow, hins, hT]
  decide

end Db

end HostDB

end TrafficServer
