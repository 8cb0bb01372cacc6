import Mathlib.Algebra.Group.Nat.Defs
import Mathlib.Order.Basic
import Mathlib.Tactic.SplitIfs
import TrafficServer.Lib.CInt

/-!
# The choice of an address of a round robin record

`select_best_http` runs through the entries with two running maxima of a hash, one over all of them and one over
those that are up. What the second one ends with is the greatest hash of an entry that is up (`selectLoop_spec`),
so the choice does not depend on the order of the entries. In strict mode they are taken in turn, up or not.
-/

namespace TrafficServer.HostDB

open CInt List Option

def hostDBMaxRoundRobinInfo : Nat := 16

def hostdbClientIpHash (clientIp ip : UInt32) : Nat :=
  (((clientIp >>> 16) ^^^ clientIp ^^^ ip ^^^ (ip >>> 16)) &&& 0xFFFF).toNat

/-- The fields of a `HostDBInfo` that the choice reads. -/
structure RRInfo where
  ip : UInt32
  lastFailure : UInt32
deriving DecidableEq

def RRInfo.hash (clientIp : UInt32) (e : RRInfo) : Nat := hostdbClientIpHash clientIp e.ip

structure HostDBRoundRobin where
  n : Int
  good : Int
  current : UInt16
  info : List RRInfo

section Loop
variable (clientIp : UInt32) (now failWindow : Int)

/-- The entry is marked up; `now - fail_window` is converted to `unsigned int`. -/
def RRInfo.isUp (e : RRInfo) : Bool :=
  e.lastFailure = 0 || (e.lastFailure.toNat : Int) < (now - failWindow) % 2 ^ 32

/-- An entry that is down for too long because of a skewed clock is up the next time. -/
def RRInfo.repair (e : RRInfo) : RRInfo :=
  if !e.isUp now failWindow && now + failWindow < toInt32 e.lastFailure.toNat then { e with lastFailure := 0 }
  else e

/-- The loop from entry `i` on. `any` and `up` are the best entries so far with their hashes; `best_up` is -1 as
long as there is none. -/
def selectLoop : Nat → List RRInfo → Nat × Nat → Option Nat × Nat → Nat × Option Nat × List RRInfo
  | _, [], any, up => (any.1, up.1, [])
  | i, e :: es, any, up =>
    let h := e.hash clientIp
    let (bestAny, bestUp, es) := selectLoop (i + 1) es (if any.2 ≤ h then (i, h) else any)
      (if e.isUp now failWindow ∧ up.2 ≤ h then (some i, h) else up)
    (bestAny, bestUp, e.repair now failWindow :: es)

/-- The index of the entry and the record after the call; `none` is the null pointer. -/
def selectBestHttp (strict : Bool) (rr : HostDBRoundRobin) : Option (Nat × HostDBRoundRobin) :=
  if rr.n ≤ 0 ∨ rr.n > hostDBMaxRoundRobinInfo ∨ rr.good ≤ 0 ∨ rr.good > hostDBMaxRoundRobinInfo then none
  else if strict then some (rr.current.toNat % rr.good.toNat, { rr with current := rr.current + 1 })
  else
    let (bestAny, bestUp, es) :=
      selectLoop clientIp now failWindow 0 (rr.info.take rr.good.toNat) (0, 0) (none, 0)
    some (bestUp.getD bestAny, { rr with info := es ++ rr.info.drop rr.good.toNat })

/-- The entry has never failed, or it failed before the window. -/
def RRInfo.Usable (e : RRInfo) : Prop :=
  e.lastFailure = 0 ∨ (e.lastFailure.toNat : Int) < now - failWindow
deriving Decidable

namespace HostDBRoundRobin

def first (rr : HostDBRoundRobin) : List RRInfo := rr.info.take rr.good.toNat

/-- The sizes of a record, and a time and a window whose difference is an `unsigned int`. -/
structure Admissible (rr : HostDBRoundRobin) : Prop where
  good_pos : 1 ≤ rr.good
  good_le : rr.good ≤ rr.n
  n_le : rr.n ≤ hostDBMaxRoundRobinInfo
  length : rr.info.length = hostDBMaxRoundRobinInfo
  window : 0 ≤ failWindow ∧ failWindow ≤ now ∧ now - failWindow < 2 ^ 32

def UsableIp (rr : HostDBRoundRobin) (ip : UInt32) : Prop :=
  ∃ e ∈ rr.first, e.Usable now failWindow ∧ e.ip = ip

def chosenIp (rr : HostDBRoundRobin) : Option UInt32 :=
  (selectBestHttp clientIp now failWindow false rr).bind fun r => (rr.first[r.1]?).map (·.ip)

end HostDBRoundRobin

end Loop

section Choice
variable {now failWindow : Int} {rr : HostDBRoundRobin} {e : RRInfo}

theorem selectLoop_spec (clientIp : UInt32) (now failWindow : Int) (es : List RRInfo) (i : Nat)
    (any : Nat × Nat) (up : Option Nat × Nat) (hany : any.1 < i + es.length) :
    ∃ bestAny bestUp, bestAny < i + es.length ∧
      selectLoop clientIp now failWindow i es any up = (bestAny, bestUp, es.map (·.repair now failWindow)) ∧
      (bestUp = up.1 ∧ (∀ e ∈ es, e.isUp now failWindow → e.hash clientIp < up.2) ∨
        ∃ k e, bestUp = some (i + k) ∧ es[k]? = some e ∧ e.isUp now failWindow ∧
          up.2 ≤ e.hash clientIp ∧ ∀ e' ∈ es, e'.isUp now failWindow → e'.hash clientIp ≤ e.hash clientIp) := by
  induction es generalizing i any up with
  | nil => exact ⟨any.1, up.1, hany, rfl, .inl ⟨rfl, by simp⟩⟩
  | cons e es ih =>
    rw [selectLoop, length_cons] at *
    obtain ⟨bestAny, bestUp, hlt, heq, hbest⟩ := ih (i + 1)
      (if any.2 ≤ e.hash clientIp then (i, e.hash clientIp) else any)
      (if e.isUp now failWindow ∧ up.2 ≤ e.hash clientIp then
        (some i, e.hash clientIp) else up)
      (by
        split
        · dsimp only
          omega
        · omega)
    refine ⟨bestAny, bestUp, by omega, by rw [heq]; rfl, ?_⟩
    simp only [forall_mem_cons]
    have hshift : ∀ k, i + 1 + k = i + (k + 1) := fun k => by omega
    split_ifs at hbest with h
    · rcases hbest with ⟨rfl, hless⟩ | ⟨k, x, rfl, hk, hx, hle, hmax⟩
      · exact .inr ⟨0, e, rfl, rfl, h.1, h.2, fun _ => le_rfl, fun x hx hu => (hless x hx hu).le⟩
      · exact .inr ⟨k + 1, x, hshift k ▸ rfl, hk, hx, h.2.trans hle, fun _ => hle, hmax⟩
    · have hnot := fun hu => not_le.mp fun hle => h ⟨hu, hle⟩
      rcases hbest with ⟨rfl, hless⟩ | ⟨k, x, rfl, hk, hx, hle, hmax⟩
      · exact .inl ⟨rfl, hnot, hless⟩
      · exact .inr ⟨k + 1, x, hshift k ▸ rfl, hk, hx, hle, fun hu => (hnot hu).le.trans hle, hmax⟩

theorem RRInfo.isUp_iff (h0 : 0 ≤ now - failWindow) (h1 : now - failWindow < 2 ^ 32) :
    e.isUp now failWindow = true ↔ e.Usable now failWindow := by
  rw [isUp, Usable, Int.emod_eq_of_lt h0 h1, Bool.or_eq_true, decide_eq_true_iff, decide_eq_true_iff]

namespace HostDBRoundRobin

theorem Admissible.size_ok (h : rr.Admissible now failWindow) : ¬(rr.n ≤ 0 ∨ rr.n > hostDBMaxRoundRobinInfo ∨
    rr.good ≤ 0 ∨ rr.good > hostDBMaxRoundRobinInfo) := by
  have := h.good_pos
  have := h.good_le
  have := h.n_le
  omega

theorem Admissible.length_first (h : rr.Admissible now failWindow) : rr.first.length = rr.good.toNat := by
  have := h.good_le
  have := h.n_le
  rw [first, length_take, h.length]
  omega

theorem Admissible.select (h : rr.Admissible now failWindow) (clientIp : UInt32) :
    ∃ i e rr', selectBestHttp clientIp now failWindow false rr = some (i, rr') ∧ rr.first[i]? = some e ∧
      rr'.first = rr.first.map (·.repair now failWindow) ∧
      ((∃ e' ∈ rr.first, e'.Usable now failWindow) → e.Usable now failWindow ∧ ∀ e' ∈ rr.first,
        e'.Usable now failWindow → e'.hash clientIp ≤ e.hash clientIp) := by
  have hup : ∀ e : RRInfo, e.isUp now failWindow = true ↔ e.Usable now failWindow := fun e =>
    RRInfo.isUp_iff (sub_nonneg.mpr h.window.2.1) h.window.2.2
  have hlen := h.length_first
  have hpos := h.good_pos
  obtain ⟨bestAny, bestUp, hany, heq, hbest⟩ := selectLoop_spec clientIp now failWindow
    rr.first 0 (0, 0) (none, 0) (by dsimp only; omega)
  rw [selectBestHttp, if_neg h.size_ok, if_neg Bool.false_ne_true, ← first, heq]
  have hinfo : (rr.first.map (·.repair now failWindow) ++ rr.info.drop rr.good.toNat).take rr.good.toNat = _ :=
    take_left' (by rw [length_map, hlen])
  rcases hbest with ⟨rfl, hno⟩ | ⟨k, e, rfl, hk, hu, -, hmax⟩
  · obtain ⟨e, he⟩ : ∃ e, rr.first[bestAny]? = some e := ⟨_, getElem?_eq_getElem (by omega)⟩
    refine ⟨_, e, _, rfl, he, hinfo, fun ⟨x, hx, hu⟩ => ?_⟩
    exact absurd (hno x hx ((hup x).mpr hu)) (Nat.not_lt_zero _)
  · refine ⟨_, e, _, rfl, by rw [Nat.zero_add]; exact hk, hinfo, fun _ => ⟨(hup e).mp hu, fun x hx hx' => ?_⟩⟩
    exact hmax x hx ((hup x).mpr hx')

theorem Admissible.repair (h : rr.Admissible now failWindow) (hsmall : e.lastFailure.toNat < 2 ^ 31)
    (hfuture : now + failWindow < e.lastFailure.toNat) : e.repair now failWindow = { e with lastFailure := 0 } := by
  obtain ⟨h0, hle, hlt⟩ := h.window
  have hdown : e.isUp now failWindow = false := by
    rw [Bool.eq_false_iff, ne_eq, RRInfo.isUp_iff (by omega) hlt]
    rintro (hzero | hlt)
    · rw [hzero] at hfuture
      simp at hfuture
      omega
    · omega
  rw [RRInfo.repair, hdown, toInt32_of_mem (by omega) (by omega)]
  simp [hfuture]

/-- **The choice is right without strict mode**: a usable entry is returned if there is one, it depends on
the client and on the set of usable addresses only, and an entry that failed too far in the future, at a
time that is an `int`, is up from then on. In strict mode the entries are taken in turn. -/
theorem select_best_http_usable (rr : HostDBRoundRobin) (clientIp : UInt32) (now failWindow : Int)
    (h : rr.Admissible now failWindow) :
    (∃ i e rr', selectBestHttp clientIp now failWindow false rr = some (i, rr') ∧ rr.first[i]? = some e ∧
      ((∃ e' ∈ rr.first, e'.Usable now failWindow) → e.Usable now failWindow) ∧
      ∀ (j : Nat) (x : RRInfo), rr.first[j]? = some x → x.lastFailure.toNat < 2 ^ 31 →
        now + failWindow < x.lastFailure.toNat →
        ∃ y : RRInfo, rr'.first[j]? = some y ∧ y.ip = x.ip ∧ ∀ now' failWindow', y.isUp now' failWindow' = true) ∧
    (∀ rr' : HostDBRoundRobin, rr'.Admissible now failWindow → (∃ ip, rr.UsableIp now failWindow ip) →
      (∀ ip, rr'.UsableIp now failWindow ip ↔ rr.UsableIp now failWindow ip) →
      (∀ ip ip', rr.UsableIp now failWindow ip → rr.UsableIp now failWindow ip' →
        hostdbClientIpHash clientIp ip = hostdbClientIpHash clientIp ip' → ip = ip') →
      rr'.chosenIp clientIp now failWindow = rr.chosenIp clientIp now failWindow) ∧
    selectBestHttp clientIp now failWindow true rr =
      some (rr.current.toNat % rr.good.toNat, { rr with current := rr.current + 1 }) := by
  obtain ⟨i, e, s, hsel, hi, hinfo, hbest⟩ := h.select clientIp
  refine ⟨⟨i, e, s, hsel, hi, fun hu => (hbest hu).1, fun j x hj hsmall hx => ?_⟩,
    fun rr' h' hsome hsame hinj => ?_, ?_⟩
  · refine ⟨{ x with lastFailure := 0 }, ?_, rfl, fun _ _ => rfl⟩
    rw [hinfo, getElem?_map, hj, map_some, h.repair hsmall hx]
  · obtain ⟨i', e', s', hsel', hi', -, hbest'⟩ := h'.select clientIp
    obtain ⟨ip, hip⟩ := hsome
    obtain ⟨x', hx', hu', -⟩ := (hsame ip).mpr hip
    obtain ⟨x, hx, hu, -⟩ := hip
    obtain ⟨hue, hmax⟩ := hbest ⟨x, hx, hu⟩
    obtain ⟨hue', hmax'⟩ := hbest' ⟨x', hx', hu'⟩
    have hmem : rr.UsableIp now failWindow e.ip := ⟨e, mem_of_getElem? hi, hue, rfl⟩
    have hmem' : rr.UsableIp now failWindow e'.ip := (hsame _).mp ⟨e', mem_of_getElem? hi', hue', rfl⟩
    have ⟨a, ha, hua, heqa⟩ := hmem'
    obtain ⟨b, hb, hub, heqb⟩ := (hsame _).mpr hmem
    have heq : e'.ip = e.ip := hinj _ _ hmem' hmem
      (le_antisymm (heqa ▸ hmax a ha hua) (heqb ▸ hmax' b hb hub))
    rw [chosenIp, chosenIp, hsel, hsel', bind_some, bind_some, hi, hi', map_some, map_some, heq]
  · rw [selectBestHttp, if_neg h.size_ok, if_pos rfl]

def twoAddresses : HostDBRoundRobin := ⟨2, 2, 0, ⟨1, 95⟩ :: List.replicate 15 ⟨2, 0⟩⟩

/-- An address that is up, one that has failed, and two that failed in the future, one of them at a time
that is no `int`. -/
def fourAddresses : HostDBRoundRobin :=
  ⟨4, 4, 0, ⟨1, 3⟩ :: ⟨2, 95⟩ :: ⟨3, 2147483648⟩ :: List.replicate 13 ⟨4, 111⟩⟩

theorem select_best_http_usable_four : ∃ i e rr' y, selectBestHttp 7 100 10 false fourAddresses = some (i, rr') ∧
    fourAddresses.first[i]? = some e ∧ e.Usable 100 10 ∧ rr'.first[3]? = some y ∧ y.isUp 100 10 = true := by
  obtain ⟨⟨i, e, rr', hsel, he, hu, hskew⟩, -⟩ := select_best_http_usable fourAddresses 7 100 10
    ⟨by decide, by decide, by decide, rfl, by decide⟩
  obtain ⟨y, hy, -, hup⟩ := hskew 3 ⟨4, 111⟩ rfl (by decide) (by decide)
  exact ⟨i, e, rr', y, hsel, he, hu ⟨⟨1, 3⟩, by decide, by decide⟩, hy, hup 100 10⟩

theorem strict_returns_failed : ∃ rr', selectBestHttp 7 100 10 true twoAddresses = some (0, rr') ∧
    (∃ e, twoAddresses.first[0]? = some e ∧ ¬e.Usable 100 10) ∧ ∃ e ∈ twoAddresses.first, e.Usable 100 10 :=
  ⟨_, rfl, ⟨⟨1, 95⟩, rfl, by decide⟩, ⟨2, 0⟩, by decide, by decide⟩

end HostDBRoundRobin

end Choice

end TrafficServer.HostDB
