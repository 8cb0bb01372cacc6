import Mathlib.Algebra.Group.Nat.Defs
import Mathlib.Data.Int.ModEq
import Mathlib.Logic.Function.Iterate
import Mathlib.Tactic.Ring

/-!
# Linear congruential generators of full period

The map `x ↦ a * x + c` modulo a power of two, with `a` one more than a multiple of four and `c`
odd. Its `2 ^ k`-th iterate is again of this kind, with a factor that is one modulo `2 ^ (k + 2)` and
an odd multiple of `2 ^ k` added: modulo `2 ^ (k + 1)` it adds `2 ^ k`. So a value that is right
modulo `2 ^ k` is made right modulo `2 ^ (k + 1)` by doing nothing or by `2 ^ k` steps more, and
every value comes up.
-/

namespace Lcg

open Function

def step (a c x : Int) : Int := a * x + c

variable {a c : Int}

theorem iterate_two_pow (ha : a % 4 = 1) (hc : c % 2 = 1) (k : Nat) : ∃ t s : Int, ∀ x,
    (step a c)^[2 ^ k] x = (1 + 2 ^ (k + 2) * t) * x + 2 ^ k * (2 * s + 1) := by
  induction k with
  | zero =>
    refine ⟨a / 4, c / 2, fun x => ?_⟩
    have ha' : a = 1 + 4 * (a / 4) := by omega
    have hc' : c = 2 * (c / 2) + 1 := by omega
    calc (step a c)^[2 ^ 0] x = a * x + c := rfl
      _ = (1 + 4 * (a / 4)) * x + (2 * (c / 2) + 1) := by rw [← ha', ← hc']
      _ = _ := by ring
  | succ k ih =>
    obtain ⟨t, s, hts⟩ := ih
    refine ⟨t + 2 ^ (k + 1) * t ^ 2, s + 2 ^ k * t * (2 * s + 1), fun x => ?_⟩
    rw [show 2 ^ (k + 1) = 2 ^ k + 2 ^ k by ring, iterate_add_apply, hts, hts]
    ring

theorem exists_iterate_modEq (ha : a % 4 = 1) (hc : c % 2 = 1) (k : Nat) (x y : Int) :
    ∃ n < 2 ^ k, (step a c)^[n] x ≡ y [ZMOD 2 ^ k] := by
  induction k with
  | zero => exact ⟨0, by simp, Int.modEq_one⟩
  | succ k ih =>
    obtain ⟨n, hn, hmod⟩ := ih
    obtain ⟨q, hq⟩ := hmod.dvd
    rcases Int.emod_two_eq_zero_or_one q with heven | hodd
    · refine ⟨n, by omega, ?_⟩
      refine Int.modEq_iff_dvd.2 ⟨q / 2, ?_⟩
      rw [hq, pow_succ, mul_assoc, show 2 * (q / 2) = q by omega]
    · obtain ⟨t, s, hts⟩ := iterate_two_pow ha hc k
      refine ⟨2 ^ k + n, by omega, ?_⟩
      rw [iterate_add_apply, hts]
      generalize (step a c)^[n] x = z at hq
      refine Int.modEq_iff_dvd.2 ⟨q / 2 - 2 * t * z - s, ?_⟩
      calc y - ((1 + 2 ^ (k + 2) * t) * z + 2 ^ k * (2 * s + 1))
          = (y - z) - 2 ^ (k + 1) * (2 * t * z + s) - 2 ^ k := by ring
        _ = 2 ^ k * (2 * (q / 2) + 1) - 2 ^ (k + 1) * (2 * t * z + s) - 2 ^ k := by
          rw [hq, show 2 * (q / 2) + 1 = q by omega]
        _ = 2 ^ (k + 1) * (q / 2 - 2 * t * z - s) := by ring

theorem iterate_emod (a c m x : Nat) (n : Nat) :
    (((fun x => (a * x + c) % m)^[n] (x % m) : Nat) : Int) = (step a c)^[n] x % m := by
  induction n with
  | zero => exact Int.natCast_mod x m
  | succ n ih =>
    rw [iterate_succ_apply', iterate_succ_apply', Int.natCast_mod]
    push_cast
    rw [ih, step, Int.add_emod, Int.mul_emod, Int.emod_emod, ← Int.mul_emod, ← Int.add_emod]

theorem exists_iterate_eq {a c : Nat} (ha : a % 4 = 1) (hc : c % 2 = 1) (k : Nat) {x y : Nat}
    (hx : x < 2 ^ k) (hy : y < 2 ^ k) : ∃ n < 2 ^ k, (fun x => (a * x + c) % 2 ^ k)^[n] x = y := by
  obtain ⟨n, hn, hmod⟩ := exists_iterate_modEq (a := (a : Int)) (c := (c : Int)) (by omega) (by omega) k x y
  refine ⟨n, hn, Int.natCast_inj.1 ?_⟩
  have hrun := iterate_emod a c (2 ^ k) x n
  rw [Nat.mod_eq_of_lt hx] at hrun
  rw [hrun]
  have : ((2 ^ k : Nat) : Int) = 2 ^ k := by push_cast; rfl
  rw [this, hmod, ← this]
  exact Int.emod_eq_of_lt (by omega) (by omega)

end Lcg
