import Mathlib.Algebra.BigOperators.Group.Finset.Piecewise
import Mathlib.Algebra.Order.BigOperators.Group.Finset

/-!
# Counting over the threads of a system

A system of finitely many threads gives every thread a local state. An invariant that counts threads
("as many as hold the resource", "exactly one has the duty") is a sum over all of them. A step changes
the local state of one thread, so the sum moves by what that thread was and is worth.
-/

namespace ThreadWeight

open Finset Function

variable {T α : Type} [Fintype T] (f : α → Nat) (threads : T → α)

/-- The sum of `f` over the local states of all threads. -/
def weight : Nat := ∑ t, f (threads t)

theorem le_weight (t : T) : f (threads t) ≤ weight f threads :=
  single_le_sum (f := fun t => f (threads t)) (fun _ _ => Nat.zero_le _) (mem_univ t)

theorem weight_eq_zero_iff : weight f threads = 0 ↔ ∀ t, f (threads t) = 0 := by simp [weight]

variable [DecidableEq T]

theorem weight_update (t : T) (x : α) :
    weight f (update threads t x) + f (threads t) = weight f threads + f x := by
  have hcomp : (fun u => f (update threads t x u)) = update (fun u => f (threads u)) t (f x) :=
    Function.comp_update f threads t x
  have hmem := mem_univ t
  unfold weight
  rw [hcomp, sum_update_of_mem hmem, sum_eq_add_sum_sdiff_singleton_of_mem hmem fun u => f (threads u)]
  omega

theorem weight_update_of_eq {t : T} {x : α} (h : f x = f (threads t)) :
    weight f (update threads t x) = weight f threads := by
  have hupdate := weight_update f threads t x
  omega

theorem add_le_weight {t u : T} (h : t ≠ u) : f (threads t) + f (threads u) ≤ weight f threads := by
  have hsub : ({t, u} : Finset T) ⊆ univ := subset_univ _
  have hsum := sum_le_sum_of_subset (f := fun t => f (threads t)) hsub
  rwa [sum_pair h] at hsum

end ThreadWeight
