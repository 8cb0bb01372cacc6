import Mathlib.Data.List.Basic

/-!
# Transducers

A machine that reads its input from left to right and emits some output at each symbol. Reading in
two pieces is the same as reading in one (`run_append`), so what a machine computes depends on the
cuts of its input only if something happens to its state between the pieces.
-/

namespace Transducer

variable {σ α β : Type*} {step : σ → α → σ × List β} {s s' : σ} {a : α} {l l' : List α} {o : List β}

def run (step : σ → α → σ × List β) : σ → List α → σ × List β
  | s, [] => (s, [])
  | s, a :: l => ((run step (step s a).1 l).1, (step s a).2 ++ (run step (step s a).1 l).2)

@[simp] theorem run_nil : run step s [] = (s, []) := rfl

theorem run_cons_of_quiet (h : step s a = (s', [])) : run step s (a :: l) = run step s' l := by
  rw [run, h]
  rfl

theorem run_cons_of_emit (h : step s a = (s', o)) :
    run step s (a :: l) = ((run step s' l).1, o ++ (run step s' l).2) := by
  rw [run, h]

theorem run_congr (h : step s a = step s' a) : run step s (a :: l) = run step s' (a :: l) := by rw [run, run, h]

theorem run_append (s : σ) (l l' : List α) : run step s (l ++ l') =
      ((run step (run step s l).1 l').1, (run step s l).2 ++ (run step (run step s l).1 l').2) := by
  induction l generalizing s with
  | nil => rfl
  | cons a l ih =>
    rw [List.cons_append, run, ih]
    simp only [run, List.append_assoc]

end Transducer
