import Mathlib.Data.List.Basic

/-!
# Stream decoders

A machine that reads a stream symbol by symbol until it stops, and leaves what comes after that
unread. What it does to a stream does not depend on how the stream is cut (`decode_append`).
-/

namespace StreamDecoder

variable {σ α : Type*} {feed : σ → α → σ} {stopped : σ → Bool}

def decode (feed : σ → α → σ) (stopped : σ → Bool) : σ → List α → σ × List α
  | s, [] => (s, [])
  | s, a :: l => if stopped s then (s, a :: l) else decode feed stopped (feed s a) l

@[simp] theorem decode_nil (s : σ) : decode feed stopped s [] = (s, []) := rfl

variable {s : σ}

theorem decode_cons (h : stopped s = false) (a : α) (l : List α) :
    decode feed stopped s (a :: l) = decode feed stopped (feed s a) l := by
  rw [decode, if_neg (by simp [h])]

theorem decode_of_stopped (h : stopped s = true) (l : List α) : decode feed stopped s l = (s, l) := by
  cases l with
  | nil => rfl
  | cons a l => rw [decode, if_pos h]

theorem decode_append (s : σ) (l l' : List α) : decode feed stopped s (l ++ l') =
      decode feed stopped (decode feed stopped s l).1 ((decode feed stopped s l).2 ++ l') := by
  induction l generalizing s with
  | nil => rfl
  | cons a l ih =>
    cases h : stopped s with
    | true => rw [decode_of_stopped h (a :: l)]
    | false => rw [List.cons_append, decode_cons h, decode_cons h, ih]

theorem stopped_of_left {l : List α} (h : (decode feed stopped s l).2 ≠ []) :
    stopped (decode feed stopped s l).1 = true := by
  induction l generalizing s with
  | nil => exact absurd rfl h
  | cons a l ih =>
    cases hs : stopped s with
    | true => rw [decode_of_stopped hs]; exact hs
    | false =>
      rw [decode_cons hs] at h ⊢
      exact ih h

theorem decode_induction {P : σ → Prop} (hstep : ∀ s a, P s → P (feed s a)) (hs : P s)
    (l : List α) : P (decode feed stopped s l).1 := by
  induction l generalizing s with
  | nil => exact hs
  | cons a l ih =>
    cases h : stopped s with
    | true => rw [decode_of_stopped h]; exact hs
    | false =>
      rw [decode_cons h]
      exact ih (hstep s a hs)

end StreamDecoder
