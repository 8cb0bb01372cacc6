import Mathlib.Tactic.Ring

/-!
# Conversions to machine integers

`toInt32` is what a conversion to a 32-bit `int` makes of a number. Sums and products may be
converted once, at their end.
-/

namespace CInt

/-- The conversion to a 32-bit `int`. -/
def toInt32 (x : Int) : Int := (x + 2 ^ 31) % 2 ^ 32 - 2 ^ 31

variable {x : Int}

theorem toInt32_of_mem (h1 : -2 ^ 31 ≤ x) (h2 : x < 2 ^ 31) : toInt32 x = x := by
  unfold toInt32
  omega

theorem toInt32_lt (x : Int) : toInt32 x < 2 ^ 31 := by
  unfold toInt32
  omega

theorem le_toInt32 (x : Int) : -2 ^ 31 ≤ toInt32 x := by
  unfold toInt32
  omega

theorem toInt32_le (h : 0 ≤ x) : toInt32 x ≤ x := by
  unfold toInt32
  omega

@[simp] theorem toInt32_toInt32 (x : Int) : toInt32 (toInt32 x) = toInt32 x :=
  toInt32_of_mem (le_toInt32 x) (toInt32_lt x)

@[simp] theorem toInt32_toInt32_add (x y : Int) : toInt32 (toInt32 x + y) = toInt32 (x + y) := by
  unfold toInt32
  omega

theorem toInt32_toInt32_mul (x y : Int) : toInt32 (toInt32 x * y) = toInt32 (x * y) := by
  unfold toInt32
  rw [show ((x + 2 ^ 31) % 2 ^ 32 - 2 ^ 31) * y + 2 ^ 31 = x * y + 2 ^ 31 + 2 ^ 32 * (-((x + 2 ^ 31) / 2 ^ 32) * y) by
      rw [Int.emod_def]; ring, Int.add_mul_emod_self_left]

theorem foldl_toInt32_add {α : Type*} {f : α → Int} {l : List α} (hx : toInt32 x = x) :
    l.foldl (fun s a => toInt32 (s + f a)) x = toInt32 (x + (l.map f).sum) := by
  induction l generalizing x with
  | nil => simp [hx]
  | cons a l ih =>
    rw [List.foldl_cons, ih (toInt32_toInt32 _), toInt32_toInt32_add, List.map_cons, List.sum_cons, add_assoc]

instance neZero_four : NeZero (4 : Nat) := ⟨by decide⟩

end CInt
