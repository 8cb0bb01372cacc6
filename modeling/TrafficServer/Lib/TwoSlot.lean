import Mathlib.Logic.Basic

/-!
# Two slots written in turn

A record is kept in two slots of numbered cells. A new record is written over the slot that does
not have the current one, from the first cell to the last, and a cell near the end is written last:
as long as that cell has an old serial number, the slot does not count.
-/

namespace TwoSlot

variable {α : Type*} {disk : Bool → Nat → α} {c c' : Bool} {off len pos n last : Nat} {x y : α}
  {serial : α → Nat}

def write (disk : Bool → Nat → α) (c : Bool) (off len : Nat) (x : α) : Bool → Nat → α :=
  fun c' k => if c' = c ∧ off ≤ k ∧ k < off + len then x else disk c' k

theorem write_in (h1 : off ≤ pos) (h2 : pos < off + len) : write disk c off len x c pos = x := if_pos ⟨rfl, h1, h2⟩

theorem write_out (h : pos < off ∨ off + len ≤ pos) : write disk c off len x c' pos = disk c' pos :=
  if_neg fun ⟨_, h1, h2⟩ => by omega

theorem write_ne (h : c' ≠ c) : write disk c off len x c' pos = disk c' pos := if_neg fun ⟨hc, _⟩ => h hc

def Upto (disk : Bool → Nat → α) (c : Bool) (pos : Nat) (x : α) : Prop := ∀ k < pos, disk c k = x

theorem Upto.write (h : Upto disk c pos x) (len : Nat) : Upto (write disk c pos len x) c (pos + len) x := by
  intro k hk
  by_cases hpos : pos ≤ k
  · exact write_in hpos hk
  · rw [write_out (.inl (by omega))]
    exact h k (by omega)

theorem Upto.write_ne (h : Upto disk c pos x) (hc : c ≠ c') :
    Upto (TwoSlot.write disk c' off len y) c pos x := fun k hk =>
  (TwoSlot.write_ne hc).trans (h k hk)

/-- Slot `c` is whole, and the cell of the other slot that is written last is older. -/
structure Settled (serial : α → Nat) (n last : Nat) (disk : Bool → Nat → α) (c : Bool) (x : α) :
    Prop where
  whole : Upto disk c n x
  older : serial (disk (!c) last) < serial x

theorem Settled.write (h : Settled serial n last disk c x) (hlast : off + len ≤ last) :
    Settled serial n last (write disk (!c) off len y) c x where
  whole := h.whole.write_ne (by simp)
  older := by
    rw [write_out (.inr hlast)]
    exact h.older

theorem Settled.commit (h : Upto disk c n x) (hlast : last < n) (hnew : Upto disk (!c) n y)
    (hlt : serial x < serial y) : Settled serial n last disk (!c) y where
  whole := hnew
  older := by
    rw [Bool.not_not, h last hlast]
    exact hlt

end TwoSlot
