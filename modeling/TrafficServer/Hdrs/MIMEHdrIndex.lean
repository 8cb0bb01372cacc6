import TrafficServer.Hdrs.MIMEHdr
import Mathlib.Tactic.Linarith

/-!
# Addresses and slot accelerators

Slot numbers are recovered from addresses as long as the blocks are apart from each other and not
too far. The accelerators of different slot ids do not disturb each other.
-/

namespace TrafficServer.MIMEHdr

open List BitVec Function

/-! ### Addresses -/

/-- The blocks do not overlap, and the distance of two of them is an `int`. -/
def Apart (blocks : List Nat) : Prop :=
  blocks.Pairwise fun a b =>
    (a + sizeofBlock ≤ b ∨ b + sizeofBlock ≤ a) ∧ a < b + 2 ^ 31 ∧ b < a + 2 ^ 31
deriving Decidable

section Addresses
variable {blocks : List Nat} {b c n k r : Nat}

theorem blockSlot_self (hr : r < 16) : blockSlot (b + slotsOffset + sizeofField * r) b = r := by
  have h : ((b + slotsOffset + sizeofField * r : Nat) : Int) - (b + slotsOffset : Nat) = r * sizeofField := by
    push_cast
    ring
  rw [blockSlot, h, Int.mul_ediv_cancel _ (by decide), CInt.toInt32_of_mem (by omega) (by omega)]

theorem blockSlot_other (hr : r < 16)
    (h : (b + sizeofBlock ≤ c ∨ c + sizeofBlock ≤ b) ∧ b < c + 2 ^ 31 ∧ c < b + 2 ^ 31) :
    ¬ (0 ≤ blockSlot (c + slotsOffset + sizeofField * r) b ∧
      blockSlot (c + slotsOffset + sizeofField * r) b < fieldBlockSlots) := by
  generalize hd : ((c + slotsOffset + sizeofField * r : Nat) : Int) - (b + slotsOffset : Nat) = d
  simp only [sizeofBlock, slotsOffset, sizeofField, fieldBlockSlots] at *
  rw [blockSlot]
  simp only [slotsOffset, sizeofField]
  rw [hd, CInt.toInt32_of_mem (by omega) (by omega)]
  omega

theorem slotnumLoop_eq (hap : Apart blocks) {j : Nat} (hj : j < blocks.length) (hr : r < 16) :
    slotnumLoop (blocks.getD j 0 + slotsOffset + sizeofField * r) blocks k = k + (16 * j + r) := by
  induction blocks generalizing j k with
  | nil => simp at hj
  | cons b blocks ih =>
    obtain ⟨hb, hap⟩ := pairwise_cons.mp hap
    rw [slotnumLoop]
    cases j with
    | zero =>
      rw [getD_cons_zero, blockSlot_self hr, if_pos ⟨by omega, by simp [fieldBlockSlots]; omega⟩]
      simp
    | succ j =>
      have hj' : j < blocks.length := by simpa using hj
      have hmem : blocks.getD j 0 ∈ blocks := by
        rw [getD_eq_getElem _ _ hj']
        exact getElem_mem hj'
      have hk : (k : Int) + fieldBlockSlots = (k + 16 : Nat) := by simp [fieldBlockSlots]
      rw [getD_cons_succ, if_neg (blockSlot_other hr (hb _ hmem)), hk, ih hap hj']
      push_cast
      ring

theorem slotnum_eq (hap : Apart blocks) (hn : n < 16 * blocks.length) :
    slotnumLoop (fieldAddr blocks n) blocks 0 = n := by
  have h := slotnumLoop_eq (k := 0) hap (show n / 16 < blocks.length by omega) (show n % 16 < 16 by omega)
  rw [fieldAddr]
  simp only [fieldBlockSlots]
  rw [Nat.cast_zero] at h
  rw [h]
  omega

theorem fieldAddr_inj (hap : Apart blocks) {m : Nat} (hn : n < 16 * blocks.length)
    (hm : m < 16 * blocks.length) (h : fieldAddr blocks n = fieldAddr blocks m) : n = m := by
  have hn' := slotnum_eq hap hn
  rw [h, slotnum_eq hap hm] at hn'
  omega

theorem acceleratorOf_eq {h : MIMEHdr} (hap : Apart h.blocks) (hn : n < 16 * h.blocks.length) :
    h.acceleratorOf n = if n < 14 then n else 14 := by
  obtain ⟨b, bs, hb⟩ : ∃ b bs, h.blocks = b :: bs := by
    cases hb : h.blocks with
    | nil => simp [hb] at hn
    | cons b bs => exact ⟨b, bs, rfl⟩
  rw [hb] at hap hn
  rw [acceleratorOf, hb, fieldAddr]
  simp only [getD_cons_zero, fieldBlockSlots, fieldSlotnumUnknown, fieldSlotnumMax]
  rcases lt_or_ge n 16 with hlt | hge
  · rw [Nat.div_eq_of_lt hlt, Nat.mod_eq_of_lt hlt, getD_cons_zero, blockSlot_self hlt]
    by_cases h14 : n < 14
    · rw [if_pos ⟨by omega, by omega⟩, if_pos h14, Int.toNat_natCast]
    · rw [if_neg (by omega), if_neg h14]
  · obtain ⟨j, hj⟩ : ∃ j, n / 16 = j + 1 := ⟨n / 16 - 1, by omega⟩
    have hj' : j < bs.length := by simp at hn; omega
    have hmem : bs.getD j 0 ∈ bs := by
      rw [getD_eq_getElem _ _ hj']
      exact getElem_mem hj'
    have hother := blockSlot_other (r := n % 16) (by omega) ((pairwise_cons.mp hap).1 _ hmem)
    simp only [fieldBlockSlots] at hother
    rw [hj, getD_cons_succ, if_neg (by omega), if_neg (by omega)]

end Addresses

/-! ### Accelerators -/

section Accelerators
variable {h : MIMEHdr} {s t v : Nat}

theorem testBit_fifteen (i : Nat) : Nat.testBit 15 i = decide (i < 4) := by
  have h := Nat.testBit_two_pow_sub_one 4 i
  exact h

theorem nybble_set (w : BitVec 32) {a b : Nat} (hb : b < 8) (hv : v < 16) :
    ((w &&& ~~~(15#32 <<< (a * 4)) ||| BitVec.ofNat 32 v <<< (a * 4)) >>> (b * 4) &&& 15#32) =
      if a = b then BitVec.ofNat 32 v else w >>> (b * 4) &&& 15#32 := by
  have hhigh (i : Nat) (hi : 4 ≤ i) : v.testBit i = false := by
    refine Nat.testBit_eq_false_of_lt (lt_of_lt_of_le hv ?_)
    calc 16 = 2 ^ 4 := rfl
      _ ≤ 2 ^ i := Nat.pow_le_pow_right (by omega) hi
  refine eq_of_getLsbD_eq fun i hi => ?_
  by_cases hab : a = b
  · subst hab
    simp only [getLsbD_and, getLsbD_or, getLsbD_ushiftRight,
      getLsbD_shiftLeft, getLsbD_not, getLsbD_ofNat, testBit_fifteen, if_true]
    rcases lt_or_ge i 4 with h4 | h4
    · have h1 : a * 4 + i < 32 := by omega
      simp [h4, h1, hi]
    · simp [not_lt.mpr h4, hhigh i h4]
  · simp only [BitVec.getLsbD_and, BitVec.getLsbD_or, BitVec.getLsbD_ushiftRight,
      BitVec.getLsbD_shiftLeft, BitVec.getLsbD_not, BitVec.getLsbD_ofNat, testBit_fifteen, if_neg hab]
    rcases lt_or_ge i 4 with h4 | h4
    · have h1 : b * 4 + i < 32 := by omega
      rcases lt_or_ge (b * 4 + i) (a * 4) with h5 | h5
      · simp [h4, h1, h5]
      · have h6 : 4 ≤ b * 4 + i - a * 4 := by omega
        simp [h4, h1, not_lt.mpr h5, hhigh _ h6, not_lt.mpr h6]
    · simp [not_lt.mpr h4]

theorem getAcceleratorSlotnum_set (hs : s < 32) (ht : t < 32) (hv : v < 16) :
    (h.setAcceleratorSlotnum s v).getAcceleratorSlotnum t = if s = t then v else h.getAcceleratorSlotnum t := by
  rw [getAcceleratorSlotnum, setAcceleratorSlotnum]
  dsimp only
  by_cases hword : t / 8 = s / 8
  · rw [hword, update_self, nybble_set _ (by omega) hv]
    by_cases hst : s = t
    · subst hst
      simp only [if_true, toNat_ofNat]
      omega
    · rw [if_neg (by omega), if_neg hst, getAcceleratorSlotnum, hword]
  · have hne : Fin.ofNat 4 (t / 8) ≠ Fin.ofNat 4 (s / 8) := by
      simp only [Fin.ofNat, ne_eq, Fin.mk.injEq]
      omega
    rw [update_of_ne hne, if_neg (by rintro rfl; exact hword rfl), getAcceleratorSlotnum]

end Accelerators

end TrafficServer.MIMEHdr
