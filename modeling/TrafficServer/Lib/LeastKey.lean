import Mathlib.Data.List.MinMax
import Mathlib.Data.List.Nodup

/-!
# Slots that keep the entry with the least key

A run over a list of entries updates a state. A slot of the state is a value together with the key of
the entry it is from, or `-1` if there is none yet; an entry writes the slot if the slot is unset or has
a greater key. After a run the slot has the entry with the least key (`Slot.Kept.run`), so for different
keys it does not depend on the order of the entries (`Slot.Kept.perm`).
-/

namespace LeastKey

open List

variable {ρ α β : Type*} {key : α → ℕ} {step : ρ → α → ρ} {P : α → Prop}

variable {l l' : List α}

theorem argmin_perm (h : l.Perm l') (hkey : (l.map key).Nodup) : l.argmin key = l'.argmin key := by
  cases hl : l.argmin key with
  | none =>
    have hnil : l = [] := argmin_eq_none.mp hl
    rw [hnil, nil_perm] at h
    rw [h, argmin_nil]
  | some a =>
    cases hl' : l'.argmin key with
    | none =>
      rw [argmin_eq_none.mp hl', perm_nil] at h
      rw [h, argmin_nil] at hl
      cases hl
    | some b =>
      have ha : a ∈ l := argmin_mem hl
      have hb : b ∈ l := h.mem_iff.mpr (argmin_mem hl')
      have hab : key a ≤ key b := le_of_mem_argmin hb hl
      have hba : key b ≤ key a := le_of_mem_argmin (h.mem_iff.mp ha) hl'
      rw [inj_on_of_nodup_map hkey ha hb (le_antisymm hab hba)]

theorem exists_least (key : α → ℕ) {p : α → Bool} (h : ∃ a ∈ l, p a = true) :
    ∃ m ∈ l, p m = true ∧ ∀ a ∈ l, p a = true → key m ≤ key a := by
  obtain ⟨a, ha, hpa⟩ := h
  cases hmin : (l.filter p).argmin key with
  | none =>
    have hmem : a ∈ l.filter p := mem_filter.mpr ⟨ha, hpa⟩
    rw [argmin_eq_none.mp hmin] at hmem
    cases hmem
  | some m =>
    obtain ⟨hm, hpm⟩ := mem_filter.mp (argmin_mem hmin)
    exact ⟨m, hm, hpm, fun b hb hpb => le_of_mem_argmin (mem_filter.mpr ⟨hb, hpb⟩) hmin⟩

/-- A slot of the state, and the entries that write it. -/
structure Slot (ρ α β : Type*) where
  sel : α → Bool
  line : ρ → Int
  value : ρ → β
  valueOf : α → β

namespace Slot

variable {s : Slot ρ α β}

/-- A step writes the slot exactly for an entry of it with a smaller key. -/
def Kept (s : Slot ρ α β) (key : α → ℕ) (step : ρ → α → ρ) (P : α → Prop) : Prop :=
  ∀ x a, P a → (s.line (step x a), s.value (step x a)) =
    if s.sel a = true ∧ (s.line x < 0 ∨ s.line x > key a) then ((key a : Int), s.valueOf a)
    else (s.line x, s.value x)

def read (s : Slot ρ α β) (key : α → ℕ) (unset : β) : Option α → Int × β
  | none => (-1, unset)
  | some a => (key a, s.valueOf a)

/-- **The entry with the least key decides.** -/
def Decided (s : Slot ρ α β) (key : α → ℕ) (unset : β) (l : List α) (x : ρ) : Prop :=
  (s.line x = -1 ∧ s.value x = unset ∧ ∀ a ∈ l, s.sel a = false) ∨
  ∃ a ∈ l, s.sel a = true ∧ (∀ b ∈ l, s.sel b = true → key a ≤ key b) ∧
    s.line x = key a ∧ s.value x = s.valueOf a

section
variable (h : s.Kept key step P) (x : ρ) (hx : s.line x = -1) (hl : ∀ a ∈ l, P a)

include h x hx hl

theorem Kept.run : (s.line (l.foldl step x), s.value (l.foldl step x)) =
      s.read key (s.value x) ((l.filter s.sel).argmin key) := by
  induction l using List.reverseRecOn with
  | nil => rw [foldl_nil, hx, filter_nil, argmin_nil, read]
  | append_singleton l a ih =>
    have ih := ih fun b hb => hl b (mem_append_left _ hb)
    rw [foldl_concat, h _ _ (hl a (by simp)), filter_append]
    cases hsel : s.sel a with
    | false => rw [if_neg (by simp), ih, filter_cons_of_neg (by simp [hsel]), filter_nil, append_nil]
    | true =>
      rw [filter_cons_of_pos hsel, filter_nil, argmin_concat]
      cases hmin : (l.filter s.sel).argmin key with
      | none =>
        rw [hmin, read, Prod.mk.injEq] at ih
        rw [if_pos ⟨rfl, .inl (by omega)⟩, read]
      | some b =>
        rw [hmin, read, Prod.mk.injEq] at ih
        by_cases hlt : key a < key b
        · rw [if_pos ⟨rfl, .inr (by omega)⟩]
          simp only [if_pos hlt, read]
        · rw [if_neg (by omega), ih.1, ih.2]
          simp only [if_neg hlt, read]

theorem Kept.perm (hkey : (l.map key).Nodup) (hperm : l'.Perm l) :
    s.line (l'.foldl step x) = s.line (l.foldl step x) ∧ s.value (l'.foldl step x) = s.value (l.foldl step x) := by
  have hfilter : ((l.filter s.sel).map key).Nodup := hkey.sublist (filter_sublist.map key)
  have hrun := h.run x hx hl
  have hrun' := h.run x hx fun a ha => hl a (hperm.mem_iff.mp ha)
  rw [← argmin_perm (hperm.symm.filter s.sel) hfilter, ← hrun] at hrun'
  exact Prod.mk.inj hrun'

theorem Kept.decided : s.Decided key (s.value x) l (l.foldl step x) := by
  have hrun := h.run x hx hl
  cases hmin : (l.filter s.sel).argmin key with
  | none =>
    rw [hmin, read, Prod.mk.injEq] at hrun
    refine .inl ⟨hrun.1, hrun.2, fun a ha => ?_⟩
    exact Bool.eq_false_iff.mpr (filter_eq_nil_iff.mp (argmin_eq_none.mp hmin) a ha)
  | some a =>
    rw [hmin, read, Prod.mk.injEq] at hrun
    obtain ⟨ha, hsel⟩ := mem_filter.mp (argmin_mem hmin)
    refine .inr ⟨a, ha, hsel, fun b hb hb' => ?_, hrun⟩
    exact le_of_mem_argmin (mem_filter.mpr ⟨hb, hb'⟩) hmin

end

theorem Decided.perm {unset : β} {x : ρ} (hperm : l'.Perm l)
    (h : s.Decided key unset l' x) : s.Decided key unset l x := by
  simpa only [Decided, hperm.mem_iff] using h

end Slot

end LeastKey
