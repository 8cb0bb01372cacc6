import Mathlib

/-!
# Linked walks

Lists threaded through memory by a successor map. `Walk nx a l b` says that following `nx` from the
pointer `a` visits exactly the cells of `l`, in order, and then holds the pointer `b`; `none` is
the null pointer. `Back pv q l` says that the predecessor map `pv` leads each cell of `l` to the
one before it, and the first to `q`.

The rules below say what one store does to a walk: a store outside it changes nothing
(`Walk.congr`), and linking in or out the successor of a cell needs that cell's link only
(`Walk.insert`, `Walk.unlink`).
-/

namespace Linked

open List Option

variable {α : Type*} {nx nx' pv pv' : α → Option α} {a b c q : Option α} {l l₁ l₂ : List α}
  {p e x : α}

/-- Following `nx` from `a` visits `l` and arrives at `b`. -/
def Walk (nx : α → Option α) : Option α → List α → Option α → Prop
  | a, [], b => a = b
  | a, x :: l, b => a = some x ∧ Walk nx (nx x) l b

/-- `pv` leads each cell of the list to the one before it, and the first one to `q`. -/
def Back (pv : α → Option α) : Option α → List α → Prop
  | _, [] => True
  | q, x :: l => pv x = q ∧ Back pv (some x) l

@[simp] theorem walk_nil : Walk nx a [] b ↔ a = b := Iff.rfl

@[simp] theorem walk_cons : Walk nx a (x :: l) b ↔ a = some x ∧ Walk nx (nx x) l b := Iff.rfl

@[simp] theorem back_nil : Back pv q [] := trivial

@[simp] theorem back_cons : Back pv q (x :: l) ↔ pv x = q ∧ Back pv (some x) l := Iff.rfl

theorem walk_append : Walk nx a (l₁ ++ l₂) c ↔ ∃ b, Walk nx a l₁ b ∧ Walk nx b l₂ c := by
  induction l₁ generalizing a with
  | nil => simp
  | cons x l ih => simp [ih, and_assoc]

theorem Walk.congr (h : Walk nx a l b) (hnx : ∀ x ∈ l, nx' x = nx x) : Walk nx' a l b := by
  induction l generalizing a with
  | nil => exact h
  | cons x l ih =>
    refine ⟨h.1, ?_⟩
    rw [hnx x (by simp)]
    exact ih h.2 fun y hy => hnx y (by simp [hy])

theorem Walk.head (h : Walk nx a (x :: l) b) : a = some x := h.1

theorem Walk.head?_eq (h : Walk nx a l none) : l.head? = a := by
  cases l with
  | nil => exact h.symm
  | cons x l => exact h.head.symm

theorem Walk.next_eq (h : Walk nx a (l₁ ++ e :: l₂) none) : nx e = l₂.head? := by
  obtain ⟨c, -, -, h2⟩ := walk_append.1 h
  exact h2.head?_eq.symm

theorem Walk.unique (h1 : Walk nx a l₁ none) (h2 : Walk nx a l₂ none) : l₁ = l₂ := by
  induction l₁ generalizing a l₂ with
  | nil =>
    cases l₂ with
    | nil => rfl
    | cons y l₂ => rw [walk_nil] at h1; simp [h1] at h2
  | cons x l₁ ih =>
    cases l₂ with
    | nil => rw [walk_nil] at h2; simp [h2] at h1
    | cons y l₂ =>
      obtain rfl : x = y := some.inj (h1.1.symm.trans h2.1)
      rw [ih h1.2 h2.2]

theorem Walk.split (h : Walk nx a l₁ b) (h' : Walk nx a l none) : ∃ l₂, l = l₁ ++ l₂ ∧ Walk nx b l₂ none := by
  induction l₁ generalizing a l with
  | nil =>
    rw [walk_nil.1 h] at h'
    exact ⟨l, rfl, h'⟩
  | cons x l₁ ih =>
    cases l with
    | nil =>
      rw [h'] at h
      exact absurd h.head (some_ne_none x).symm
    | cons y l =>
      obtain rfl : x = y := some.inj (h.1.symm.trans h'.1)
      obtain ⟨l₂, rfl, h2⟩ := ih h.2 h'.2
      exact ⟨l₂, rfl, h2⟩

theorem Walk.not_cycle (h : Walk nx a (x :: l₁) a) : ¬Walk nx a l none := by
  intro h'
  obtain ⟨l₂, hl, h2⟩ := h.split h'
  have hlen := congrArg List.length (h'.unique h2)
  rw [hl, length_append, length_cons] at hlen
  omega

theorem Walk.nodup (h : Walk nx a l none) : l.Nodup := by
  induction l generalizing a with
  | nil => exact nodup_nil
  | cons x l ih =>
    refine nodup_cons.2 ⟨fun hx => ?_, ih h.2⟩
    obtain ⟨l₁, l₂, rfl⟩ := append_of_mem hx
    obtain ⟨c, -, hc, h2⟩ := walk_append.1 h.2
    have h1 : Walk nx (some x) (x :: (l₁ ++ x :: l₂)) none := ⟨rfl, h.2⟩
    have h3 : Walk nx (some x) (x :: l₂) none := ⟨rfl, h2⟩
    have hl := congrArg List.length (h1.unique h3)
    simp only [length_cons, length_append] at hl
    omega

theorem Walk.not_next_first (h : Walk nx (some x) l none) (hp : p ∈ l) : nx p ≠ some x := by
  intro hx
  obtain ⟨l₁, l₂, rfl⟩ := append_of_mem hp
  obtain ⟨c, h1, hc, -⟩ := walk_append.1 h
  have hcycle : Walk nx (some x) (l₁ ++ [p]) (some x) := walk_append.2 ⟨c, h1, hc, hx⟩
  cases l₁ with
  | nil => exact hcycle.not_cycle h
  | cons y l₁ => exact hcycle.not_cycle h

theorem Walk.pred_unique (h : Walk nx a l none) (hp : p ∈ l) (he : e ∈ l) (hpx : nx p = some x)
    (hex : nx e = some x) : p = e := by
  induction l generalizing a with
  | nil => simp at hp
  | cons y l ih =>
    rcases mem_cons.1 hp with rfl | hp' <;> rcases mem_cons.1 he with rfl | he'
    · rfl
    · exact absurd hex ((hpx ▸ h.2 : Walk nx (some x) l none).not_next_first he')
    · exact absurd hpx ((hex ▸ h.2 : Walk nx (some x) l none).not_next_first hp')
    · exact ih h.2 hp' he'

theorem Walk.mem_of_next (h : Walk nx a l none) (hp : p ∈ l) (hx : nx p = some x) : x ∈ l := by
  obtain ⟨l₁, l₂, rfl⟩ := append_of_mem hp
  exact mem_append_right _ (mem_cons_of_mem _ (mem_of_mem_head? (h.next_eq ▸ hx)))

theorem Walk.unlink (h : Walk nx a (l₁ ++ p :: e :: l₂) b) (hp : nx' p = nx e)
    (hnx : ∀ x ∈ l₁ ++ l₂, nx' x = nx x) : Walk nx' a (l₁ ++ p :: l₂) b := by
  obtain ⟨c, h1, hc, -, h2⟩ := walk_append.1 h
  refine walk_append.2 ⟨c, h1.congr fun x hx => hnx x (by simp [hx]), hc, ?_⟩
  rw [hp]
  exact h2.congr fun x hx => hnx x (by simp [hx])

theorem Walk.insert (h : Walk nx a (l₁ ++ p :: l₂) b) (hp : nx' p = some e) (he : nx' e = nx p)
    (hnx : ∀ x ∈ l₁ ++ l₂, nx' x = nx x) : Walk nx' a (l₁ ++ p :: e :: l₂) b := by
  obtain ⟨c, h1, hc, h2⟩ := walk_append.1 h
  refine walk_append.2 ⟨c, h1.congr fun x hx => hnx x (by simp [hx]), hc, hp, ?_⟩
  rw [he]
  exact h2.congr fun x hx => hnx x (by simp [hx])

theorem Walk.push (h : Walk nx a l b) (he : nx' e = a) (hnx : ∀ x ∈ l, nx' x = nx x) : Walk nx' (some e) (e :: l) b :=
  ⟨rfl, by rw [he]; exact h.congr hnx⟩

/-- The cells from `a` on, if they are at most `n`. -/
def follow (nx : α → Option α) : Nat → Option α → Option (List α)
  | _, none => some []
  | 0, some _ => none
  | n + 1, some x => (follow nx n (nx x)).map (x :: ·)

theorem Walk.follow (h : Walk nx a l none) {n : Nat} (hn : l.length ≤ n) : follow nx n a = some l := by
  induction l generalizing a n with
  | nil =>
    rw [walk_nil.1 h]
    cases n <;> rfl
  | cons x l ih =>
    cases n with
    | zero => simp at hn
    | succ n =>
      rw [h.1, Linked.follow, ih h.2 (Nat.le_of_succ_le_succ hn)]
      rfl

theorem walk_of_follow {n : Nat} (h : follow nx n a = some l) : Walk nx a l none := by
  induction n generalizing a l with
  | zero =>
    cases a with
    | none => rw [← some.inj h]; rfl
    | some x => cases h
  | succ n ih =>
    cases a with
    | none => rw [← some.inj h]; rfl
    | some x =>
      obtain ⟨l', hl', rfl⟩ := map_eq_some_iff.1 h
      exact ⟨rfl, ih hl'⟩

theorem follow_of_cycle (h : Walk nx a (x :: l₁) a) (n : Nat) : follow nx n a = none := by
  cases hf : follow nx n a with
  | none => rfl
  | some l => exact absurd (walk_of_follow hf) h.not_cycle

theorem back_append : Back pv q (l₁ ++ l₂) ↔ Back pv q l₁ ∧ Back pv (l₁.getLast?.or q) l₂ := by
  induction l₁ generalizing q with
  | nil => simp
  | cons x l ih =>
    have hlast : l.getLast?.or (some x) = (x :: l).getLast?.or q := by
      rw [getLast?_cons]
      cases l.getLast? <;> rfl
    simp only [cons_append, back_cons, ih, hlast, and_assoc]

theorem Back.congr (h : Back pv q l) (hpv : ∀ x ∈ l, pv' x = pv x) : Back pv' q l := by
  induction l generalizing q with
  | nil => trivial
  | cons x l ih => exact ⟨(hpv x (by simp)).trans h.1, ih h.2 fun y hy => hpv y (by simp [hy])⟩

theorem Back.eq_getLast (h : Back pv q (l₁ ++ e :: l₂)) : pv e = l₁.getLast?.or q := (back_append.1 h).2.1

theorem Back.prev_next (h : Back pv q l) (hw : Walk nx a l none) (he : e ∈ l) {n : α}
    (hn : nx e = some n) : pv n = some e := by
  obtain ⟨l₁, l₂, rfl⟩ := append_of_mem he
  have hhead : l₂.head? = some n := hw.next_eq.symm.trans hn
  cases l₂ with
  | nil => cases hhead
  | cons m l₂ =>
    obtain rfl : m = n := some.inj hhead
    exact (back_append.1 h).2.2.1

theorem Back.of_walk (hw : Walk nx a l none) (ha : ∀ x, a = some x → pv x = q)
    (hpv : ∀ e ∈ l, ∀ n, nx e = some n → pv n = some e) : Back pv q l := by
  induction l generalizing a q with
  | nil => trivial
  | cons x l ih => exact ⟨ha x hw.head, ih hw.2 (hpv x (by simp)) fun e he => hpv e (by simp [he])⟩

theorem Back.unlink (h : Back pv q (l₁ ++ e :: l₂)) (hn : ∀ n ∈ l₂.head?, pv' n = pv e)
    (hpv : ∀ x ∈ l₁ ++ l₂.tail, pv' x = pv x) : Back pv' q (l₁ ++ l₂) := by
  obtain ⟨h1, he, h2⟩ := back_append.1 h
  refine back_append.2 ⟨h1.congr fun x hx => hpv x (by simp [hx]), ?_⟩
  cases l₂ with
  | nil => trivial
  | cons n l₂ => refine ⟨(hn n rfl).trans he, h2.2.congr fun x hx => hpv x (by simp [hx])⟩

theorem Back.push (h : Back pv q l) (he : pv' e = c) (hn : ∀ n ∈ l.head?, pv' n = some e)
    (hpv : ∀ x ∈ l.tail, pv' x = pv x) : Back pv' c (e :: l) := by
  refine ⟨he, ?_⟩
  cases l with
  | nil => trivial
  | cons n l => exact ⟨hn n rfl, h.2.congr hpv⟩

end Linked
