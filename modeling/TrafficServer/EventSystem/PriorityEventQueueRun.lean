import Mathlib.Logic.Relation
import Mathlib.Tactic.IntervalCases
import TrafficServer.EventSystem.PriorityEventQueue

/-!
# Events become ready in time

Every event is on the list that its `in_heap` names, whatever is called (`Consistent`). An event on list
`i + 1` was put there at a time before which its list is not looked at again until the number of the
interval of length `PQ_BUCKET_TIME(i)` changes, and it had to wait for longer than that (`Timely`). So an
event that is due is on a list that `check_ready` looks at, as long as a change of the number shows in the
bits that are compared (`Spans`).
-/

namespace TrafficServer.PriorityEventQueue

open Function List Relation

variable {q q' q₀ : PriorityEventQueue} {e i j now clock : Nat} {l : List Nat} {t tt : Int}

/-! ### Lists and times -/

theorem listFor_lt (t : Int) : listFor t < nPqList := by
  unfold listFor
  split_ifs <;> decide

theorem listFor_zero (h : listFor t = 0) : t ≤ pqBucketTime 0 := by
  unfold listFor at h
  split_ifs at h
  assumption

theorem lt_of_listFor (h : listFor t = i + 1) : pqBucketTime i < t := by
  unfold listFor at h
  split_ifs at h <;> obtain rfl := Nat.succ.inj h <;> omega

theorem demote_le (tt : Int) (i : Nat) : demote tt i ≤ i := by
  induction i with
  | zero => exact le_rfl
  | succ i ih =>
    rw [demote]
    split
    · omega
    · exact le_rfl

theorem lt_of_demote (h : demote tt j = i + 1) : pqBucketTime i < tt := by
  induction j with
  | zero => cases h
  | succ j ih =>
    rw [demote] at h
    split at h
    · exact ih h
    · next hlt =>
      obtain rfl := Nat.succ.inj h
      omega

theorem demote_zero (h : demote tt (j + 1) = 0) : tt ≤ pqBucketTime 0 := by
  induction j with
  | zero =>
    rw [demote] at h
    split at h
    · assumption
    · cases h
  | succ j ih =>
    rw [demote] at h
    split at h
    · exact ih h
    · cases h

/-! ### Each event on its list -/

/-- Every event is on exactly the list that its `in_heap` names, except those of `l`, which are on their
way from one list to another. -/
structure Holds (q : PriorityEventQueue) (l : List Nat) : Prop where
  nodup : ∀ i, (q.after i).Nodup
  mem : ∀ i e, e ∈ q.after i → (q.event e).inThePriorityQueue = true ∧ (q.event e).inHeap = i
  queued : ∀ e, (q.event e).inThePriorityQueue = true → e ∈ l ∨ e ∈ q.after (q.event e).inHeap
  lists : ∀ i e, e ∈ q.after i → i < nPqList
  way_nodup : l.Nodup
  way : ∀ e ∈ l, (q.event e).inThePriorityQueue = true ∧ ∀ i, e ∉ q.after i

abbrev Consistent (q : PriorityEventQueue) : Prop := q.Holds []

@[simp] theorem setEvent_event_self (q : PriorityEventQueue) (e : Nat) (x : Event) :
    (q.setEvent e x).event e = x := update_self _ _ _

theorem setEvent_event_of_ne (q : PriorityEventQueue) {e e' : Nat} (h : e' ≠ e) (x : Event) :
    (q.setEvent e x).event e' = q.event e' := update_of_ne h _ _

@[simp] theorem setAfter_event (q : PriorityEventQueue) (i : Nat) (l : List Nat) :
    (q.setAfter i l).event = q.event := rfl

@[simp] theorem setAfter_after_self (q : PriorityEventQueue) (i : Nat) (l : List Nat) :
    (q.setAfter i l).after i = l := update_self _ _ _

theorem setAfter_after_of_ne (q : PriorityEventQueue) (h : j ≠ i) (l : List Nat) :
    (q.setAfter i l).after j = q.after j := update_of_ne h _ _

theorem setEvent_field {α : Type} (field : Event → α) (q : PriorityEventQueue) (e : Nat) (z : Event)
    (hz : field z = field (q.event e)) (y : Nat) : field ((q.setEvent e z).event y) = field (q.event y) := by
  by_cases h : y = e
  · rw [h, setEvent_event_self, hz]
  · rw [setEvent_event_of_ne _ h]

variable {x start : Nat}

theorem mem_of_mem_setAfter (hl : l ⊆ q.after i) (hx : x ∈ (q.setAfter i l).after j) : x ∈ q.after j := by
  by_cases h : j = i
  · subst h
    rw [setAfter_after_self] at hx
    exact hl hx
  · rwa [setAfter_after_of_ne _ h] at hx

theorem nodup_setAfter (hq : ∀ j, (q.after j).Nodup) (hl : l.Nodup) (j : Nat) : ((q.setAfter i l).after j).Nodup :=
  (forall_update_iff q.after fun _ l => l.Nodup).mpr ⟨hl, fun j _ => hq j⟩ j

theorem mem_put_after (q : PriorityEventQueue) (e i : Nat) {j : Nat} :
    x ∈ (q.put e i).after j ↔ x ∈ q.after j ∨ x = e ∧ j = i := by
  by_cases h : j = i
  · subst h
    simp [put]
  · rw [put, setAfter_after_of_ne _ h]
    exact (or_iff_left fun h' => h h'.2).symm

theorem put_event (q : PriorityEventQueue) (e i x : Nat) :
    (q.put e i).event x = if x = e then { q.event e with inHeap := i } else q.event x := by
  rw [put, setAfter_event]
  split
  · next h => rw [h, setEvent_event_self]
  · next h => rw [setEvent_event_of_ne _ h]

theorem Holds.put (hq : q.Holds (e :: l)) (hi : i < nPqList) : (q.put e i).Holds l := by
  obtain ⟨hqueued, hnot⟩ := hq.way e mem_cons_self
  have hl := nodup_cons.mp hq.way_nodup
  refine ⟨fun j => ?_, fun j x hx => ?_, fun x hx => ?_, fun j x hx => ?_, hl.2, fun x hx => ?_⟩
  · refine nodup_setAfter hq.nodup ?_ j
    exact nodup_append'.mpr ⟨hq.nodup i, nodup_singleton e, by simpa using hnot i⟩
  · rw [mem_put_after] at hx
    rw [put_event]
    rcases hx with hx | ⟨rfl, rfl⟩
    · rw [if_neg (by rintro rfl; exact hnot j hx)]
      exact hq.mem j x hx
    · rw [if_pos rfl]
      exact ⟨hqueued, rfl⟩
  · rw [put_event] at hx ⊢
    rw [mem_put_after]
    by_cases h : x = e
    · rw [if_pos h]
      exact .inr (.inr ⟨h, rfl⟩)
    · rw [if_neg h] at hx ⊢
      refine (hq.queued x hx).imp (fun hmem => ?_) .inl
      exact (mem_cons.mp hmem).resolve_left h
  · rcases (mem_put_after q e i).mp hx with hx | ⟨-, rfl⟩
    · exact hq.lists j x hx
    · exact hi
  · have hne : x ≠ e := by
      rintro rfl
      exact hl.1 hx
    obtain ⟨hx1, hx2⟩ := hq.way x (mem_cons_of_mem _ hx)
    rw [put_event, if_neg hne]
    refine ⟨hx1, fun j hmem => ?_⟩
    exact ((mem_put_after q e i).mp hmem).elim (hx2 j) fun h => hne h.1

variable {l' : List Nat}

theorem Holds.setEvent (hq : q.Holds l) {x : Event} (hnot : ∀ i, e ∉ q.after i)
    (hl' : ∀ y, y ∈ l' ↔ (y ∈ l ∧ y ≠ e) ∨ (y = e ∧ x.inThePriorityQueue = true))
    (hnodup : l'.Nodup) : (q.setEvent e x).Holds l' := by
  refine ⟨hq.nodup, fun i y hy => ?_, fun y hy => ?_, hq.lists, hnodup, fun y hy => ?_⟩
  · have hne : y ≠ e := by
      rintro rfl
      exact hnot i hy
    rw [setEvent_event_of_ne _ hne]
    exact hq.mem i y hy
  · by_cases h : y = e
    · subst h
      rw [setEvent_event_self] at hy
      exact .inl ((hl' y).mpr (.inr ⟨rfl, hy⟩))
    · rw [setEvent_event_of_ne _ h] at hy ⊢
      exact (hq.queued y hy).imp_left fun hmem => (hl' y).mpr (.inl ⟨hmem, h⟩)
  · rcases (hl' y).mp hy with ⟨hmem, hne⟩ | ⟨rfl, hx⟩
    · rw [setEvent_event_of_ne _ hne]
      exact hq.way y hmem
    · rw [setEvent_event_self]
      exact ⟨hx, hnot⟩

theorem Consistent.take (hq : q.Consistent) (hp : (q.after i).Perm (l ++ l')) : (q.setAfter i l').Holds l := by
  have hmem {x : Nat} : x ∈ q.after i ↔ x ∈ l ∨ x ∈ l' := by rw [hp.mem_iff, mem_append]
  have hnodup := hp.nodup_iff.mp (hq.nodup i)
  rw [nodup_append'] at hnodup
  have hold {j x : Nat} (hx : x ∈ (q.setAfter i l').after j) : x ∈ q.after j :=
    mem_of_mem_setAfter (fun _ hx => hmem.mpr (.inr hx)) hx
  refine ⟨nodup_setAfter hq.nodup hnodup.2.1, fun j x hx => hq.mem j x (hold hx), fun x hx => ?_,
    fun j x hx => hq.lists j x (hold hx), hnodup.1, fun x hx => ?_⟩
  · rw [setAfter_event] at hx ⊢
    have hx' := (hq.queued x hx).resolve_left (by simp)
    by_cases h : (q.event x).inHeap = i
    · rw [h, hmem] at hx'
      rw [h, setAfter_after_self]
      exact hx'
    · rw [setAfter_after_of_ne _ h]
      exact .inr hx'
  · have hxi := hmem.mpr (.inl hx)
    refine ⟨(hq.mem i x hxi).1, fun j hj => ?_⟩
    obtain rfl : j = i := (hq.mem j x (hold hj)).2.symm.trans (hq.mem i x hxi).2
    rw [setAfter_after_self] at hj
    exact hnodup.2.2 hx hj

/-! ### The operations -/

theorem Consistent.enqueue (hq : q.Consistent) (he : (q.event e).inThePriorityQueue = false)
    (now : Nat) : (q.enqueue e now).Consistent := by
  have hnot (i : Nat) : e ∉ q.after i := by
    intro hmem
    rw [(hq.mem i e hmem).1] at he
    cases he
  have hset : (q.setEvent e { q.event e with inThePriorityQueue := true }).Holds [e] :=
    hq.setEvent hnot (by simp) (nodup_singleton e)
  exact hset.put (listFor_lt _)

theorem Consistent.leave (hq : q.Consistent) (hp : (q.after i).Perm (e :: l')) :
    ((q.setEvent e { q.event e with inThePriorityQueue := false }).setAfter i l').Consistent := by
  have htake : (q.setAfter i l').Holds [e] := hq.take (l := [e]) hp
  have hnot := (htake.way e mem_cons_self).2
  have hset : ((q.setAfter i l').setEvent e { q.event e with inThePriorityQueue := false }).Holds [] :=
    htake.setEvent hnot (by simp) nodup_nil
  exact hset

theorem Consistent.remove (hq : q.Consistent) (he : (q.event e).inThePriorityQueue = true) :
    (q.remove e).Consistent :=
  hq.leave (perm_cons_erase ((hq.queued e he).resolve_left (by simp)))

theorem dequeueReady_cases (q : PriorityEventQueue) : q.after 0 = [] ∧ q.dequeueReady = (q, none) ∨
      ∃ e l, q.after 0 = e :: l ∧ q.dequeueReady =
        ((q.setEvent e { q.event e with inThePriorityQueue := false }).setAfter 0 l, some e) := by
  rw [dequeueReady]
  cases h : q.after 0 with
  | nil => exact .inl ⟨rfl, rfl⟩
  | cons e l => exact .inr ⟨e, l, rfl, rfl⟩

theorem Consistent.setEvent_same (hq : q.Consistent) {x : Event}
    (hx : x.inThePriorityQueue = (q.event e).inThePriorityQueue) (hx' : x.inHeap = (q.event e).inHeap) :
    (q.setEvent e x).Consistent := by
  have hqueued := setEvent_field (·.inThePriorityQueue) q e x hx
  have hheap := setEvent_field (·.inHeap) q e x hx'
  refine ⟨hq.nodup, fun i y hy => ?_, fun y hy => ?_, hq.lists, hq.way_nodup, nofun⟩
  · rw [hqueued, hheap]
    exact hq.mem i y hy
  · rw [hqueued] at hy
    rw [hheap]
    exact hq.queued y hy

/-! ### `check_ready` -/

/-- The lists up to `i` have been looked at, except for the events `l` of the last one. -/
structure Examined (q₀ q : PriorityEventQueue) (now i : Nat) (l : List Nat) : Prop where
  holds : q.Holds l
  timeout : ∀ e, (q.event e).timeoutAt = (q₀.event e).timeoutAt
  later : ∀ j, i < j → q.after j = q₀.after j
  waits : ∀ j < i, ∀ e ∈ q.after (j + 1), pqBucketTime j < (q₀.event e).timeoutAt - now
  ready : ∀ e ∈ q.after 0, e ∈ q₀.after 0 ∨ (q₀.event e).timeoutAt - now ≤ pqBucketTime 0
  first : ∀ e ∈ q₀.after 0, e ∈ q.after 0
  kept : ∀ e, (q₀.event e).inThePriorityQueue = true → (q₀.event e).cancelled = false →
    (q.event e).inThePriorityQueue = true
  sub : ∀ e, (q.event e).inThePriorityQueue = true → (q₀.event e).inThePriorityQueue = true ∧
    (q.event e).cancelled = (q₀.event e).cancelled
  time : q.lastCheckTime = now
  buckets : q.lastCheckBuckets = buckets now

theorem Examined.checkEvent (h : Examined q₀ q now (i + 1) (e :: l)) (hi : i + 1 < nPqList) :
    Examined q₀ (q.checkEvent now (i + 1) e) now (i + 1) l := by
  obtain ⟨hqueued, hnot⟩ := h.holds.way e mem_cons_self
  have hl := nodup_cons.mp h.holds.way_nodup
  rw [PriorityEventQueue.checkEvent]
  split
  · next hc =>
    -- the event is freed
    obtain ⟨he0, hc0⟩ := h.sub e hqueued
    refine ⟨h.holds.setEvent hnot (fun y => ?_) hl.2, fun x => ?_, h.later, h.waits, h.ready, h.first,
      fun x hx hcx => ?_, fun x hx => ?_, h.time, h.buckets⟩
    · simp only [Bool.false_eq_true, and_false, or_false, mem_cons]
      constructor
      · intro hy
        exact ⟨.inr hy, by rintro rfl; exact hl.1 hy⟩
      · rintro ⟨hy, hne⟩
        exact hy.resolve_left hne
    · exact (setEvent_field (·.timeoutAt) q e _ (by rfl) x).trans (h.timeout x)
    · have hne : x ≠ e := by
        rintro rfl
        rw [hc, hcx] at hc0
        cases hc0
      rw [setEvent_event_of_ne _ hne]
      exact h.kept x hx hcx
    · have hne : x ≠ e := by
        rintro rfl
        rw [setEvent_event_self] at hx
        cases hx
      rw [setEvent_event_of_ne _ hne] at hx ⊢
      exact h.sub x hx
  · next hc =>
    have hle := demote_le ((q.event e).timeoutAt - now) (i + 1)
    have hqueued (x : Nat) := setEvent_field (·.inThePriorityQueue) q e
      { q.event e with inHeap := demote ((q.event e).timeoutAt - now) (i + 1) } rfl x
    refine ⟨h.holds.put (by omega),
      fun x => (setEvent_field (·.timeoutAt) q e _ (by rfl) x).trans (h.timeout x), fun j hj => ?_,
      fun j hj x hx => ?_, fun x hx => ?_,
      fun x hx => (mem_put_after _ _ _).mpr (.inl (h.first x hx)),
      fun x hx hcx => (hqueued x).trans (h.kept x hx hcx), fun x hx => ?_, h.time, h.buckets⟩
    · rw [← h.later j hj, put, setAfter_after_of_ne _ (by omega)]
      rfl
    · rcases (mem_put_after _ _ _).mp hx with hx | ⟨rfl, hj'⟩
      · exact h.waits j hj x hx
      · rw [← h.timeout x]
        exact lt_of_demote hj'.symm
    · rcases (mem_put_after _ _ _).mp hx with hx | ⟨rfl, hj'⟩
      · exact h.ready x hx
      · rw [← h.timeout x]
        exact .inr (demote_zero hj'.symm)
    · obtain ⟨hx0, hcx⟩ := h.sub x ((hqueued x).symm.trans hx)
      exact ⟨hx0, (setEvent_field (·.cancelled) q e _ (by rfl) x).trans hcx⟩

theorem Examined.foldl (h : Examined q₀ q now (i + 1) l) (hi : i + 1 < nPqList) :
    Examined q₀ (l.foldl (PriorityEventQueue.checkEvent now (i + 1)) q) now (i + 1) [] := by
  induction l generalizing q with
  | nil => exact h
  | cons e l ih => exact ih (h.checkEvent hi)

theorem Examined.checkList (h : Examined q₀ q now i []) (hi : i + 1 < nPqList) :
    Examined q₀ (q.checkList now (i + 1)) now (i + 1) [] := by
  refine Examined.foldl ⟨?_, h.timeout, fun j hj => ?_, fun j hj e he => ?_, fun e he => ?_,
    fun e he => ?_, h.kept, h.sub, h.time, h.buckets⟩ hi
  · exact Consistent.take h.holds (by simp)
  · rw [setAfter_after_of_ne _ (by omega)]
    exact h.later j (by omega)
  · by_cases hj' : j = i
    · subst hj'
      simp at he
    · rw [setAfter_after_of_ne _ (by omega)] at he
      exact h.waits j (by omega) e he
  · rw [setAfter_after_of_ne _ (by omega)] at he
    exact h.ready e he
  · rw [setAfter_after_of_ne _ (by omega)]
    exact h.first e he

theorem examined_lists (hq : q.Consistent) (k : Nat) (hk : k < nPqList) (now : Nat) :
    Examined q ((List.range' 1 k).foldl (checkList now)
      { q with lastCheckTime := now, lastCheckBuckets := buckets now }) now k [] := by
  induction k with
  | zero =>
    exact ⟨⟨hq.nodup, hq.mem, hq.queued, hq.lists, hq.way_nodup, hq.way⟩, fun _ => rfl,
      fun _ _ => rfl, fun _ h => absurd h (Nat.not_lt_zero _), fun _ => .inl, fun _ => id,
      fun _ h _ => h, fun _ h => ⟨h, rfl⟩, rfl, rfl⟩
  | succ k ih =>
    rw [range'_1_concat, foldl_append, Nat.add_comm 1 k]
    exact (ih (by omega)).checkList hk

/-! ### The lists that are looked at -/

theorem countBits_le_iff (fuel y s : Nat) (hy : y < 2 ^ fuel) : countBits fuel y ≤ s ↔ y < 2 ^ s := by
  induction fuel generalizing y s with
  | zero =>
    obtain rfl : y = 0 := by simpa using hy
    simp [countBits]
  | succ fuel ih =>
    rw [countBits]
    split
    · next h => simp [h]
    · next h =>
      cases s with
      | zero => simpa using h
      | succ s =>
        rw [add_le_add_iff_right, ih _ _ (by rw [pow_succ] at hy; omega), pow_succ]
        omega

/-- A change of the number of the interval shows in the bits that `check_ready` compares: the numbers
agree above them, or the highest of them changes. -/
def Spans (q : PriorityEventQueue) (now : Nat) : Prop :=
  now / pqBucketTime 0 / 512 = q.lastCheckTime / pqBucketTime 0 / 512 ∨
    now / pqBucketTime 0 / 256 % 2 ≠ q.lastCheckTime / pqBucketTime 0 / 256 % 2
deriving Decidable

theorem todo_eq (n m : Nat) : (n % 2 ^ 32 ^^^ m % 2 ^ 32) &&& (2 ^ (nPqList - 1) - 1) = n % 512 ^^^ m % 512 := by
  rw [Nat.and_two_pow_sub_one_eq_mod, Nat.xor_mod_two_pow,
    Nat.mod_mod_of_dvd _ (pow_dvd_pow 2 (by decide)), Nat.mod_mod_of_dvd _ (pow_dvd_pow 2 (by decide))]
  rfl

theorem todoLists_lt (q : PriorityEventQueue) (now : Nat) : q.todoLists now < nPqList := by
  have hlt : (buckets now ^^^ q.lastCheckBuckets) &&& (2 ^ (nPqList - 1) - 1) < 2 ^ 9 :=
    Nat.and_lt_two_pow _ (by decide)
  have := (countBits_le_iff 32 _ 9 (hlt.trans (by decide))).mpr hlt
  rw [todoLists]
  exact Nat.lt_succ_of_le this

theorem same_interval (hb : q.lastCheckBuckets = buckets q.lastCheckTime) (hs : q.Spans now)
    (hi : i < 9) (hk : q.todoLists now ≤ i) : now / pqBucketTime i = q.lastCheckTime / pqBucketTime i := by
  have hdiv (t : Nat) : t / pqBucketTime i = t / pqBucketTime 0 / 2 ^ i := by
    rw [Nat.div_div_eq_div_mul]
    rfl
  rw [hdiv, hdiv]
  rw [todoLists, hb, buckets, buckets, todo_eq] at hk
  rw [Spans] at hs
  generalize now / pqBucketTime 0 = n at hs hk ⊢
  generalize q.lastCheckTime / pqBucketTime 0 = m at hs hk ⊢
  have hlt : n % 512 ^^^ m % 512 < 2 ^ 9 := Nat.xor_lt_two_pow (by omega) (by omega)
  rw [countBits_le_iff 32 _ i (hlt.trans (by decide))] at hk
  -- the bits from i on agree
  have hbits : n % 512 / 2 ^ i = m % 512 / 2 ^ i := by
    have hzero : (n % 512) >>> i ^^^ (m % 512) >>> i = 0 := by
      rw [← Nat.shiftRight_xor_distrib, Nat.shiftRight_eq_div_pow]
      exact Nat.div_eq_of_lt hk
    have hcancel := congrArg (· ^^^ (m % 512) >>> i) hzero
    simpa only [Nat.xor_assoc, Nat.xor_self, Nat.xor_zero, Nat.zero_xor, Nat.shiftRight_eq_div_pow] using hcancel
  interval_cases i <;> omega

/-! ### Waiting events -/

/-- An event on list `i + 1` was put there at a time that is not before the interval of the last check,
and had to wait for longer than an interval. -/
def Timely (q : PriorityEventQueue) (clock : Nat) : Prop :=
  ∀ i, ∀ e ∈ q.after (i + 1), ∃ p ≤ clock, q.lastCheckTime / pqBucketTime i ≤ p / pqBucketTime i ∧
    (p + pqBucketTime i : Int) < (q.event e).timeoutAt

theorem lt_of_div_le {p t b : Nat} (hb : 0 < b) (h : t / b ≤ p / b) : t < p + b := by
  have h1 := Nat.div_add_mod t b
  have h2 := Nat.div_add_mod p b
  have h3 := Nat.mod_lt t hb
  have h4 : b * (t / b) ≤ b * (p / b) := Nat.mul_le_mul_left b h
  omega

theorem pqBucketTime_pos (i : Nat) : 0 < pqBucketTime i := by
  unfold pqBucketTime
  positivity

/-- The queue at a time. -/
structure Inv (x : PriorityEventQueue × Nat) : Prop where
  consistent : x.1.Consistent
  time : x.1.lastCheckTime ≤ x.2
  buckets : x.1.lastCheckBuckets = PriorityEventQueue.buckets x.1.lastCheckTime

theorem checkReady_examined (hq : q.Consistent) (now : Nat) :
    Examined q (q.checkReady now) now (q.todoLists now) [] :=
  examined_lists hq _ (todoLists_lt q now) now

/-- **After a check what is due is on list 0, and the others wait for it.** -/
theorem checkReady_timely (hi : Inv (q, clock)) (ht : q.Timely clock) (hc : clock ≤ now)
    (hs : q.Spans now) : (q.checkReady now).Timely now ∧ ∀ e, ((q.checkReady now).event e).inThePriorityQueue = true →
        ((q.checkReady now).event e).timeoutAt ≤ now → e ∈ (q.checkReady now).after 0 := by
  have hx : Examined q (q.checkReady now) now (q.todoLists now) [] := checkReady_examined hi.consistent now
  have hwait : ∀ i, ∀ e ∈ (q.checkReady now).after (i + 1), ∃ p ≤ now,
      now / pqBucketTime i ≤ p / pqBucketTime i ∧ (p + pqBucketTime i : Int) < (q.event e).timeoutAt := by
    intro i e he
    by_cases hlt : i < q.todoLists now
    · have := hx.waits i hlt e he
      exact ⟨now, le_rfl, le_rfl, by omega⟩
    · have hlist : i < 9 := Nat.lt_of_succ_lt_succ (hx.holds.lists (i + 1) e he)
      rw [hx.later (i + 1) (by omega)] at he
      obtain ⟨p, hp, hlast, hwait⟩ := ht i e he
      have hsame := same_interval (q := q) hi.buckets hs hlist (by omega)
      exact ⟨p, hp.trans hc, hsame ▸ hlast, hwait⟩
  constructor
  · intro i e he
    rw [hx.time, hx.timeout]
    exact hwait i e he
  · intro e hqueued hdue
    have hmem := (hx.holds.queued e hqueued).resolve_left (by simp)
    cases hheap : ((q.checkReady now).event e).inHeap with
    | zero => rwa [hheap] at hmem
    | succ i =>
      rw [hheap] at hmem
      obtain ⟨p, -, hp, hwait⟩ := hwait i e hmem
      have := lt_of_div_le (pqBucketTime_pos i) hp
      rw [hx.timeout] at hdue
      omega

/-! ### Runs -/

/-- The calls, and what other code does to an event. -/
inductive Op where
  | setTimeout (e : Nat) (timeoutAt : Int)
  | cancel (e : Nat)
  | enqueue (e now : Nat)
  | remove (e : Nat)
  | dequeueReady
  | checkReady (now : Nat)

def apply (x : PriorityEventQueue × Nat) : Op → PriorityEventQueue × Nat
  | .setTimeout e timeoutAt => (x.1.setEvent e { x.1.event e with timeoutAt }, x.2)
  | .cancel e => (x.1.cancel e, x.2)
  | .enqueue e now => (x.1.enqueue e now, now)
  | .remove e => (x.1.remove e, x.2)
  | .dequeueReady => (x.1.dequeueReady.1, x.2)
  | .checkReady now => (x.1.checkReady now, now)

/-- An event is enqueued once and removed only if it is in the queue; the time of an event in the queue
does not change; and time does not go back. -/
def Op.Fits (x : PriorityEventQueue × Nat) : Op → Prop
  | .setTimeout e _ => (x.1.event e).inThePriorityQueue = false
  | .enqueue e now => (x.1.event e).inThePriorityQueue = false ∧ x.2 ≤ now
  | .remove e => (x.1.event e).inThePriorityQueue = true
  | .checkReady now => x.2 ≤ now
  | .cancel _ | .dequeueReady => True

/-- Every check is one that shows the change of the interval. -/
def Op.Shows (x : PriorityEventQueue × Nat) : Op → Prop
  | .checkReady now => x.1.Spans now
  | _ => True

def Step (x y : PriorityEventQueue × Nat) : Prop := ∃ op : Op, op.Fits x ∧ y = apply x op

def ShownStep (x y : PriorityEventQueue × Nat) : Prop :=
  ∃ op : Op, op.Fits x ∧ op.Shows x ∧ y = apply x op

variable {x y : PriorityEventQueue × Nat} {op : Op}

theorem inv_new (timeoutAt : Nat → Int) (now : Nat) : Inv (new timeoutAt now, now) :=
  ⟨⟨fun _ => nodup_nil, nofun, nofun, nofun, nodup_nil, nofun⟩, le_rfl, rfl⟩

theorem Inv.apply (hi : Inv x) (hop : op.Fits x) : Inv (apply x op) := by
  obtain ⟨q, clock⟩ := x
  have hq : q.Consistent := hi.consistent
  cases op with
  | setTimeout e t => exact ⟨hq.setEvent_same rfl rfl, hi.time, hi.buckets⟩
  | cancel e => exact ⟨hq.setEvent_same rfl rfl, hi.time, hi.buckets⟩
  | enqueue e now => exact ⟨hq.enqueue hop.1 now, hi.time.trans hop.2, hi.buckets⟩
  | remove e => exact ⟨hq.remove hop, hi.time, hi.buckets⟩
  | dequeueReady =>
    rw [apply]
    obtain ⟨-, h⟩ | ⟨e, l, hl, h⟩ := dequeueReady_cases q
    · rw [h]
      exact hi
    · rw [h]
      exact ⟨hq.leave (hl ▸ List.Perm.refl _), hi.time, hi.buckets⟩
  | checkReady now =>
    have hx := checkReady_examined hq now
    refine ⟨hx.holds, hx.time.le, ?_⟩
    change (q.checkReady now).lastCheckBuckets = PriorityEventQueue.buckets (q.checkReady now).lastCheckTime
    rw [hx.buckets, hx.time]

theorem Timely.of_sub (ht : q.Timely clock) (htime : q'.lastCheckTime = q.lastCheckTime)
    (hsub : ∀ i, ∀ e ∈ q'.after (i + 1),
      e ∈ q.after (i + 1) ∧ (q'.event e).timeoutAt = (q.event e).timeoutAt) : q'.Timely clock := by
  intro i e he
  obtain ⟨hmem, htimeout⟩ := hsub i e he
  rw [htime, htimeout]
  exact ht i e hmem

theorem enqueue_event (q : PriorityEventQueue) (e now y : Nat) : (q.enqueue e now).event y = if y = e then
      { q.event e with inThePriorityQueue := true, inHeap := listFor ((q.event e).timeoutAt - now) }
      else q.event y := by
  rw [enqueue, put_event]
  split
  · rw [setEvent_event_self]
  · next h => rw [setEvent_event_of_ne _ h]

theorem Timely.apply (hi : Inv x) (ht : x.1.Timely x.2) (hop : op.Fits x) (hs : op.Shows x) :
    (apply x op).1.Timely (apply x op).2 := by
  obtain ⟨q, clock⟩ := x
  have hq : q.Consistent := hi.consistent
  cases op with
  | setTimeout e t =>
    refine ht.of_sub rfl fun i y hy => ⟨hy, ?_⟩
    have hne : y ≠ e := by
      rintro rfl
      rw [Op.Fits, (hq.mem _ _ hy).1] at hop
      cases hop
    exact congrArg Event.timeoutAt (setEvent_event_of_ne q hne _)
  | cancel e =>
    exact ht.of_sub rfl fun i y hy =>
      ⟨hy, setEvent_field (·.timeoutAt) q e { q.event e with cancelled := true } rfl y⟩
  | enqueue e now =>
    intro i y hy
    change y ∈ (q.enqueue e now).after (i + 1) at hy
    change ∃ p ≤ now, q.lastCheckTime / pqBucketTime i ≤ p / pqBucketTime i ∧
      (p + pqBucketTime i : Int) < ((q.enqueue e now).event y).timeoutAt
    rw [enqueue_event]
    rcases (mem_put_after _ _ _).mp hy with hy | ⟨rfl, hlist⟩
    · obtain ⟨p, hp, hlast, hwait⟩ := ht i y hy
      refine ⟨p, hp.trans hop.2, hlast, ?_⟩
      split
      · next h => rw [← h]; exact hwait
      · exact hwait
    · have hwait := lt_of_listFor hlist.symm
      rw [if_pos rfl]
      exact ⟨now, le_rfl, Nat.div_le_div_right (hi.time.trans hop.2), by dsimp only; omega⟩
  | remove e =>
    exact ht.of_sub rfl fun i y hy => ⟨mem_of_mem_setAfter erase_subset hy, setEvent_field
      (·.timeoutAt) q e { q.event e with inThePriorityQueue := false } rfl y⟩
  | dequeueReady =>
    rw [apply]
    obtain ⟨-, h⟩ | ⟨e, l, hl, h⟩ := dequeueReady_cases q
    · rw [h]
      exact ht
    · rw [h]
      refine ht.of_sub rfl fun i y hy => ⟨?_, setEvent_field (·.timeoutAt) q e
        { q.event e with inThePriorityQueue := false } rfl y⟩
      rwa [setAfter_after_of_ne _ (Nat.succ_ne_zero i)] at hy
  | checkReady now => exact (checkReady_timely hi ht hop hs).1

/-- What a call does to the events in the queue: none is lost but a cancelled one in a check. -/
def Effect (x : PriorityEventQueue × Nat) (op : Op) : Prop :=
  let inQueue (x : PriorityEventQueue × Nat) (e : Nat) := (x.1.event e).inThePriorityQueue = true
  match op with
  | .setTimeout _ _ | .cancel _ => ∀ y, inQueue (apply x op) y ↔ inQueue x y
  | .enqueue e _ => ∀ y, inQueue (apply x op) y ↔ inQueue x y ∨ y = e
  | .remove e => ∀ y, inQueue (apply x op) y ↔ inQueue x y ∧ y ≠ e
  | .dequeueReady =>
    match x.1.dequeueReady.2 with
    | none => x.1.after 0 = [] ∧ ∀ y, inQueue (apply x op) y ↔ inQueue x y
    | some e => (x.1.after 0).head? = some e ∧ ∀ y, inQueue (apply x op) y ↔ inQueue x y ∧ y ≠ e
  | .checkReady _ => ∀ y, (inQueue (apply x op) y → inQueue x y) ∧
    (inQueue x y → (x.1.event y).cancelled = false → inQueue (apply x op) y)

/-- No event comes to list 0 that has to wait for longer than its time. -/
def NotEarly (x : PriorityEventQueue × Nat) (op : Op) : Prop :=
  ∀ e ∈ (apply x op).1.after 0, e ∈ x.1.after 0 ∨
    ((apply x op).1.event e).timeoutAt - (apply x op).2 ≤ pqBucketTime 0

theorem setEvent_inQueue {z : Event} (y : Nat) : ((q.setEvent e z).event y).inThePriorityQueue = true ↔
      ((q.event y).inThePriorityQueue = true ∧ y ≠ e) ∨ (y = e ∧ z.inThePriorityQueue = true) := by
  by_cases h : y = e
  · rw [h, setEvent_event_self]
    simp
  · rw [setEvent_event_of_ne _ h]
    simp [h]

theorem effect_of_fits (hi : Inv x) (hop : op.Fits x) : Effect x op := by
  obtain ⟨q, clock⟩ := x
  have hq : q.Consistent := hi.consistent
  cases op with
  | setTimeout e t =>
    intro y
    have hsame := setEvent_field (·.inThePriorityQueue) q e { q.event e with timeoutAt := t } rfl y
    exact iff_of_eq (congrArg (· = true) hsame)
  | cancel e =>
    intro y
    have hsame := setEvent_field (·.inThePriorityQueue) q e { q.event e with cancelled := true } rfl y
    exact iff_of_eq (congrArg (· = true) hsame)
  | enqueue e now =>
    intro y
    change ((q.enqueue e now).event y).inThePriorityQueue = true ↔ _
    rw [enqueue_event]
    by_cases h : y = e <;> simp [h]
  | remove e =>
    intro y
    refine (setEvent_inQueue y).trans ?_
    simp
  | dequeueReady =>
    rw [Effect]
    dsimp only [apply]
    obtain ⟨hl, h⟩ | ⟨e, l, hl, h⟩ := dequeueReady_cases q
    · rw [h]
      exact ⟨hl, fun y => Iff.rfl⟩
    · rw [h]
      refine ⟨by rw [hl]; rfl, fun y => (setEvent_inQueue y).trans ?_⟩
      simp
  | checkReady now =>
    have hx := checkReady_examined hq now
    exact fun y => ⟨fun hy => (hx.sub y hy).1, hx.kept y⟩

theorem notEarly_of_fits (hi : Inv x) (op : Op) : NotEarly x op := by
  obtain ⟨q, clock⟩ := x
  have hq : q.Consistent := hi.consistent
  cases op with
  | setTimeout e t => exact fun y => .inl
  | cancel e => exact fun y => .inl
  | enqueue e now =>
    intro y hy
    change _ ∨ ((q.enqueue e now).event y).timeoutAt - now ≤ pqBucketTime 0
    rcases (mem_put_after _ _ _).mp hy with hy | ⟨rfl, hlist⟩
    · exact .inl hy
    · rw [enqueue_event, if_pos rfl]
      exact .inr (listFor_zero hlist.symm)
  | remove e =>
    intro y hy
    exact .inl (mem_of_mem_setAfter erase_subset hy)
  | dequeueReady =>
    intro y hy
    rw [apply] at hy
    left
    obtain ⟨-, h⟩ | ⟨e, l, hl, h⟩ := dequeueReady_cases q
    · rwa [h] at hy
    · rw [h] at hy
      exact mem_of_mem_setAfter (hl ▸ subset_cons_self e l) hy
  | checkReady now =>
    have hx := checkReady_examined hq now
    intro y hy
    refine (hx.ready y hy).imp_right fun h => ?_
    rwa [← hx.timeout] at h

theorem drain_eq (q : PriorityEventQueue) : drain (q.after 0).length q = q.after 0 := by
  generalize hl : q.after 0 = l
  induction l generalizing q with
  | nil => rfl
  | cons e l ih =>
    rw [length_cons, drain]
    obtain ⟨h, -⟩ | ⟨e', l', h, hdeq⟩ := dequeueReady_cases q
    · rw [h] at hl
      cases hl
    · obtain ⟨rfl, rfl⟩ := List.cons.inj (hl.symm.trans h)
      rw [hdeq]
      exact congrArg (e :: ·) (ih _ (setAfter_after_self _ _ _))

variable {timeoutAt : Nat → Int}

theorem Inv.run (hrun : ReflTransGen Step (new timeoutAt start, start) x) : Inv x := by
  induction hrun with
  | refl => exact inv_new timeoutAt start
  | tail _ hstep ih =>
    obtain ⟨op, hop, rfl⟩ := hstep
    exact ih.apply hop

theorem Timely.run
    (hrun : ReflTransGen ShownStep (new timeoutAt start, start) x) : Inv x ∧ x.1.Timely x.2 := by
  induction hrun with
  | refl => exact ⟨inv_new timeoutAt start, nofun⟩
  | tail _ hstep ih =>
    obtain ⟨op, hop, hs, rfl⟩ := hstep
    exact ⟨ih.1.apply hop, Timely.apply ih.1 ih.2 hop hs⟩

/-- **Timed events become ready in time.** In every run each event is on the list that its `in_heap`
names, none is lost or comes to list 0 early. If every check shows the change of the interval, then after
a check the loop of `dequeue_ready` returns every event that is due. -/
theorem timed_events_become_ready (timeoutAt : Nat → Int) (start : Nat) :
    (∀ x, ReflTransGen Step (new timeoutAt start, start) x →
      x.1.Consistent ∧ ∀ op : Op, op.Fits x → Effect x op ∧ NotEarly x op) ∧
    (∀ x, ReflTransGen ShownStep (new timeoutAt start, start) x →
      ∀ now, x.2 ≤ now → x.1.Spans now → ∀ e, ((x.1.checkReady now).event e).inThePriorityQueue = true →
        ((x.1.checkReady now).event e).timeoutAt ≤ now → e ∈ (x.1.checkReady now).after 0 ∧
          e ∈ drain ((x.1.checkReady now).after 0).length (x.1.checkReady now)) := by
  refine ⟨fun x hrun => ?_, fun x hrun now hnow hs e hqueued hdue => ?_⟩
  · have hi := Inv.run hrun
    exact ⟨hi.consistent, fun op hop => ⟨effect_of_fits hi hop, notEarly_of_fits hi op⟩⟩
  · obtain ⟨hi, ht⟩ := Timely.run hrun
    have hmem := (checkReady_timely hi ht hnow hs).2 e hqueued hdue
    exact ⟨hmem, by rwa [drain_eq]⟩

/-- After a check that comes 2.56 s after the last one, an event that was due after 20 ms is still on
list 2. -/
theorem long_stall_misses_event : let q := (new (fun _ => 20 * 1000000) 0).enqueue 7 0
    let q' := q.checkReady (2560 * 1000000)
    (Op.enqueue 7 0).Fits (new (fun _ => 20 * 1000000) 0, 0) ∧
      (q'.event 7).inThePriorityQueue = true ∧ (q'.event 7).cancelled = false ∧
      (q'.event 7).timeoutAt ≤ 2560 * 1000000 ∧ q'.after 2 = [7] ∧ q'.after 0 = [] := by
  refine ⟨⟨rfl, le_rfl⟩, ?_⟩
  decide +kernel

end TrafficServer.PriorityEventQueue
