import TrafficServer.Cache.Contents

/-!
# The second pass of `dir_probe`

When the last collision is no longer in the chain, `dir_probe` goes back to `Lagain` with `p` still
at the last entry of the chain. If it has to delete the bucket head now, `dir_delete_entry` takes
that entry for the head's predecessor: it links the last entry to the second one and puts the head
on the freelist. Two pointers then lead to one slot (`Shared`), which is never so in a well-formed
segment. The rest of the pass deletes entries behind their predecessors, and that only moves
pointers around; so they are shared when the pass ends, if it does.

The head of bucket `0` has the number of the null pointer, so the freelist is lost instead; there
the link of the head into it is what stays.
-/

namespace TrafficServer

open List Linked Segment Option

namespace Segment

variable {valid : Dir → Bool} {v : Content → Bool} {buckets base b tag e p i : Nat}
  {sg sg' : Segment} {last hit : Option Nat} {r : Option Nat × Option Nat × Option Nat}

section Delete
variable (sg : Segment) (e p i : Nat)

theorem dirDeleteNext_nextDir : (sg.dirDeleteNext e p).1.nextDir i =
    if i = e then dirFromOffset sg.freelist.toNat else if i = p then sg.nextDir e else sg.nextDir i := by
  refine (Layout.pushFree_nextDir ..).trans ?_
  rw [nextDir_setNext, Nat.mod_eq_of_lt (dirNext_lt _)]
  by_cases hi : i = e
  · rw [if_pos hi, if_pos hi]
    rfl
  · have hset : ({ sg with dirty := true }.set e dirClear).nextDir i = sg.nextDir i := by
      rw [nextDir, set_dir, if_neg hi]
      rfl
    rw [if_neg hi, if_neg hi, hset]
    rfl

theorem dirDeleteNext_offset : dirOffset ((sg.dirDeleteNext e p).1.dir i) =
    if i = e then 0 else dirOffset (sg.dir i) := by
  refine (Layout.pushFree_offset ..).trans ?_
  rw [setNext_offset, set_dir, apply_ite dirOffset]
  rfl

theorem dirDeleteNext_freelist (h0 : 0 < e) (he : e < 65536) :
    dirFromOffset (sg.dirDeleteNext e p).1.freelist.toNat = some e := by
  have hto : (sg.dirDeleteNext e p).1.freelist.toNat = e := by
    refine (BitVec.toNat_ofNat e 16).trans (Nat.mod_eq_of_lt he)
  rw [hto, dirFromOffset_pos h0]

end Delete

/-! ### Pointers to one slot -/

/-- What can point to a slot: the freelist's head, the link of a slot, or a bucket. -/
inductive Source
  | free
  | slot (i : Nat)
  | bucket (b : Nat)
deriving DecidableEq

def Source.In (buckets : Nat) : Source → Prop
  | free => True
  | slot i => i < dirDepth * buckets
  | bucket b => b < buckets

def target (sg : Segment) : Source → Option Nat
  | .free => dirFromOffset sg.freelist.toNat
  | .slot i => sg.nextDir i
  | .bucket b => some (dirBucket b)

def Shared (buckets : Nat) (sg : Segment) : Prop :=
  ∃ s s' : Source, s ≠ s' ∧ s.In buckets ∧ s'.In buckets ∧ (sg.target s).isSome ∧ sg.target s = sg.target s'

def Inside (buckets : Nat) (sg : Segment) : Prop :=
  ∀ s : Source, s.In buckets → ∀ j ∈ sg.target s, j < dirDepth * buckets

def Source.owner {sg : Segment} (L : Layout buckets sg) : Source → Owner
  | free => .free
  | slot i => L.own i
  | bucket b => .chain b

end Segment

namespace Layout

variable {buckets : Nat} {sg : Segment} {s s' : Source} {y : Nat}

theorem next_head (L : Layout buckets sg) {b e : Nat} {l : List Nat} (hb : b < buckets)
    (hC : L.chain b = e :: l) : sg.nextDir e = l.head? :=
  L.next_eq hb (show _ = [] ++ e :: l from hC)

theorem own_target (L : Layout buckets sg) (hfull : L.Full) (hs : s.In buckets) (hy : sg.target s = some y) :
    L.own y = s.owner L := by
  cases s with
  | free =>
    refine (L.mem_free y).1 (mem_of_mem_head? ?_)
    rw [L.free_walk.head?_eq]
    exact hy
  | bucket b =>
    cases hy
    exact L.own_bucket hs
  | slot i =>
    cases hown : L.own i with
    | loose => exact absurd hown (hfull i hs)
    | free =>
      rw [Source.owner, hown]
      exact (L.mem_free y).1 (L.free_walk.mem_of_next ((L.mem_free i).2 hown) hy)
    | chain b =>
      rw [Source.owner, hown]
      exact (L.mem_chain b y).1
        ((L.chain_walk b (L.chain_lt i b hown)).mem_of_next ((L.mem_chain b i).2 hown) hy)

theorem eq_slot_of_target (L : Layout buckets sg) (hfull : L.Full) {i : Nat} (hi : i < dirDepth * buckets)
    (hiy : sg.nextDir i = some y) (hs : s.In buckets) (hsy : sg.target s = some y) : s = .slot i := by
  have hown : s.owner L = L.own i := by
    rw [← L.own_target hfull hs hsy]
    exact L.own_target (s := .slot i) hfull hi hiy
  cases s with
  | free =>
    have hw : Walk sg.nextDir (some y) L.free none := hsy ▸ L.free_walk
    exact absurd hiy (hw.not_next_first ((L.mem_free i).2 hown.symm))
  | bucket b =>
    cases hsy
    exact absurd hiy ((L.chain_walk b hs).not_next_first ((L.mem_chain b i).2 hown.symm))
  | slot j =>
    have hown' : L.own j = L.own i := hown
    cases hi' : L.own i with
    | loose => exact absurd hi' (hfull i hi)
    | free =>
      rw [hi'] at hown'
      exact congrArg _ (L.free_walk.pred_unique ((L.mem_free j).2 hown') ((L.mem_free i).2 hi') hsy hiy)
    | chain b =>
      rw [hi'] at hown'
      exact congrArg _ ((L.chain_walk b (L.chain_lt i b hi')).pred_unique ((L.mem_chain b j).2 hown')
        ((L.mem_chain b i).2 hi') hsy hiy)

theorem target_inj (L : Layout buckets sg) (hfull : L.Full) (hs : s.In buckets) (hs' : s'.In buckets)
    (hy : sg.target s = some y) (hy' : sg.target s' = some y) : s = s' := by
  have hown : s.owner L = s'.owner L := (L.own_target hfull hs hy).symm.trans (L.own_target hfull hs' hy')
  cases s with
  | slot i => exact (L.eq_slot_of_target hfull hs hy hs' hy').symm
  | free =>
    cases s' with
    | slot i => exact L.eq_slot_of_target hfull hs' hy' hs hy
    | free => rfl
    | bucket b' => cases hown
  | bucket b =>
    cases s' with
    | slot i => exact L.eq_slot_of_target hfull hs' hy' hs hy
    | free => cases hown
    | bucket b' => exact congrArg _ (Owner.chain.inj hown)

end Layout

namespace Segment

variable {valid : Dir → Bool} {v : Content → Bool} {buckets base b tag e p i : Nat}
  {sg sg' : Segment} {last hit : Option Nat} {r : Option Nat × Option Nat × Option Nat}

theorem WF.not_shared (h : sg.WF buckets) : ¬ sg.Shared buckets := by
  obtain ⟨L, hfull, -⟩ := h
  rintro ⟨s, s', hne, hs, hs', hsome, heq⟩
  obtain ⟨y, hy⟩ := isSome_iff_exists.1 hsome
  exact hne (L.target_inj hfull hs hs' hy (heq ▸ hy))

theorem WF.inside (h : sg.WF buckets) : sg.Inside buckets := by
  obtain ⟨L, hfull, -⟩ := h
  intro s hs j hj
  refine L.slot_lt j ?_
  rw [L.own_target hfull hs hj]
  cases s with
  | slot i => exact hfull i hs
  | free => exact Owner.noConfusion
  | bucket b => exact Owner.noConfusion

/-! ### Deleting behind the predecessor -/

def shift (e p : Nat) : Equiv.Perm Source :=
  Equiv.swap .free (.slot e) * Equiv.swap (.slot e) (.slot p)

theorem shift_in (he : e < dirDepth * buckets) (hp : p < dirDepth * buckets) {s : Source} (hs : s.In buckets) :
    (shift e p s).In buckets := by
  simp only [shift, Equiv.Perm.mul_apply, Equiv.swap_apply_def]
  split_ifs <;> first | assumption | trivial

section Shift
variable (h0 : 0 < e) (hsmall : dirDepth * buckets ≤ 65536) (he : e < dirDepth * buckets)
include h0 hsmall he

theorem target_shift (hnext : sg.nextDir p = some e) (s : Source) :
    (sg.dirDeleteNext e p).1.target (shift e p s) = sg.target s := by
  have hfree : (sg.dirDeleteNext e p).1.target .free = some e := sg.dirDeleteNext_freelist e p h0 (by omega)
  have hslot : ∀ i, (sg.dirDeleteNext e p).1.target (.slot i) = _ := sg.dirDeleteNext_nextDir e p
  cases s with
  | free =>
    have hto : shift e p .free = .slot e := by simp [shift, Equiv.swap_apply_def]
    rw [hto, hslot, if_pos rfl, target]
  | bucket b => simp [shift, Equiv.swap_apply_def, target]
  | slot i =>
    by_cases hip : i = p
    · -- the link to `e` becomes the freelist's
      subst i
      have hto : shift e p (.slot p) = .free := by simp [shift]
      rw [hto, hfree, target, hnext]
    by_cases hie : i = e
    · subst i
      have hto : shift e p (.slot e) = .slot p := by simp [shift, Equiv.swap_apply_def, Ne.symm hip]
      rw [hto, hslot, if_neg (Ne.symm hip), if_pos rfl, target]
    · have hto : shift e p (.slot i) = .slot i := by simp [shift, Equiv.swap_apply_def, hip, hie]
      rw [hto, hslot, if_neg hie, if_neg hip, target]

theorem Shared.delete (hp : p < dirDepth * buckets) (h : sg.Shared buckets) (hnext : sg.nextDir p = some e) :
    (sg.dirDeleteNext e p).1.Shared buckets := by
  obtain ⟨s, s', hne, hs, hs', hsome, heq⟩ := h
  have hto := target_shift h0 hsmall he hnext
  exact ⟨shift e p s, shift e p s', (shift e p).injective.ne hne, shift_in he hp hs, shift_in he hp hs',
    by rwa [hto], by rw [hto, hto, heq]⟩

theorem Inside.delete (h : sg.Inside buckets) : (sg.dirDeleteNext e p).1.Inside buckets := by
  intro s hs j hj
  cases s with
  | free =>
    rw [target, sg.dirDeleteNext_freelist e p h0 (by omega)] at hj
    cases hj
    exact he
  | bucket b => exact h (.bucket b) hs j hj
  | slot i =>
    rw [target, dirDeleteNext_nextDir] at hj
    split_ifs at hj
    · exact h .free trivial j hj
    · exact h (.slot e) he j hj
    · exact h (.slot i) hs j hj

end Shift

/-! ### The pass -/

/-- Where the pass stands at `e` with `p`, in a segment with shared pointers: `p` points to `e`, as
long as the last entry of a cycle is not deleted behind itself. Then `e` is `p`, and the first free
entry; deleted once more it links to itself, and the pass goes on at the next free entry. -/
inductive Astray (buckets : Nat) (sg : Segment) (e p : Nat) : Prop
  | behind (next : sg.nextDir p = some e) (shared : sg.Shared buckets)
  | itself (same : e = p) (first : sg.target .free = some e) (shared : sg.Shared buckets)
  | loop (first : sg.target .free = some p) (self : sg.nextDir p = some p) (ne : e ≠ p)
      (shared : (sg.dirDeleteNext e p).1.Shared buckets)

theorem shared_of_self (hp : p < dirDepth * buckets) (hfirst : sg.target .free = some p)
    (hself : sg.nextDir p = some p) : sg.Shared buckets :=
  ⟨.free, .slot p, by simp, trivial, hp, by simp [hfirst], by rw [hfirst, target, hself]⟩

theorem Astray.shared (hp : p < dirDepth * buckets) (h : sg.Astray buckets e p) : sg.Shared buckets := by
  cases h with
  | behind _ hs => exact hs
  | itself _ _ hs => exact hs
  | loop hfirst hself => exact shared_of_self hp hfirst hself

theorem Shared.congr (h : sg.Shared buckets) (heq : ∀ s, sg'.target s = sg.target s) : sg'.Shared buckets := by
  obtain ⟨s, s', hne, hs, hs', hsome, hss⟩ := h
  exact ⟨s, s', hne, hs, hs', by rwa [heq], by rw [heq, heq, hss]⟩

theorem nextDir_pos {j : Nat} (h : sg.nextDir i = some j) : 0 < j := (dirFromOffset_eq_some.1 h).2

/-- **One deletion** leaves shared pointers, and the pass astray. -/
theorem Astray.delete (h0 : 0 < e) (hsmall : dirDepth * buckets ≤ 65536) (he : e < dirDepth * buckets)
    (hp : p < dirDepth * buckets) (hin : sg.Inside buckets) (h : sg.Astray buckets e p) :
    (sg.dirDeleteNext e p).1.Shared buckets ∧
      ∀ e' ∈ sg.nextDir e, (sg.dirDeleteNext e p).1.Astray buckets e' p := by
  have hfree : (sg.dirDeleteNext e p).1.target .free = some e := sg.dirDeleteNext_freelist e p h0 (by omega)
  have hnextDir := sg.dirDeleteNext_nextDir e p
  cases h with
  | behind next shared =>
    have hshared := shared.delete h0 hsmall he hp next
    refine ⟨hshared, fun e' he' => ?_⟩
    by_cases hpe : p = e
    · subst hpe
      obtain rfl : p = e' := some.inj (next.symm.trans he')
      exact .itself rfl hfree hshared
    · exact .behind ((hnextDir p).trans (by rw [if_neg hpe, if_pos rfl, he'])) hshared
  | itself same first shared =>
    subst same
    have hself : (sg.dirDeleteNext e e).1.nextDir e = some e := (hnextDir e).trans (by rw [if_pos rfl]; exact first)
    have hshared := shared_of_self hp hfree hself
    refine ⟨hshared, fun e' he' => ?_⟩
    by_cases hee : e' = e
    · rw [hee]
      exact .behind hself hshared
    · -- a deletion of `e'` next would leave the pointers of one without the detour
      have he0 := nextDir_pos he'
      have hlt := hin (.slot e) he e' he'
      refine .loop hfree hself hee ((shared.delete he0 hsmall hlt he he').congr fun s => ?_)
      cases s with
      | free =>
        exact (dirDeleteNext_freelist _ _ _ he0 (by omega)).trans (dirDeleteNext_freelist _ _ _ he0 (by omega)).symm
      | bucket b => rfl
      | slot i =>
        have h1 : dirFromOffset (sg.dirDeleteNext e e).1.freelist.toNat = dirFromOffset sg.freelist.toNat :=
          hfree.trans first.symm
        simp only [target, dirDeleteNext_nextDir, h1]
        grind
  | loop first self ne shared =>
    refine ⟨shared, fun e' he' => .behind ?_ shared⟩
    exact (hnextDir p).trans (by rw [if_neg (Ne.symm ne), if_pos rfl, he'])

theorem probeLoop_delete {Q : Segment → Prop} {n : Nat} (hq : Q (sg.dirDeleteNext e p).1)
    (hloop : ∀ e' ∈ sg.nextDir e,
      probeLoop valid base tag n (sg.dirDeleteNext e p).1 e' (some p) none = some (sg', r) → Q sg')
    (htag : dirTag (sg.dir e) = tag) (hval : ¬ valid (sg.dir e) = true)
    (hrun : probeLoop valid base tag (n + 1) sg e (some p) none = some (sg', r)) : Q sg' := by
  have hdel : sg.dirDeleteEntry e (some p) = ((sg.dirDeleteNext e p).1, sg.nextDir e) := rfl
  rw [probeLoop, if_pos ⟨htag, rfl⟩, if_neg hval, hdel] at hrun
  cases hn : sg.nextDir e with
  | none =>
    rw [hn] at hrun
    cases hrun
    exact hq
  | some e' =>
    rw [hn] at hrun
    exact hloop e' hn hrun

/-- **The rule of a pass** without a collision, behind a predecessor: what holds wherever it can stop. -/
theorem probeLoop_behind {I : Segment → Nat → Nat → Prop} {Q : Segment → Prop}
    (hstop : ∀ {sg e p}, I sg e p → Q sg)
    (hdelete : ∀ {sg e p}, I sg e p → Q (sg.dirDeleteNext e p).1 ∧
      ∀ e' ∈ sg.nextDir e, I (sg.dirDeleteNext e p).1 e' p)
    (hnext : ∀ {sg e p}, I sg e p → ∀ e' ∈ sg.nextDir e, I sg e' e) (n : Nat) :
    ∀ {sg e p}, I sg e p → probeLoop valid base tag n sg e (some p) none = some (sg', r) → Q sg' := by
  induction n with
  | zero => intro sg e p _ hrun; cases hrun
  | succ n ih =>
    intro sg e p h hrun
    by_cases htag : dirTag (sg.dir e) = tag
    · by_cases hval : valid (sg.dir e) = true
      · rw [probeLoop, if_pos ⟨htag, rfl⟩, if_pos hval] at hrun
        cases hrun
        exact hstop h
      · obtain ⟨hq, hI⟩ := hdelete h
        exact probeLoop_delete hq (fun e' he' => ih (hI e' he')) htag hval hrun
    · rw [probeLoop, if_neg (by simp [htag]), if_neg (by simp)] at hrun
      cases hn : sg.nextDir e with
      | none =>
        rw [hn] at hrun
        cases hrun
        exact hstop h
      | some e' =>
        rw [hn] at hrun
        exact ih (hnext h e' hn) hrun

/-- **The rest of the pass** leaves shared pointers. -/
theorem Astray.probeLoop (hsmall : dirDepth * buckets ≤ 65536) (n : Nat) (h : sg.Astray buckets e p)
    (hin : sg.Inside buckets) (h0 : 0 < e) (he : e < dirDepth * buckets) (hp : p < dirDepth * buckets)
    (hrun : probeLoop valid base tag n sg e (some p) none = some (sg', r)) : sg'.Shared buckets := by
  refine probeLoop_behind (I := fun sg e p => sg.Astray buckets e p ∧ sg.Inside buckets ∧ 0 < e ∧
    e < dirDepth * buckets ∧ p < dirDepth * buckets) ?_ ?_ ?_ n ⟨h, hin, h0, he, hp⟩ hrun
  · rintro sg e p ⟨h, -, -, -, hp⟩
    exact h.shared hp
  · rintro sg e p ⟨h, hin, h0, he, hp⟩
    obtain ⟨hshared, hnext⟩ := h.delete h0 hsmall he hp hin
    exact ⟨hshared, fun e' he' => ⟨hnext e' he', hin.delete h0 hsmall he, nextDir_pos he',
      hin (.slot e) he e' he', hp⟩⟩
  · rintro sg e p ⟨h, hin, h0, he, hp⟩ e' he'
    exact ⟨.behind he' (h.shared hp), hin, nextDir_pos he', hin (.slot e) he e' he', he⟩

/-! ### Bucket `0` -/

/-- A set of slots that the pass does not leave. -/
structure Closed (S : Set Nat) (sg : Segment) : Prop where
  next : ∀ i ∈ S, ∀ j ∈ sg.nextDir i, j ∈ S
  free : ∀ j ∈ sg.target .free, j ∈ S

theorem Closed.delete {S : Set Nat} (h : sg.Closed S) (he : e ∈ S) (hlt : e < 65536) :
    (sg.dirDeleteNext e p).1.Closed S where
  next i hi j hj := by
    rw [dirDeleteNext_nextDir] at hj
    split_ifs at hj
    · exact h.free j hj
    · exact h.next e he j hj
    · exact h.next i hi j hj
  free j hj := by
    obtain ⟨hj, -⟩ := dirFromOffset_eq_some.1 hj
    have : (sg.dirDeleteNext e p).1.freelist.toNat = e := (BitVec.toNat_ofNat e 16).trans (Nat.mod_eq_of_lt hlt)
    rwa [← hj, this]

theorem Closed.probeLoop {S : Set Nat} (hS : ∀ i ∈ S, i < 65536) (hi : i ∉ S) (n : Nat)
    (h : sg.Closed S) (he : e ∈ S) (hp : p ∈ S)
    (hrun : probeLoop valid base tag n sg e (some p) none = some (sg', r)) :
    sg'.nextDir i = sg.nextDir i ∧ dirOffset (sg'.dir i) = dirOffset (sg.dir i) := by
  let Q (t : Segment) : Prop := t.nextDir i = sg.nextDir i ∧ dirOffset (t.dir i) = dirOffset (sg.dir i)
  refine probeLoop_behind (I := fun t e p => t.Closed S ∧ e ∈ S ∧ p ∈ S ∧ Q t) (Q := Q) ?_ ?_ ?_ n
    ⟨h, he, hp, rfl, rfl⟩ hrun
  · exact fun h => h.2.2.2
  · rintro t e p ⟨h, he, hp, hsame⟩
    have hie : i ≠ e := fun heq => hi (heq ▸ he)
    have hip : i ≠ p := fun heq => hi (heq ▸ hp)
    have hkept : Q (t.dirDeleteNext e p).1 := by
      simp only [Q, dirDeleteNext_nextDir, dirDeleteNext_offset, if_neg hie, if_neg hip]
      exact hsame
    exact ⟨hkept, fun e' he' => ⟨h.delete he (hS e he), h.next e he e' he', hp, hkept⟩⟩
  · rintro t e p ⟨h, he, -, hsame⟩ e' he'
    exact ⟨h, h.next e he e' he', he, hsame⟩

/-! ### A stray probe -/

/-- A pass that does not meet its collision looks at every entry, and leaves the last one as `p`. -/
theorem probeLoop_missing (L : Layout buckets sg) (hb : b < buckets) {c : Nat} (n : Nat) :
    ∀ (l₁ : List Nat) {l₂ : List Nat} {e : Nat} {p : Option Nat}, L.chain b = l₁ ++ e :: l₂ → l₂.length < n →
      (∀ i ∈ e :: l₂, dirTag (sg.dir i) = tag → c ≠ base + i) →
      probeLoop valid base tag n sg e p (some c) = some (sg, none, (e :: l₂).getLast?, some c) := by
  induction n with
  | zero => intro l₁ l₂ e p _ hlen; exact absurd hlen (Nat.not_lt_zero _)
  | succ n ih =>
    intro l₁ l₂ e p hC hlen hmiss
    have hleft : ¬ (dirTag (sg.dir e) = tag ∧ some c = some (base + e)) := fun ⟨ht, hc⟩ =>
      hmiss e mem_cons_self ht (some.inj hc)
    rw [probeLoop, if_neg (by simp), if_neg hleft, L.next_eq hb hC]
    cases l₂ with
    | nil => rfl
    | cons e' l₂ =>
      rw [getLast?_cons_cons]
      exact ih (l₁ ++ [e]) (by simpa using hC) (by simpa using hlen) fun i hi => hmiss i (mem_cons_of_mem _ hi)

theorem WF.nextDir_of_empty (h : sg.WF buckets) (hb : b < buckets) (he : dirOffset (sg.dir (dirBucket b)) = 0) :
    sg.nextDir (dirBucket b) = none := by
  obtain ⟨L, -, ht⟩ := h
  obtain ⟨l, hl⟩ := L.chain_eq_cons hb
  rcases ht b hb with hsolid | ⟨hc, -⟩
  · exact absurd he (hsolid _ (by simp [hl]))
  · exact L.next_head hb hc

section Stray
variable {q : Nat} {xs : List Nat} (L : Layout buckets sg) (hsmall : dirDepth * buckets ≤ 65536)
  (hb : b < buckets) (hC : L.chain b = dirBucket b :: xs) (hq : (dirBucket b :: xs).getLast? = some q)
include L hsmall hb hC hq

/-- The head of a bucket other than `0`, deleted behind the last entry of its chain. -/
theorem astray_delete_head (hpos : 0 < dirBucket b) : (sg.dirDeleteNext (dirBucket b) q).1.Shared buckets ∧
    ∀ e ∈ sg.nextDir (dirBucket b), (sg.dirDeleteNext (dirBucket b) q).1.Astray buckets e q := by
  have hlt : dirBucket b < dirDepth * buckets := L.mem_chain_lt (b := b) (by simp [hC])
  have hshared : (sg.dirDeleteNext (dirBucket b) q).1.Shared buckets := by
    have hfree := sg.dirDeleteNext_freelist (dirBucket b) q hpos (by omega)
    exact ⟨.free, .bucket b, by simp, trivial, hb, by simp [target, hfree], hfree⟩
  refine ⟨hshared, fun e he => .behind ?_ hshared⟩
  rw [L.next_head hb hC] at he
  have hne : q ≠ dirBucket b := by
    have hnd : (dirBucket b :: xs).Nodup := hC ▸ L.chain_nodup hb
    cases xs with
    | nil => cases he
    | cons y ys =>
      exact fun h => (nodup_cons.1 hnd).1 (h ▸ mem_of_getLast? hq)
  rw [dirDeleteNext_nextDir, if_neg hne, if_pos rfl, L.next_head hb hC]
  exact he

omit hsmall hq in
/-- The head of bucket `0`: what is left of the chain is a cycle, and the freelist is lost. -/
theorem closed_delete_head (hzero : dirBucket b = 0) :
    (sg.dirDeleteNext (dirBucket b) q).1.Closed {i | i ∈ xs} where
  next i hi j hj := by
    have hnd : (dirBucket b :: xs).Nodup := hC ▸ L.chain_nodup hb
    have hw : Walk sg.nextDir (some (dirBucket b)) (dirBucket b :: xs) none := hC ▸ L.chain_walk b hb
    have hib : i ≠ dirBucket b := fun h => (nodup_cons.1 hnd).1 (h ▸ hi)
    rw [dirDeleteNext_nextDir, if_neg hib] at hj
    split_ifs at hj
    · rw [L.next_head hb hC] at hj
      exact mem_of_mem_head? hj
    · have hmem := mem_cons_of_mem (dirBucket b) hi
      refine (mem_cons.1 (hw.mem_of_next hmem hj)).resolve_left fun h => ?_
      exact hw.not_next_first hmem (h ▸ hj)
  free j hj := by
    rw [hzero] at hj
    cases hj

end Stray

/-- **A stray probe** does not leave a well-formed segment. -/
theorem Stray.not_wf (hsmall : dirDepth * buckets ≤ 65536) (hb : b < buckets) (h : sg.WF buckets)
    (hfree : b ≠ 0 ∨ sg.freelist ≠ 0) (hst : sg.Stray valid buckets base b (dirMaskTag tag) last)
    (hrun : sg.dirProbe valid buckets base (dirBucket b) tag last = some (sg', hit)) : ¬ sg'.WF buckets := by
  have hin := h.inside
  obtain ⟨L, hfull, htight⟩ := h
  obtain ⟨⟨c, hc, hmiss⟩, hused, htag, hval⟩ := hst
  obtain ⟨xs, hC, hlen⟩ := L.exists_chain_tail hb
  obtain ⟨q, hq⟩ : ∃ q, (dirBucket b :: xs).getLast? = some q := ⟨_, getLast?_eq_some_getLast (cons_ne_nil _ _)⟩
  have hlt : dirBucket b < dirDepth * buckets := L.mem_chain_lt (b := b) (by simp [hC])
  have hqlt : q < dirDepth * buckets := L.mem_chain_lt (b := b) (hC ▸ mem_of_getLast? hq)
  -- the first pass does nothing, and the second one deletes the head behind `q`
  rw [L.bucketChain_eq hb, hC] at hmiss
  obtain rfl : last = some c := hc
  rw [dirProbe, probePass, if_neg (by simpa [dirIsEmpty] using hused),
    probeLoop_missing L hb _ [] hC (by omega) hmiss, hq] at hrun
  obtain ⟨_, hfirst, hrun⟩ := bind_eq_some_iff.1 hrun
  cases hfirst
  obtain ⟨⟨sg2, hit2, r⟩, hpass, hret⟩ := bind_eq_some_iff.1 hrun
  cases hret
  rw [probePass, if_neg (by simpa [dirIsEmpty] using hused)] at hpass
  intro hwf
  by_cases hpos : 0 < dirBucket b
  · obtain ⟨hshared, hastray⟩ := astray_delete_head L hsmall hb hC hq hpos
    refine hwf.not_shared (probeLoop_delete hshared (fun e he => ?_) htag (by simp [hval]) hpass)
    exact (hastray e he).probeLoop hsmall _ (hin.delete hpos hsmall hlt) (nextDir_pos he)
      (hin (.slot _) hlt e he) hqlt
  · -- the head links to the freelist that it was put on
    have hzero : dirBucket b = 0 := by omega
    have hb0 : b = 0 := (Nat.mul_eq_zero.1 hzero).resolve_right (by decide)
    have hlost : (sg.dirDeleteNext (dirBucket b) q).1.nextDir (dirBucket b) ≠ none := by
      rw [dirDeleteNext_nextDir, if_pos rfl, Ne, dirFromOffset_eq_none]
      exact fun h => hfree.resolve_left (absurd hb0) (BitVec.eq_of_toNat_eq h)
    have hempty : dirOffset ((sg.dirDeleteNext (dirBucket b) q).1.dir (dirBucket b)) = 0 := by
      rw [dirDeleteNext_offset, if_pos rfl]
    let Q (t : Segment) : Prop := dirOffset (t.dir (dirBucket b)) = 0 ∧ t.nextDir (dirBucket b) ≠ none
    suffices hend : Q _ from hend.2 (hwf.nextDir_of_empty hb hend.1)
    refine probeLoop_delete (Q := Q) ⟨hempty, hlost⟩ (fun e he hloop => ?_) htag (by simp [hval]) hpass
    rw [L.next_head hb hC] at he
    have hqx : q ∈ xs := by
      cases xs with
      | nil => cases he
      | cons y ys => exact mem_of_getLast? (getLast?_cons_cons ▸ hq)
    have hnd : (dirBucket b :: xs).Nodup := hC ▸ L.chain_nodup hb
    have hS : ∀ i ∈ {i | i ∈ xs}, i < 65536 := fun i hi =>
      (L.mem_chain_lt (b := b) (by rw [hC]; exact mem_cons_of_mem _ hi)).trans_le hsmall
    obtain ⟨hnext, hoff⟩ := (closed_delete_head L hb hC hzero).probeLoop hS (nodup_cons.1 hnd).1 _
      (mem_of_mem_head? he) hqx hloop
    exact ⟨hoff.trans hempty, hnext ▸ hlost⟩

end Segment

end TrafficServer
