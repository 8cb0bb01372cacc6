import TrafficServer.Cache.Layout

/-!
# Deleting entries

What `dir_delete_entry` and the loops around it do to a segment with a layout: the chain walked
over loses entries, every other chain and its entries stay as they are, and the slots that were
taken out go to the freelist. A loop stands at an entry `e` of a chain `l₁ ++ e :: l₂` with the
last slot of `l₁` as its predecessor pointer; deleting the bucket head moves the next entry into
its slot, so that the slots to come change but what they say does not (`Deleted`).
-/

namespace TrafficServer

open Function List Linked Segment

/-- What the chain `l` says: its entries, without an empty bucket head. -/
def live (sg : Segment) (l : List Nat) : List Content :=
  (l.map sg.content).filter fun c => c.offset ≠ 0

variable {sg sg' sg'' : Segment} {l l₁ l₂ : List Nat} {buckets b e p i : Nat}

@[simp] theorem live_nil : live sg [] = [] := rfl

@[simp] theorem live_append : live sg (l₁ ++ l₂) = live sg l₁ ++ live sg l₂ := by simp [live]

theorem live_cons : live sg (e :: l) = if dirOffset (sg.dir e) = 0 then live sg l else sg.content e :: live sg l := by
  by_cases h : dirOffset (sg.dir e) = 0 <;> simp [live, h, content]

theorem live_congr (h : ∀ i ∈ l, sg'.content i = sg.content i) : live sg' l = live sg l := by
  unfold live
  rw [map_congr_left h]

theorem live_of_map {l' : List Nat} (h : l'.map sg'.content = l.map sg.content) : live sg' l' = live sg l := by
  rw [live, live, h]

theorem live_of_solid (h : ∀ i ∈ l, dirOffset (sg.dir i) ≠ 0) : live sg l = l.map sg.content := by
  refine filter_eq_self.2 fun c hc => ?_
  obtain ⟨i, hi, rfl⟩ := mem_map.1 hc
  exact decide_eq_true (h i hi)

namespace Layout

/-- Clause (e) of the representation invariant for one bucket: its entries are not empty, or it is
an empty head alone. -/
def Tight (L : Layout buckets sg) (b : Nat) : Prop :=
  (∀ i ∈ L.chain b, dirOffset (sg.dir i) ≠ 0) ∨
    (L.chain b = [dirBucket b] ∧ dirOffset (sg.dir (dirBucket b)) = 0)

/-- Every slot is accounted for, and no chain has an empty one in it. -/
def Packed (L : Layout buckets sg) : Prop := L.Full ∧ ∀ b < buckets, L.Tight b

theorem Tight.solid {L : Layout buckets sg} (h : L.Tight b)
    (hne : dirOffset (sg.dir (dirBucket b)) ≠ 0) : ∀ i ∈ L.chain b, dirOffset (sg.dir i) ≠ 0 :=
  h.resolve_right fun h' => hne h'.2

/-- A bucket after a clean: its entries are not empty, or it is a cleared head alone. -/
def Swept (L : Layout buckets sg) (b : Nat) : Prop :=
  (∀ i ∈ L.chain b, dirOffset (sg.dir i) ≠ 0) ∨
    (L.chain b = [dirBucket b] ∧ sg.dir (dirBucket b) = dirClear)

theorem Swept.tight {L : Layout buckets sg} (h : L.Swept b) : L.Tight b :=
  h.imp_right fun ⟨hc, he⟩ => ⟨hc, by rw [he]; rfl⟩

/-- From `L` to `L'` nothing has happened to the chains other than `b`'s, and no slot was lost. -/
structure Only (L : Layout buckets sg) (b : Nat) (L' : Layout buckets sg') : Prop where
  chain : ∀ b' ≠ b, L'.chain b' = L.chain b'
  dir : ∀ b' ≠ b, ∀ i ∈ L.chain b', sg'.dir i = sg.dir i
  full : L.Full → L'.Full

theorem Only.refl (L : Layout buckets sg) : L.Only b L := ⟨fun _ _ => rfl, fun _ _ _ _ => rfl, id⟩

theorem Only.trans {L : Layout buckets sg} {L' : Layout buckets sg'} {L'' : Layout buckets sg''}
    (h : L.Only b L') (h' : L'.Only b L'') : L.Only b L'' where
  chain b' hb := (h'.chain b' hb).trans (h.chain b' hb)
  dir b' hb i hi := (h'.dir b' hb i (by rwa [h.chain b' hb])).trans (h.dir b' hb i hi)
  full := h'.full ∘ h.full

section Only
variable {L : Layout buckets sg} {L' : Layout buckets sg'} (h : L.Only b L') {b' : Nat} (hb : b' ≠ b)
include h hb

theorem Only.live_eq : live sg' (L'.chain b') = live sg (L.chain b') := by
  rw [h.chain b' hb]
  exact live_congr fun i hi => congrArg Dir.content (h.dir b' hb i hi)

theorem Only.solid_or {p : Dir → Prop} (ht : (∀ i ∈ L.chain b', dirOffset (sg.dir i) ≠ 0) ∨
      (L.chain b' = [dirBucket b'] ∧ p (sg.dir (dirBucket b')))) : (∀ i ∈ L'.chain b', dirOffset (sg'.dir i) ≠ 0) ∨
      (L'.chain b' = [dirBucket b'] ∧ p (sg'.dir (dirBucket b'))) := by
  have hdir := h.dir b' hb
  rw [h.chain b' hb]
  rcases ht with ht | ⟨hc, ht⟩
  · exact .inl fun i hi => by rw [hdir i hi]; exact ht i hi
  · exact .inr ⟨hc, by rw [hdir _ (by simp [hc])]; exact ht⟩

theorem Only.tight (ht : L.Tight b') : L'.Tight b' := h.solid_or hb (p := (dirOffset · = 0)) ht

theorem Only.swept (ht : L.Swept b') : L'.Swept b' := h.solid_or hb (p := (· = dirClear)) ht

end Only

theorem Only.packed {L : Layout buckets sg} {L' : Layout buckets sg'} (h : L.Only b L') (hp : L.Packed)
    (ht : L'.Tight b) : L'.Packed := by
  refine ⟨h.full hp.1, fun b' hb' => ?_⟩
  by_cases hb : b' = b
  · exact hb ▸ ht
  · exact h.tight hb (hp.2 b' hb')

variable (L : Layout buckets sg)

theorem pos_of_linked (hb : b < buckets) (hC : L.chain b = l₁ ++ p :: e :: l₂) : 0 < e := by
  have hw : Walk _ _ (l₁ ++ p :: e :: l₂) _ := hC ▸ L.chain_walk b hb
  have hn : sg.nextDir p = some e := hw.next_eq
  exact (dirFromOffset_eq_some.1 hn).2

theorem chain_length_le (hb : b < buckets) : (L.chain b).length ≤ dirDepth * buckets := by
  rw [← toFinset_card_of_nodup (L.chain_nodup hb), ← Finset.card_range (dirDepth * buckets)]
  exact Finset.card_le_card fun i hi => Finset.mem_range.2 (L.mem_chain_lt (b := b) (mem_toFinset.1 hi))

theorem exists_chain_tail (hb : b < buckets) :
    ∃ l, L.chain b = dirBucket b :: l ∧ l.length < dirDepth * buckets + 1 := by
  obtain ⟨l, hl⟩ := L.chain_eq_cons hb
  have hlen := L.chain_length_le hb
  rw [hl, length_cons] at hlen
  exact ⟨l, hl, by omega⟩

theorem next_eq (hb : b < buckets) (hC : L.chain b = l₁ ++ e :: l₂) : sg.nextDir e = l₂.head? :=
  (hC ▸ L.chain_walk b hb : Walk _ _ (l₁ ++ e :: l₂) _).next_eq

/-- How a chain `l₁ ++ e :: l₂` has lost the entry at `e`; `r` is the entry to go on with. -/
inductive Deleted (L : Layout buckets sg) (b : Nat) (l₁ l₂ : List Nat) (r : Option Nat)
    (L' : Layout buckets sg') : Prop
  | entry (l : List Nat) (chain : L'.chain b = l₁ ++ l) (next : r = l.head?)
      (rest : l.map sg'.content = l₂.map sg.content)
      (done : ∀ i ∈ l₁, sg'.content i = sg.content i) (only : L.Only b L')
  | last (before : l₁ = []) (after : l₂ = []) (chain : L'.chain b = [dirBucket b]) (next : r = none)
      (empty : sg'.dir (dirBucket b) = dirClear) (only : L.Only b L')

section Delete
variable (hsmall : dirDepth * buckets ≤ 65536) (hb : b < buckets)
include hsmall hb

/-- The deletion of `e` behind `p`, from the state `sg₁` in which `e` is cleared, `p` has taken over
its link (and possibly its data), and `e` is about to go to the freelist. -/
theorem unlink_pushFree {sg1 : Segment} (hC : L.chain b = l₁ ++ p :: e :: l₂) (he1 : sg1.dir e = dirClear)
    (hp1 : sg1.nextDir p = sg.nextDir e) (hdir1 : ∀ x, x ≠ p → x ≠ e → sg1.dir x = sg.dir x)
    (hf1 : sg1.freelist = sg.freelist) :
    ∃ L' : Layout buckets (sg1.pushFree e), L.Only b L' ∧ L'.chain b = l₁ ++ p :: l₂ ∧
      ∀ i ∈ l₁ ++ p :: l₂, (sg1.pushFree e).content i = sg1.content i := by
  have hchain : ∀ {x}, x ∈ l₁ ++ p :: e :: l₂ → x ∉ L.free := fun hx => L.not_mem_free (hC ▸ hx)
  have hnd : (l₁ ++ p :: e :: l₂).Nodup := hC ▸ L.chain_nodup hb
  have hfree1 : ∀ x ∈ L.free, sg1.dir x = sg.dir x := fun x hx =>
    hdir1 x (by rintro rfl; exact hchain (by simp) hx) (by rintro rfl; exact hchain (by simp) hx)
  let L1 : Layout buckets sg1 := L.unlinkChain hb hC hp1 (fun x hp he => by rw [nextDir, hdir1 x hp he]; rfl)
    (fun x hx => by rw [prevDir, hfree1 x hx]; exact ⟨rfl, L.free_empty x hx⟩) hf1
  have hown : L1.own e = .loose := update_self ..
  let L2 : Layout buckets (sg1.pushFree e) := L1.pushFree hsmall hown (L.pos_of_linked hb hC)
    (L.mem_chain_lt (b := b) (by simp [hC])) (by rw [he1]; rfl) (by rw [prevDir, he1]; rfl)
  have hdir2 : ∀ x, x ≠ e → x ∉ L.free → (sg1.pushFree e).dir x = sg1.dir x := by
    intro x he hx
    refine pushFree_dir _ _ _ he fun h => hx ?_
    exact mem_of_head? (L.free_walk.head?_eq.trans (hf1 ▸ h.symm))
  refine ⟨L2, ⟨?_, ?_, ?_⟩, ?_, ?_⟩
  · intro b' hb'
    exact update_of_ne hb' ..
  · intro b' hb' x hx
    have hx' : x ∉ L.chain b := L.chain_disjoint hb' hx
    rw [hC] at hx'
    refine (hdir2 x ?_ (L.not_mem_free hx)).trans (hdir1 x ?_ ?_)
    all_goals rintro rfl; simp at hx'
  · intro hfull x hx
    change update (update L.own e .loose) e .free x ≠ .loose
    by_cases h : x = e
    · simp [h]
    · simpa [h] using hfull x hx
  · exact update_self ..
  · intro x hx
    exact congrArg Dir.content (hdir2 x (by grind) (hchain (by grind)))

theorem dirDeleteNext_spec (hC : L.chain b = l₁ ++ p :: e :: l₂) : ∃ L' : Layout buckets (sg.dirDeleteNext e p).1,
      L.Deleted b (l₁ ++ [p]) l₂ (sg.dirDeleteNext e p).2 L' := by
  have hpe : p ≠ e := by
    have hnd : (l₁ ++ p :: e :: l₂).Nodup := hC ▸ L.chain_nodup hb
    grind
  let sg1 := ({ sg with dirty := true }.set e dirClear).setNext p (dirNext (sg.dir e))
  have he1 : sg1.dir e = dirClear := by rw [setNext_dir, if_neg hpe.symm, set_dir, if_pos rfl]
  have hp1 : sg1.nextDir p = sg.nextDir e := by
    rw [nextDir_setNext, if_pos rfl, Nat.mod_eq_of_lt (dirNext_lt _)]
    rfl
  have hdir1 : ∀ x, x ≠ p → x ≠ e → sg1.dir x = sg.dir x := by
    intro x hp he
    rw [setNext_dir, if_neg hp, set_dir, if_neg he]
  have hcontent1 : ∀ x, x ≠ e → sg1.content x = sg.content x := by
    intro x he
    rw [setNext_content, content, set_dir, if_neg he]
    rfl
  obtain ⟨L', hOnly, hC', hcont⟩ := L.unlink_pushFree hsmall hb hC he1 hp1 hdir1 rfl
  have hnd : (l₁ ++ p :: e :: l₂).Nodup := hC ▸ L.chain_nodup hb
  have hsame : ∀ x ∈ l₁ ++ p :: l₂, (sg1.pushFree e).content x = sg.content x := fun x hx =>
    (hcont x hx).trans (hcontent1 x (by grind))
  refine ⟨L', .entry l₂ (by simpa using hC') ?_ ?_ ?_ hOnly⟩
  · exact L.next_eq hb (show L.chain b = (l₁ ++ [p]) ++ e :: l₂ by simpa using hC)
  · exact map_congr_left fun x hx => hsame x (by simp [hx])
  · exact fun x hx => hsame x (by grind)

theorem dirDeleteHead_spec {n : Nat} (hC : L.chain b = e :: n :: l₂) :
    ∃ L' : Layout buckets (({ sg with dirty := true }.set e (sg.dir n)).dirDeleteNext n e).1,
      L.Deleted b [] (n :: l₂) (some e) L' := by
  have hnd : (e :: n :: l₂).Nodup := hC ▸ L.chain_nodup hb
  have hne : e ≠ n := by grind
  let sg0 := { sg with dirty := true }.set e (sg.dir n)
  have hn0 : sg0.dir n = sg.dir n := by rw [set_dir, if_neg hne.symm]
  have he0 : sg0.dir e = sg.dir n := by rw [set_dir, if_pos rfl]
  let sg1 := ({ sg0 with dirty := true }.set n dirClear).setNext e (dirNext (sg0.dir n))
  have hn1 : sg1.dir n = dirClear := by rw [setNext_dir, if_neg hne.symm, set_dir, if_pos rfl]
  have he1 : sg1.nextDir e = sg.nextDir n := by
    rw [nextDir_setNext, if_pos rfl, Nat.mod_eq_of_lt (dirNext_lt _), hn0]
    rfl
  have hdir1 : ∀ x, x ≠ e → x ≠ n → sg1.dir x = sg.dir x := by
    intro x he hn
    rw [setNext_dir, if_neg he, set_dir, if_neg hn, set_dir, if_neg he]
  obtain ⟨L', hOnly, hC', hcont⟩ :=
    L.unlink_pushFree hsmall hb (show L.chain b = [] ++ e :: n :: l₂ from hC) hn1 he1 hdir1 rfl
  refine ⟨L', .entry (e :: l₂) hC' rfl ?_ (by simp) hOnly⟩
  have hhead : (sg1.pushFree n).content e = sg.content n := by
    refine (hcont e (by simp)).trans ((setNext_content ..).trans ?_)
    rw [content, set_dir, if_neg hne, he0]
    rfl
  have hrest : l₂.map (sg1.pushFree n).content = l₂.map sg.content := by
    refine map_congr_left fun x hx => (hcont x (by simp [hx])).trans ?_
    rw [content, hdir1 x (by grind) (by grind)]
    rfl
  exact congrArg₂ List.cons hhead hrest

/-- **`dir_delete_entry`**, as the loops call it: `p` is the entry before `e`, if there is one. -/
theorem dirDeleteEntry_spec (hC : L.chain b = l₁ ++ e :: l₂) :
    ∃ L' : Layout buckets (sg.dirDeleteEntry e l₁.getLast?).1,
      L.Deleted b l₁ l₂ (sg.dirDeleteEntry e l₁.getLast?).2 L' := by
  rcases eq_nil_or_concat l₁ with rfl | ⟨l, p, rfl⟩
  · have hnext : sg.nextDir e = l₂.head? := L.next_eq hb hC
    cases l₂ with
    | cons n l3 =>
      have h : sg.dirDeleteEntry e ([] : List Nat).getLast? =
          ((({ sg with dirty := true }.set e (sg.dir n)).dirDeleteNext n e).1, some e) := by
        simp [dirDeleteEntry, hnext]
      rw [h]
      exact L.dirDeleteHead_spec hsmall hb hC
    | nil =>
      have h : sg.dirDeleteEntry e ([] : List Nat).getLast? = ({ sg with dirty := true }.set e dirClear, none) := by
        simp [dirDeleteEntry, hnext]
      rw [h]
      obtain rfl : e = dirBucket b := by
        obtain ⟨l, hl⟩ := L.chain_eq_cons hb
        exact (List.cons.inj (hC.symm.trans hl)).1
      have hdir : ∀ x, x ≠ dirBucket b → ({ sg with dirty := true }.set (dirBucket b) dirClear).dir x = sg.dir x := by
        intro x hx
        rw [set_dir, if_neg hx]
      have hown := L.own_bucket hb
      let L' : Layout buckets ({ sg with dirty := true }.set (dirBucket b) dirClear) := L.congr
        (by
          intro x _
          by_cases hx : x = dirBucket b
          · rw [hx, hnext, nextDir, set_dir, if_pos rfl]
            rfl
          · rw [nextDir, hdir x hx]
            rfl)
        (by
          intro x hx
          have hx' : x ≠ dirBucket b := by
            rintro rfl
            exact L.bucket_not_mem_free hb hx
          rw [prevDir, hdir x hx']
          exact ⟨rfl, L.free_empty x hx⟩) rfl
      refine ⟨L', .last rfl rfl hC rfl (by rw [set_dir, if_pos rfl]) ⟨fun _ _ => rfl, ?_, id⟩⟩
      intro b' hb' x hx
      refine hdir x ?_
      rintro rfl
      rw [L.mem_chain, hown] at hx
      exact hb' (Owner.chain.inj hx).symm
  · rw [concat_eq_append, getLast?_concat]
    exact L.dirDeleteNext_spec hsmall hb (by simpa using hC)

end Delete

section Deleted
variable {L} {L' : Layout buckets sg'} {r : Option Nat}

section
variable (h : L.Deleted b l₁ l₂ r L')

include h

theorem Deleted.only : L.Only b L' := by cases h <;> assumption

theorem Deleted.live_eq : live sg' (L'.chain b) = live sg l₁ ++ live sg l₂ := by
  cases h with
  | entry l chain _ rest done => rw [chain, live_append, live_congr done, live_of_map rest]
  | last before after chain _ empty => simp [before, after, chain, live_cons, empty]

theorem Deleted.solid (hall : ∀ i ∈ l₁ ++ l₂, dirOffset (sg.dir i) ≠ 0) :
    (∀ i ∈ L'.chain b, dirOffset (sg'.dir i) ≠ 0) ∨
      (r = none ∧ L'.chain b = [dirBucket b] ∧ dirOffset (sg'.dir (dirBucket b)) = 0) := by
  cases h with
  | entry l chain _ rest done =>
    refine .inl fun i hi => ?_
    rw [chain, mem_append] at hi
    rcases hi with hi | hi
    · have : dirOffset (sg'.dir i) = dirOffset (sg.dir i) := congrArg Content.offset (done i hi)
      rw [this]
      exact hall i (by simp [hi])
    · have hmem : sg'.content i ∈ l₂.map sg.content := rest ▸ mem_map_of_mem hi
      obtain ⟨j, hj, hij⟩ := mem_map.1 hmem
      have : dirOffset (sg.dir j) = dirOffset (sg'.dir i) := congrArg Content.offset hij
      rw [← this]
      exact hall j (by simp [hj])
  | last _ _ chain next empty => exact .inr ⟨next, chain, by rw [empty]; rfl⟩

end

end Deleted

/-! ### Cleaning -/

section Clean
variable {valid : Dir → Bool} {v : Content → Bool}

theorem filter_live (h : ∀ i ∈ l, v (sg.content i) = true ∧ (sg.content i).offset ≠ 0) :
    (live sg l).filter v = live sg l := by
  refine filter_eq_self.2 fun c hc => ?_
  obtain ⟨i, hi, rfl⟩ := mem_map.1 (mem_filter.1 hc).1
  exact (h i hi).1

variable (hsmall : dirDepth * buckets ≤ 65536) (hv : ∀ d, valid d = v d.content)
include hsmall hv

theorem cleanLoop_spec (hb : b < buckets) (n : Nat) :
    ∀ {sg : Segment} (L : Layout buckets sg) (l₁ : List Nat) {l₂ : List Nat} {e : Nat},
      L.chain b = l₁ ++ e :: l₂ → l₂.length < n → (∀ i ∈ l₁, v (sg.content i) = true ∧ (sg.content i).offset ≠ 0) →
      ∃ sg', cleanLoop valid n sg e l₁.getLast? = some sg' ∧ ∃ L' : Layout buckets sg',
        L.Only b L' ∧ L'.Swept b ∧ live sg' (L'.chain b) = (live sg (L.chain b)).filter v := by
  induction n with
  | zero => intro sg L l₁ l₂ e _ h; exact absurd h (Nat.not_lt_zero _)
  | succ n ih =>
    intro sg L l₁ l₂ e hC hlen hkept
    rw [cleanLoop]
    split_ifs
    · obtain ⟨L', hdeleted⟩ := L.dirDeleteEntry_spec hsmall hb hC
      generalize sg.dirDeleteEntry e l₁.getLast? = res at L' hdeleted ⊢
      obtain ⟨sg', r⟩ := res
      have hdrop : (live sg (e :: l₂)).filter v = (live sg l₂).filter v := by
        rw [live_cons]
        split
        · rfl
        · have hinv : v (sg.content e) = false := by simp_all [dirIsEmpty, content]
          rw [filter_cons_of_neg (by simp [hinv])]
      have hlive : (live sg' (L'.chain b)).filter v = (live sg (L.chain b)).filter v := by
        rw [hdeleted.live_eq, hC, live_append, filter_append, filter_append, hdrop]
      have honly := hdeleted.only
      cases hdeleted with
      | last _ _ chain next empty =>
        obtain rfl : r = none := next
        refine ⟨sg', rfl, L', honly, .inr ⟨chain, empty⟩, ?_⟩
        have hnil : live sg' (L'.chain b) = [] := by rw [chain, live_cons, if_pos (by rw [empty]; rfl), live_nil]
        rw [← hlive, hnil, filter_nil]
      | entry l chain next rest done =>
        have hkept' : ∀ i ∈ l₁, v (sg'.content i) = true ∧ (sg'.content i).offset ≠ 0 :=
          fun i hi => by rw [done i hi]; exact hkept i hi
        cases l with
        | nil =>
          obtain rfl : r = none := next
          rw [append_nil] at chain
          refine ⟨sg', rfl, L', honly, .inl fun i hi => (hkept' i (chain ▸ hi)).2, ?_⟩
          rw [← hlive, chain, filter_live hkept']
        | cons e' l =>
          obtain rfl : r = some e' := next
          have hlen' : l.length < n := by
            have := congrArg List.length rest
            simp at this
            omega
          obtain ⟨sg'', hrun, L'', honly', htight, hlive'⟩ := ih L' l₁ chain hlen' hkept'
          exact ⟨sg'', hrun, L'', honly.trans honly', htight, hlive'.trans hlive⟩
    · have hkept' : ∀ i ∈ l₁ ++ [e], v (sg.content i) = true ∧ (sg.content i).offset ≠ 0 := by
        intro i hi
        rcases mem_append.1 hi with hi | hi
        · exact hkept i hi
        · rw [mem_singleton.1 hi]
          simp_all [dirIsEmpty, content]
      rw [L.next_eq hb hC]
      cases l₂ with
      | nil =>
        refine ⟨sg, rfl, L, .refl L, .inl fun i hi => (hkept' i (hC ▸ hi)).2, ?_⟩
        rw [hC, filter_live hkept']
      | cons e' l₂ =>
        have hlast : (l₁ ++ [e]).getLast? = some e := getLast?_concat ..
        have hrun := ih L (l₁ ++ [e]) (by simpa using hC) (by simp at hlen; omega) hkept'
        rwa [hlast] at hrun

/-- **`dir_clean_bucket`** keeps exactly the valid entries of the bucket. -/
theorem dirCleanBucket_spec (hb : b < buckets) :
    ∃ sg', sg.dirCleanBucket valid buckets (dirBucket b) = some sg' ∧ ∃ L' : Layout buckets sg',
      L.Only b L' ∧ L'.Swept b ∧ live sg' (L'.chain b) = (live sg (L.chain b)).filter v := by
  obtain ⟨l, hl, hlen⟩ := L.exists_chain_tail hb
  exact L.cleanLoop_spec hsmall hv hb _ [] hl hlen (by simp)

theorem cleanBuckets_spec {n : Nat} (hn : n ≤ buckets) :
    ∃ sg', (List.range n).foldlM (fun sg i => sg.dirCleanBucket valid buckets (dirBucket i)) sg
        = some sg' ∧ ∃ L' : Layout buckets sg', (L.Full → L'.Full) ∧
      (∀ b < n, L'.Swept b ∧ live sg' (L'.chain b) = (live sg (L.chain b)).filter v) ∧
      ∀ b, n ≤ b → live sg' (L'.chain b) = live sg (L.chain b) := by
  induction n with
  | zero => exact ⟨sg, rfl, L, id, by simp, fun _ _ => rfl⟩
  | succ n ih =>
    obtain ⟨sg1, hrun, L1, hfull, hdone, hrest⟩ := ih (by omega)
    obtain ⟨sg2, hclean, L2, honly, htight, hlive⟩ := L1.dirCleanBucket_spec hsmall hv (b := n) (by omega)
    refine ⟨sg2, ?_, L2, honly.full ∘ hfull, ?_, ?_⟩
    · rw [range_succ, foldlM_append, hrun]
      simpa using hclean
    · intro b hb
      by_cases h : b = n
      · subst h
        exact ⟨htight, by rw [hlive, hrest b le_rfl]⟩
      · obtain ⟨htight', hlive'⟩ := hdone b (by omega)
        exact ⟨honly.swept h htight', (honly.live_eq h).trans hlive'⟩
    · intro b hb
      rw [honly.live_eq (by omega), hrest b (by omega)]

/-- **`dir_clean_segment`** keeps exactly the valid entries and leaves no empty one behind. -/
theorem dirCleanSegment_spec : ∃ sg', sg.dirCleanSegment valid buckets = some sg' ∧ ∃ L' : Layout buckets sg',
      (L.Full → L'.Full) ∧ ∀ b < buckets, L'.Swept b ∧ live sg' (L'.chain b) = (live sg (L.chain b)).filter v := by
  obtain ⟨sg', hrun, L', hfull, hdone, -⟩ := L.cleanBuckets_spec hsmall hv le_rfl
  exact ⟨sg', hrun, L', hfull, hdone⟩

end Clean

/-! ### Searching -/

section Search
variable (tag offset : Nat)

def Matches (sg : Segment) (tag offset i : Nat) : Prop :=
  dirTag (sg.dir i) = tag ∧ dirOffset (sg.dir i) = offset

theorem findLoop_spec (hb : b < buckets) (n : Nat) : ∀ (l₁ : List Nat) {l₂ : List Nat} {e : Nat},
    L.chain b = l₁ ++ e :: l₂ → l₂.length < n →
    ((∀ i ∈ e :: l₂, ¬ Matches sg tag offset i) ∧ findLoop tag offset n sg e = some none) ∨
    ∃ m1 i m2, L.chain b = m1 ++ i :: m2 ∧ Matches sg tag offset i ∧ findLoop tag offset n sg e = some (some i) := by
  induction n with
  | zero => intro l₁ l₂ e _ h; exact absurd h (Nat.not_lt_zero _)
  | succ n ih =>
    intro l₁ l₂ e hC hlen
    rw [findLoop]
    by_cases hm : Matches sg tag offset e
    · exact .inr ⟨l₁, e, l₂, hC, hm, if_pos hm⟩
    · rw [if_neg (show ¬ (dirTag (sg.dir e) = tag ∧ dirOffset (sg.dir e) = offset) from hm), L.next_eq hb hC]
      cases l₂ with
      | nil => exact .inl ⟨by simpa using hm, rfl⟩
      | cons e' l₂ =>
        have hC' : L.chain b = (l₁ ++ [e]) ++ e' :: l₂ := by simpa using hC
        rcases ih _ hC' (by simp at hlen; omega) with ⟨hno, hrun⟩ | hyes
        · exact .inl ⟨forall_mem_cons.2 ⟨hm, hno⟩, hrun⟩
        · exact .inr hyes

theorem deleteLoop_spec (hb : b < buckets) (n : Nat) : ∀ (l₁ : List Nat) {l₂ : List Nat} {e : Nat},
    L.chain b = l₁ ++ e :: l₂ → l₂.length < n → ((∀ i ∈ e :: l₂, ¬ Matches sg tag offset i) ∧
      deleteLoop tag offset n sg e l₁.getLast? = some (sg, 0)) ∨
    ∃ m i m2, e :: l₂ = m ++ i :: m2 ∧ (∀ j ∈ m, ¬ Matches sg tag offset j) ∧ Matches sg tag offset i ∧
      deleteLoop tag offset n sg e l₁.getLast? = some ((sg.dirDeleteEntry i (l₁ ++ m).getLast?).1, 1) := by
  induction n with
  | zero => intro l₁ l₂ e _ h; exact absurd h (Nat.not_lt_zero _)
  | succ n ih =>
    intro l₁ l₂ e hC hlen
    rw [deleteLoop]
    by_cases hm : Matches sg tag offset e
    · refine .inr ⟨[], e, l₂, rfl, by simp, hm, ?_⟩
      rw [append_nil]
      exact if_pos hm
    · rw [if_neg (show ¬ (dirTag (sg.dir e) = tag ∧ dirOffset (sg.dir e) = offset) from hm), L.next_eq hb hC]
      cases l₂ with
      | nil => exact .inl ⟨by simpa using hm, rfl⟩
      | cons e' l₂ =>
        have hC' : L.chain b = (l₁ ++ [e]) ++ e' :: l₂ := by simpa using hC
        have hrec := ih _ hC' (by simp at hlen; omega)
        rw [getLast?_concat] at hrec
        rcases hrec with ⟨hno, hrun⟩ | ⟨m, i, m2, heq, hfirst, hi, hrun⟩
        · exact .inl ⟨forall_mem_cons.2 ⟨hm, hno⟩, hrun⟩
        · refine .inr ⟨e :: m, i, m2, by rw [heq, cons_append], ?_, hi, ?_⟩
          · exact forall_mem_cons.2 ⟨hm, hfirst⟩
          · rw [append_assoc, singleton_append] at hrun
            exact hrun

theorem Tight.live_empty {L : Layout buckets sg} (h : L.Tight b) (hb : b < buckets)
    (he : dirOffset (sg.dir (dirBucket b)) = 0) : live sg (L.chain b) = [] := by
  rcases h with h | ⟨h, -⟩
  · obtain ⟨l, hl⟩ := L.chain_eq_cons hb
    exact absurd he (h _ (by simp [hl]))
  · rw [h, live_cons, if_pos he, live_nil]

/-- **`dir_delete`** removes the first entry with the tag and the offset, if there is one. -/
theorem dirDelete_spec (hsmall : dirDepth * buckets ≤ 65536) (hb : b < buckets) (ht : L.Tight b) (del : Dir) :
    ((∀ c ∈ live sg (L.chain b), ¬ (c.tag = dirMaskTag tag ∧ c.offset = dirOffset del)) ∧
      sg.dirDelete buckets (dirBucket b) tag del = some (sg, 0)) ∨ ∃ x c y, live sg (L.chain b) = x ++ c :: y ∧
      (∀ c' ∈ x, ¬ (c'.tag = dirMaskTag tag ∧ c'.offset = dirOffset del)) ∧
      c.tag = dirMaskTag tag ∧ c.offset = dirOffset del ∧
      ∃ sg', sg.dirDelete buckets (dirBucket b) tag del = some (sg', 1) ∧
        ∃ L' : Layout buckets sg', L.Only b L' ∧ L'.Tight b ∧ live sg' (L'.chain b) = x ++ y := by
  unfold dirDelete
  by_cases he : dirOffset (sg.dir (dirBucket b)) = 0
  · rw [if_pos (by simpa [dirIsEmpty] using he)]
    exact .inl ⟨by simp [ht.live_empty hb he], rfl⟩
  rw [if_neg (by simpa [dirIsEmpty] using he)]
  have hsolid := ht.solid he
  obtain ⟨l, hl, hlen⟩ := L.exists_chain_tail hb
  rcases L.deleteLoop_spec (dirMaskTag tag) (dirOffset del) hb _ [] hl hlen with
    ⟨hno, hrun⟩ | ⟨m, i, m2, heq, hfirst, hm, hrun⟩
  · refine .inl ⟨?_, hrun⟩
    rw [live_of_solid hsolid, hl]
    intro c hc
    obtain ⟨i, hi, rfl⟩ := mem_map.1 hc
    exact hno i hi
  · have hC : L.chain b = m ++ i :: m2 := hl.trans heq
    obtain ⟨L', hdel⟩ := L.dirDeleteEntry_spec hsmall hb hC
    have hsolid' : ∀ j ∈ m ++ i :: m2, dirOffset (sg.dir j) ≠ 0 := hC ▸ hsolid
    refine .inr ⟨live sg m, sg.content i, live sg m2, ?_, ?_, hm.1, hm.2, _, hrun, L', hdel.only, ?_, hdel.live_eq⟩
    · rw [hC, live_append, live_cons, if_neg (hsolid' i (by simp))]
    · intro c hc
      rw [live_of_solid fun j hj => hsolid' j (mem_append_left _ hj)] at hc
      obtain ⟨j, hj, rfl⟩ := mem_map.1 hc
      exact hfirst j hj
    · exact (hdel.solid fun j hj => hsolid' j (by grind)).imp_right And.right

end Search

/-! ### Probing -/

section Probe
variable {valid : Dir → Bool} {v : Content → Bool} {tag : Nat}

/-- `new` is `old` without some entries of the tag that are not valid. -/
def Purged (v : Content → Bool) (tag : Nat) (old new : List Content) : Prop :=
  ∃ gone : List Content, old.Perm (new ++ gone) ∧ ∀ c ∈ gone, c.tag = tag ∧ v c = false

theorem Purged.refl (l : List Content) : Purged v tag l l := ⟨[], by simp, by simp⟩

theorem Purged.trans {l l' l'' : List Content} (h : Purged v tag l l') (h' : Purged v tag l' l'') :
    Purged v tag l l'' := by
  obtain ⟨g, hg, hv⟩ := h
  obtain ⟨g', hg', hv'⟩ := h'
  refine ⟨g' ++ g, ?_, ?_⟩
  · rw [← append_assoc]
    exact hg.trans (hg'.append_right g)
  · intro c hc
    exact (mem_append.1 hc).elim (hv' c) (hv c)

/-- What a pass of `dir_probe` over bucket `b` may do, and what an entry that it hits is like. -/
structure Probed (v : Content → Bool) (tag : Nat) (L : Layout buckets sg) (b : Nat)
    (hit : Option Nat) (L' : Layout buckets sg') : Prop where
  only : L.Only b L'
  tight : L'.Tight b
  purged : Purged v tag (live sg (L.chain b)) (live sg' (L'.chain b))
  hit_mem : ∀ i ∈ hit, sg'.content i ∈ live sg' (L'.chain b) ∧ (sg'.content i).tag = tag ∧
    v (sg'.content i) = true

variable (hsmall : dirDepth * buckets ≤ 65536) (hb : b < buckets) (hv : ∀ d, valid d = v d.content)
include hsmall hb hv

theorem probeLoop_spec (base tag n : Nat) :
    ∀ {sg : Segment} (L : Layout buckets sg) (l₁ : List Nat) {l₂ : List Nat} {e : Nat} (collision : Option Nat),
      L.chain b = l₁ ++ e :: l₂ → l₂.length < n → (∀ i ∈ L.chain b, dirOffset (sg.dir i) ≠ 0) →
      ∃ sg' hit p rest, probeLoop valid base tag n sg e l₁.getLast? collision = some (sg', hit, p, rest) ∧
        (∀ c, rest = some c → collision = some c ∧ sg' = sg ∧
          ∀ i ∈ e :: l₂, dirTag (sg.dir i) = tag → c ≠ base + i) ∧
        ∃ L' : Layout buckets sg', Probed v tag L b hit L' := by
  induction n with
  | zero => intro sg L l₁ l₂ e _ _ h; exact absurd h (Nat.not_lt_zero _)
  | succ n ih =>
    intro sg L l₁ l₂ e collision hC hlen hsolid
    rw [probeLoop]
    by_cases htag : dirTag (sg.dir e) = tag ∧ collision = none
    · rw [if_pos htag]
      by_cases hval : valid (sg.dir e) = true
      · -- a hit: nothing has changed
        rw [if_pos hval]
        refine ⟨sg, some e, _, none, rfl, by simp, L, .refl L, .inl hsolid, .refl _, ?_⟩
        intro i hi
        obtain rfl : e = i := by simpa using hi
        refine ⟨?_, htag.1, by rw [← hval, hv]; rfl⟩
        rw [live_of_solid hsolid]
        exact mem_map_of_mem (by simp [hC])
      · rw [if_neg hval]
        obtain ⟨L', hdel⟩ := L.dirDeleteEntry_spec hsmall hb hC
        generalize sg.dirDeleteEntry e l₁.getLast? = res at L' hdel ⊢
        obtain ⟨sg', r⟩ := res
        have hpurged : Purged v tag (live sg (L.chain b)) (live sg' (L'.chain b)) := by
          refine ⟨[sg.content e], ?_, ?_⟩
          · have hsplit : live sg (L.chain b) = live sg l₁ ++ sg.content e :: live sg l₂ := by
              rw [hC, live_append, live_cons, if_neg (hsolid e (by simp [hC]))]
            rw [hsplit, hdel.live_eq, append_assoc]
            exact (perm_append_comm : ([_] ++ live sg l₂).Perm _).append_left _
          · intro c hc
            rw [mem_singleton.1 hc]
            exact ⟨htag.1, by simpa [hv, content] using hval⟩
        have honly := hdel.only
        have hsolid' := hdel.solid fun i hi => hsolid i (by rw [hC]; grind)
        cases r with
        | none =>
          exact ⟨sg', none, _, none, rfl, by simp, L', honly, hsolid'.imp_right And.right, hpurged, by simp⟩
        | some e' =>
          cases hdel with
          | last _ _ _ next => cases next
          | entry l chain next rest done =>
            cases l with
            | nil => cases next
            | cons x l =>
              obtain rfl : e' = x := Option.some.inj next
              have hlen' : l.length < n := by
                have := congrArg List.length rest
                simp at this
                omega
              obtain ⟨sg'', hit, p, left, hrun, hleft, L'', h⟩ :=
                ih L' l₁ none chain hlen' (hsolid'.resolve_right fun h => by simp at h)
              exact ⟨sg'', hit, p, left, hrun, fun c hc => absurd (hleft c hc).1 (by simp), L'',
                honly.trans h.only, h.tight, hpurged.trans h.purged, h.hit_mem⟩
    · rw [if_neg htag, L.next_eq hb hC]
      generalize hused : (if dirTag (sg.dir e) = tag ∧ collision = some (base + e) then none else collision) = left
      -- a collision that is left has not been used up by `e`
      have hleft : ∀ c, left = some c → collision = some c ∧ (dirTag (sg.dir e) = tag → c ≠ base + e) := by
        rintro c rfl
        split at hused
        · cases hused
        · rename_i hnot
          exact ⟨hused, fun ht hc => hnot ⟨ht, by rw [hused, hc]⟩⟩
      cases l₂ with
      | nil =>
        refine ⟨sg, none, some e, left, rfl, fun c hc => ⟨(hleft c hc).1, rfl, fun i hi => ?_⟩, L, .refl L,
          .inl hsolid, .refl _, by simp⟩
        obtain rfl : i = e := by simpa using hi
        exact (hleft c hc).2
      | cons e' l₂ =>
        have hC' : L.chain b = (l₁ ++ [e]) ++ e' :: l₂ := by simpa using hC
        have hrec := ih L _ left hC' (by simp at hlen; omega) hsolid
        rw [getLast?_concat] at hrec
        obtain ⟨sg', hit, p, rest, hrun, hrest, hex⟩ := hrec
        refine ⟨sg', hit, p, rest, hrun, fun c hc => ?_, hex⟩
        obtain ⟨hl, hsame, hnot⟩ := hrest c hc
        exact ⟨(hleft c hl).1, hsame, forall_mem_cons.2 ⟨(hleft c hl).2, hnot⟩⟩

theorem probePass_spec (ht : L.Tight b) (base tag : Nat) (collision : Option Nat) :
    ∃ sg' hit p rest, sg.probePass valid buckets base (dirBucket b) tag none collision
        = some (sg', hit, p, rest) ∧ (∀ c, rest = some c → collision = some c ∧ sg' = sg ∧
          (dirOffset (sg.dir (dirBucket b)) ≠ 0 → ∀ i ∈ L.chain b, dirTag (sg.dir i) = tag → c ≠ base + i)) ∧
        ∃ L' : Layout buckets sg', Probed v tag L b hit L' := by
  unfold probePass
  by_cases he : dirOffset (sg.dir (dirBucket b)) = 0
  · rw [if_pos (by simpa [dirIsEmpty] using he)]
    exact ⟨sg, none, none, collision, rfl, fun c hc => ⟨hc, rfl, absurd he⟩, L, .refl L, ht, .refl _, by simp⟩
  rw [if_neg (by simpa [dirIsEmpty] using he)]
  obtain ⟨l, hl, hlen⟩ := L.exists_chain_tail hb
  obtain ⟨sg', hit, p, rest, hrun, hrest, hex⟩ := L.probeLoop_spec hsmall hb hv base tag
    (2 * (dirDepth * buckets) + 1) [] collision hl (by omega) (ht.solid he)
  refine ⟨sg', hit, p, rest, hrun, fun c hc => ?_, hex⟩
  obtain ⟨hcoll, hsame, hnot⟩ := hrest c hc
  exact ⟨hcoll, hsame, fun _ => hl ▸ hnot⟩

omit hsmall hb hv in
theorem probePass_pred (buckets base tag : Nat) (p : Option Nat)
    (h : dirOffset (sg.dir e) ≠ 0 → dirTag (sg.dir e) = tag → valid (sg.dir e) = true) :
    (sg.probePass valid buckets base e tag p none).map (fun r => (r.1, r.2.1)) =
      (sg.probePass valid buckets base e tag none none).map fun r => (r.1, r.2.1) := by
  unfold probePass
  by_cases he : dirOffset (sg.dir e) = 0
  · simp [dirIsEmpty, he]
  rw [if_neg (by simpa [dirIsEmpty] using he), if_neg (by simpa [dirIsEmpty] using he), probeLoop, probeLoop]
  by_cases htag : dirTag (sg.dir e) = tag
  · simp [htag, h he htag]
  · simp [htag]

/-- **`dir_probe`** only removes entries of its tag that are not valid, unless it starts again at a
head that it has to delete. -/
theorem dirProbe_spec (ht : L.Tight b) (base tag : Nat) (lastCollision : Option Nat)
    (hfit : ∀ c ∈ lastCollision, (∀ i ∈ L.chain b, dirTag (sg.dir i) = dirMaskTag tag → c ≠ base + i) →
      dirOffset (sg.dir (dirBucket b)) ≠ 0 → dirTag (sg.dir (dirBucket b)) = dirMaskTag tag →
      valid (sg.dir (dirBucket b)) = true) :
    ∃ sg' hit, sg.dirProbe valid buckets base (dirBucket b) tag lastCollision = some (sg', hit) ∧
      ∃ L' : Layout buckets sg', Probed v (dirMaskTag tag) L b hit L' := by
  obtain ⟨sg1, hit, p, rest, hrun, hrest, L1, h1⟩ :=
    L.probePass_spec hsmall hb hv ht base (dirMaskTag tag) lastCollision
  rw [dirProbe, hrun]
  cases hit with
  | some i => exact ⟨sg1, some i, rfl, L1, h1⟩
  | none =>
    cases rest with
    | none => exact ⟨sg1, none, rfl, L1, h1⟩
    | some c =>
      obtain ⟨hlast, rfl, hnot⟩ := hrest c rfl
      obtain ⟨sg2, hit, p', rest, hrun2, -, L2, h2⟩ :=
        L.probePass_spec hsmall hb hv ht base (dirMaskTag tag) none
      have hpred := probePass_pred buckets base (dirMaskTag tag) p fun hne => hfit c hlast (hnot hne) hne
      rw [hrun2] at hpred
      obtain ⟨⟨sg3, hit3, r⟩, hrun3, heq⟩ := Option.map_eq_some_iff.1 hpred
      cases heq
      exact ⟨sg2, hit, by simp [hrun3], L2, h2⟩

end Probe

end Layout

end TrafficServer
