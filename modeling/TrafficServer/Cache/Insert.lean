import TrafficServer.Cache.Delete

/-!
# Inserting and overwriting entries

An insert takes an empty slot into the bucket's chain and fills it. The slot is the bucket head
when that is empty, an empty slot of the bucket's row, or the first free one; only when there is
none does it clean the whole segment and start again, and then entries can be lost anywhere
(`freelist_clean` drops every tenth head entry when cleaning alone frees nothing).
-/

namespace TrafficServer

open List Linked Segment Function

variable {sg sg' sg'' : Segment} {l l₁ l₂ : List Nat} {buckets b e i : Nat}

theorem fillEntry_mask (sg : Segment) (e : Nat) (d : Dir) (tag : Nat) :
    sg.fillEntry e d (dirMaskTag tag) = sg.fillEntry e d tag := by
  rw [fillEntry, fillEntry, dirSetTag_mask]

/-- The content that `dir_insert` makes of an entry: its own, under the tag of the key. -/
def Dir.under (d : Dir) (tag : Nat) : Content := { d.content with tag := dirMaskTag tag }

/-- In `sg'` some entries of `sg` have lost their offset; nothing else differs. -/
structure Dimmed (sg sg' : Segment) : Prop where
  freelist : sg'.freelist = sg.freelist
  next : ∀ i, sg'.nextDir i = sg.nextDir i
  prev : ∀ i, sg'.prevDir i = sg.prevDir i
  entry : ∀ i, sg'.content i = sg.content i ∨ (sg'.content i).offset = 0

namespace Dimmed

theorem refl (sg : Segment) : Dimmed sg sg := ⟨rfl, fun _ => rfl, fun _ => rfl, fun _ => .inl rfl⟩

theorem trans (h : Dimmed sg sg') (h' : Dimmed sg' sg'') : Dimmed sg sg'' where
  freelist := h'.freelist.trans h.freelist
  next i := (h'.next i).trans (h.next i)
  prev i := (h'.prev i).trans (h.prev i)
  entry i := by
    rcases h'.entry i with h1 | h1
    · rw [h1]
      exact h.entry i
    · exact .inr h1

theorem set_offset (sg : Segment) (e : Nat) : Dimmed sg (sg.set e (dirSetOffset (sg.dir e) 0)) where
  freelist := rfl
  next i := by
    rw [nextDir, set_dir]
    split <;> simp_all [nextDir]
  prev i := by
    rw [prevDir, set_dir]
    split <;> simp_all [prevDir]
  entry i := by
    rw [content, set_dir]
    split
    · exact .inr (dirOffset_setOffset ..)
    · exact .inl rfl

theorem offset_eq_zero (h : Dimmed sg sg') (hi : dirOffset (sg.dir i) = 0) : dirOffset (sg'.dir i) = 0 :=
  (h.entry i).elim (fun h' => (congrArg Content.offset h').trans hi) id

theorem live_sublist (h : Dimmed sg sg') (l : List Nat) : (live sg' l).Sublist (live sg l) := by
  induction l with
  | nil => exact .slnil
  | cons i l ih =>
    rw [live_cons, live_cons]
    by_cases hi' : dirOffset (sg'.dir i) = 0
    · rw [if_pos hi']
      split
      · exact ih
      · exact .cons _ ih
    · have hsame : sg'.content i = sg.content i := (h.entry i).resolve_right hi'
      have hi : ¬ dirOffset (sg.dir i) = 0 := fun hi => hi' (h.offset_eq_zero hi)
      rw [if_neg hi', if_neg hi, hsame]
      exact ih.cons_cons _

theorem purgeHead {st : Segment × Nat} (h : Dimmed sg st.1) (e : Nat) : Dimmed sg (Segment.purgeHead st e).1 := by
  unfold Segment.purgeHead
  split
  · dsimp only
    split
    · exact h.trans (.set_offset ..)
    · exact h
  · exact h

theorem purgeHeads (buckets : Nat) (sg : Segment) : Dimmed sg (sg.purgeHeads buckets) :=
  List.foldlRecOn (motive := fun st : Segment × Nat => Dimmed sg st.1) _ _ (.refl sg) fun _ h _ _ =>
    List.foldlRecOn (motive := fun st : Segment × Nat => Dimmed sg st.1) _ _ h fun _ h' _ _ => h'.purgeHead _

end Dimmed

namespace Layout

/-- A segment that has only lost offsets has the same lists. -/
def dim (L : Layout buckets sg) (h : Dimmed sg sg') : Layout buckets sg' :=
  L.congr (fun i _ => h.next i)
    (fun i hi => ⟨h.prev i, h.offset_eq_zero (L.free_empty i hi)⟩) h.freelist

variable (L : Layout buckets sg) {valid : Dir → Bool} {v : Content → Bool}

/-- What is left after `freelist_clean`: well-formed buckets with at most their old entries. -/
structure Cleaned (L : Layout buckets sg) (L' : Layout buckets sg') : Prop where
  full : L.Full → L'.Full
  tight : ∀ b < buckets, L'.Tight b
  live : ∀ b < buckets, (live sg' (L'.chain b)).Sublist (live sg (L.chain b))

section
variable (hsmall : dirDepth * buckets ≤ 65536) (hv : ∀ d, valid d = v d.content)

include hsmall hv

theorem dirCleanSegment_cleaned :
    ∃ sg', sg.dirCleanSegment valid buckets = some sg' ∧ ∃ L' : Layout buckets sg', L.Cleaned L' := by
  obtain ⟨sg', hrun, L', hfull, h⟩ := L.dirCleanSegment_spec hsmall hv
  refine ⟨sg', hrun, L', hfull, fun b hb => (h b hb).1.tight, fun b hb => ?_⟩
  rw [(h b hb).2]
  exact filter_sublist

theorem freelistClean_spec :
    ∃ sg', sg.freelistClean valid buckets = some sg' ∧ ∃ L' : Layout buckets sg', L.Cleaned L' := by
  obtain ⟨sg1, hrun1, L1, h1⟩ := L.dirCleanSegment_cleaned hsmall hv
  rw [freelistClean, hrun1]
  by_cases hf : sg1.freelist = 0
  · have hdim := Dimmed.purgeHeads buckets sg1
    obtain ⟨sg2, hrun2, L2, h2⟩ := (L1.dim hdim).dirCleanSegment_cleaned hsmall hv
    refine ⟨sg2, by simpa [hf] using hrun2, L2, h2.full ∘ h1.full, h2.tight, fun b hb => ?_⟩
    exact (h2.live b hb).trans ((hdim.live_sublist _).trans (h1.live b hb))
  · exact ⟨sg1, by simp [show sg1.freelist ≠ 0#16 from hf], L1, h1⟩

end

theorem freelistPop_cons {F : List Nat} (hF : L.free = e :: F) :
    sg.freelistPop valid buckets = some (sg.unlinkFromFreelist e, some e) := by
  have hhead : dirFromOffset sg.freelist.toNat = some e := by
    rw [← L.free_walk.head?_eq, hF]
    rfl
  have hback : Back sg.prevDir none (e :: F) := hF ▸ L.free_back
  have hprev : dirPrev (sg.dir e) = 0 := dirFromOffset_eq_none.1 hback.1
  have hempty : dirIsEmpty (sg.dir e) = true := by simpa [dirIsEmpty] using L.free_empty e (by simp [hF])
  have hskip : sg.skipFree e = { sg with freelist := (sg.dir e).w3 } := by
    rw [skipFree, show sg.prevDir e = none from hback.1]
  simp only [freelistPop, hhead, hempty, if_true, unlinkFromFreelist, hskip, hprev]
  rfl

theorem freelistPop_nil (hF : L.free = []) :
    sg.freelistPop valid buckets = (sg.freelistClean valid buckets).map (·, none) := by
  have hhead : dirFromOffset sg.freelist.toNat = none := by
    rw [← L.free_walk.head?_eq, hF]
    rfl
  simp [freelistPop, hhead, Option.map_eq_bind]

/-! ### Taking a slot -/

/-- The empty slot `e` is in the chain of `b`, which otherwise says what it said before. -/
structure Taken (L : Layout buckets sg) (b e : Nat) (L' : Layout buckets sg') : Prop where
  only : L.Only b L'
  mem : e ∈ L'.chain b
  empty : dirOffset (sg'.dir e) = 0
  rest : ∀ i ∈ L'.chain b, i ≠ e → dirOffset (sg'.dir i) ≠ 0
  live : live sg' (L'.chain b) = live sg (L.chain b)

theorem unlinkFromFreelist_dir_of_not_free (hF : L.free = l₁ ++ e :: l₂) (hi : i ∉ L.free) :
    (sg.unlinkFromFreelist e).dir i = sg.dir i := by
  have hnd : (l₁ ++ e :: l₂).Nodup := hF ▸ L.free_nodup
  have hback : Back sg.prevDir none (l₁ ++ e :: l₂) := hF ▸ L.free_back
  have hprev : sg.prevDir e = l₁.getLast? := by simpa using hback.eq_getLast
  have hnext : sg.nextDir e = l₂.head? := (hF ▸ L.free_walk : Walk _ _ (l₁ ++ e :: l₂) _).next_eq
  rw [hF] at hi
  refine unlinkFromFreelist_dir ?_ ?_ ?_
  · intro h
    have := mem_of_getLast? (hprev ▸ h)
    grind
  · intro h
    have := mem_of_getLast? (hprev ▸ h.symm)
    exact hi (by simp [this])
  · intro h
    have := mem_of_head? (hnext ▸ h.symm)
    exact hi (by simp [this])

theorem linkEntry_dir (h : i ≠ b) (h' : i ≠ e) : (sg.linkEntry b e).dir i = sg.dir i := by
  rw [linkEntry, setNext_dir, if_neg h, setNext_dir, if_neg h']

@[simp] theorem linkEntry_content : (sg.linkEntry b e).content i = sg.content i := by simp [linkEntry]

theorem pos_of_mem_free (hb : b < buckets) (he : e ∈ L.free) : 0 < e := by
  refine pos_of_ne_zero ?_
  rintro rfl
  exact L.bucket_not_mem_free (b := 0) (by omega) (by simpa [dirBucket] using he)

theorem take_free (hsmall : dirDepth * buckets ≤ 65536) (hb : b < buckets) (he : e ∈ L.free)
    (hsolid : ∀ i ∈ L.chain b, dirOffset (sg.dir i) ≠ 0) :
    ∃ L' : Layout buckets ((sg.unlinkFromFreelist e).linkEntry (dirBucket b) e), L.Taken b e L' := by
  obtain ⟨l₁, l₂, hF⟩ := append_of_mem he
  obtain ⟨t, hC⟩ := L.chain_eq_cons hb
  let L1 := L.unlinkFree hF
  have hown : L1.own e = .loose := update_self ..
  let L2 := L1.link hsmall hb hC hown (L.pos_of_mem_free hb he) (L.mem_free_lt he)
  have hC2 : L2.chain b = dirBucket b :: e :: t := update_self ..
  have hcontent : ∀ i, i ∉ L.free →
      ((sg.unlinkFromFreelist e).linkEntry (dirBucket b) e).content i = sg.content i := by
    intro i hi
    rw [linkEntry_content, content, L.unlinkFromFreelist_dir_of_not_free hF hi]
    rfl
  have hold : ∀ i ∈ dirBucket b :: t,
      ((sg.unlinkFromFreelist e).linkEntry (dirBucket b) e).content i = sg.content i :=
    fun i hi => hcontent i (L.not_mem_free (hC ▸ hi))
  have hempty : dirOffset (((sg.unlinkFromFreelist e).linkEntry (dirBucket b) e).dir e) = 0 := by
    refine (congrArg Content.offset linkEntry_content).trans ?_
    exact (setPrevAt_offset ..).trans ((skipFree_offset ..).trans (L.free_empty e he))
  refine ⟨L2, ⟨?_, ?_, ?_⟩, by simp [hC2], hempty, ?_, ?_⟩
  · intro b' hb'
    exact update_of_ne hb' ..
  · intro b' hb' i hi
    have hne : i ≠ dirBucket b := by
      rintro rfl
      exact L.chain_disjoint hb' hi (by simp [hC])
    have hne' : i ≠ e := by
      rintro rfl
      exact L.not_mem_free hi he
    rw [linkEntry_dir hne hne', L.unlinkFromFreelist_dir_of_not_free hF (L.not_mem_free hi)]
  · intro hfull i hi
    change update (update L.own e .loose) e (.chain b) i ≠ .loose
    by_cases h : i = e
    · simp [h]
    · simpa [h] using hfull i hi
  · intro i hi hne
    have hi' : i ∈ dirBucket b :: t := by
      grind
    have : dirOffset _ = dirOffset (sg.dir i) := congrArg Content.offset (hold i hi')
    rw [this]
    exact hsolid i (hC ▸ hi')
  · rw [hC2, hC]
    have hsplit : ∀ (s : Segment), dirOffset (s.dir e) = 0 →
        TrafficServer.live s (dirBucket b :: e :: t) = TrafficServer.live s (dirBucket b :: t) := by
      intro s hs
      rw [live_cons, live_cons, if_pos hs, live_cons]
    rw [hsplit _ hempty]
    exact live_congr hold

theorem mem_free_of_empty (hp : L.Packed)
    (hlt : e < dirDepth * buckets) (hne : ∀ b, e ≠ dirBucket b) (he : dirOffset (sg.dir e) = 0) : e ∈ L.free := by
  rw [L.mem_free]
  cases hown : L.own e with
  | free => rfl
  | loose => exact absurd hown (hp.1 e hlt)
  | chain b =>
    have hmem := (L.mem_chain b e).2 hown
    rcases hp.2 b (L.chain_lt e b hown) with h | ⟨h, -⟩
    · exact absurd he (h e hmem)
    · rw [h, mem_singleton] at hmem
      exact absurd hmem (hne b)

theorem rowSlot_some (h : sg.rowSlot (dirBucket b) = some e) :
    dirOffset (sg.dir e) = 0 ∧ ∃ r, 0 < r ∧ r < dirDepth ∧ e = dirBucket b + r := by
  have he := find?_some h
  have hmem := mem_of_find?_eq_some h
  obtain ⟨r, hr, rfl⟩ := mem_map.1 hmem
  obtain ⟨hr1, hr2⟩ := mem_range'_1.1 hr
  have hdepth : 1 + (dirDepth - 1) = dirDepth := rfl
  exact ⟨by simpa [dirIsEmpty] using he, r, hr1, hdepth ▸ hr2, rfl⟩

theorem rowSlot_mem_free (hp : L.Packed) (hb : b < buckets) (h : sg.rowSlot (dirBucket b) = some e) : e ∈ L.free := by
  obtain ⟨he, r, hr1, hr2, rfl⟩ := rowSlot_some h
  simp only [dirDepth, dirBucket] at hr2 ⊢
  exact L.mem_free_of_empty hp (by simp only [dirDepth]; omega)
    (fun b' => by simp only [dirBucket, dirDepth]; omega) he

theorem takeSlot_spec (hsmall : dirDepth * buckets ≤ 65536) (hb : b < buckets)
    (hv : ∀ d, valid d = v d.content) (hp : L.Packed) :
    (∃ sg' e, sg.takeSlot valid buckets (dirBucket b) = some (sg', some e) ∧
      ∃ L' : Layout buckets sg', L.Taken b e L') ∨ (dirOffset (sg.dir (dirBucket b)) ≠ 0 ∧ L.free = [] ∧
      ∃ sg', sg.takeSlot valid buckets (dirBucket b) = some (sg', none) ∧
        ∃ L' : Layout buckets sg', L.Cleaned L') := by
  unfold takeSlot
  by_cases he : dirOffset (sg.dir (dirBucket b)) = 0
  · -- the head of an empty bucket is alone in its chain
    rw [if_pos (by simpa [dirIsEmpty] using he)]
    have hC : L.chain b = [dirBucket b] := by
      rcases hp.2 b hb with h | h
      · obtain ⟨l, hl⟩ := L.chain_eq_cons hb
        exact absurd he (h _ (by simp [hl]))
      · exact h.1
    exact .inl ⟨sg, dirBucket b, rfl, L, .refl L, by simp [hC], he, by simp [hC], rfl⟩
  rw [if_neg (by simpa [dirIsEmpty] using he)]
  have hsolid := (hp.2 b hb).solid he
  cases hrow : sg.rowSlot (dirBucket b) with
  | some e =>
    obtain ⟨L', h⟩ := L.take_free hsmall hb (L.rowSlot_mem_free hp hb hrow) hsolid
    exact .inl ⟨_, e, rfl, L', h⟩
  | none =>
    cases hF : L.free with
    | cons e F =>
      obtain ⟨L', h⟩ := L.take_free (e := e) hsmall hb (by simp [hF]) hsolid
      exact .inl ⟨_, e, by simp [L.freelistPop_cons hF], L', h⟩
    | nil =>
      obtain ⟨sg', hrun, L', h⟩ := L.freelistClean_spec hsmall hv
      exact .inr ⟨he, rfl, sg', by simp [L.freelistPop_nil hF, hrun], L', h⟩

/-! ### Filling it -/

section Fill
variable {toPart : Dir} {tag : Nat}

theorem fillEntry_dir (h : i ≠ e) : (sg.fillEntry e toPart tag).dir i = sg.dir i := update_of_ne h ..

theorem fillEntry_self : (sg.fillEntry e toPart tag).dir e = dirSetTag (dirAssignData (sg.dir e) toPart) tag :=
  update_self ..

@[simp] theorem fillEntry_content_self : (sg.fillEntry e toPart tag).content e = toPart.under tag := by
  rw [content, fillEntry_self, content_setTag, content_assignData]
  rfl

theorem fill_spec (tag : Nat) (hb : b < buckets) (hC : L.chain b = l₁ ++ e :: l₂)
    (hrest : ∀ i ∈ l₁ ++ l₂, dirOffset (sg.dir i) ≠ 0) (hto : dirOffset toPart ≠ 0) :
    ∃ L' : Layout buckets (sg.fillEntry e toPart tag), L.Only b L' ∧ L'.Tight b ∧
      live (sg.fillEntry e toPart tag) (L'.chain b) = live sg l₁ ++ toPart.under tag :: live sg l₂ := by
  have hnd : (l₁ ++ e :: l₂).Nodup := hC ▸ L.chain_nodup hb
  have he : e ∈ L.chain b := by simp [hC]
  have hoff : dirOffset ((sg.fillEntry e toPart tag).dir e) ≠ 0 := by
    rwa [fillEntry_self, dirOffset_setTag, dirOffset_assignData]
  have hother : ∀ i ∈ l₁ ++ l₂, (sg.fillEntry e toPart tag).dir i = sg.dir i := fun i hi => fillEntry_dir (by grind)
  let L' : Layout buckets (sg.fillEntry e toPart tag) := L.congr
    (by
      intro i _
      by_cases hi : i = e
      · rw [hi, nextDir, fillEntry_self, dirNext_setTag, dirNext_assignData]
        rfl
      · rw [nextDir, fillEntry_dir hi]
        rfl)
    (by
      intro i hi
      have hne : i ≠ e := by
        rintro rfl
        exact L.not_mem_free he hi
      rw [prevDir, fillEntry_dir hne]
      exact ⟨rfl, L.free_empty i hi⟩) rfl
  refine ⟨L', ⟨fun _ _ => rfl, ?_, id⟩, .inl ?_, ?_⟩
  · intro b' hb' i hi
    refine fillEntry_dir ?_
    rintro rfl
    exact L.chain_disjoint hb' hi he
  · intro i hi
    by_cases h : i = e
    · rwa [h]
    · have hi' : i ∈ l₁ ++ l₂ := by
        have : i ∈ l₁ ++ e :: l₂ := hC ▸ hi
        grind
      rw [hother i hi']
      exact hrest i hi'
  · have hlive : ∀ l ⊆ l₁ ++ l₂, live (sg.fillEntry e toPart tag) l = live sg l := fun l hl =>
      live_congr fun i hi => congrArg Dir.content (hother i (hl hi))
    change live _ (L.chain b) = _
    rw [hC, live_append, live_cons, if_neg hoff, fillEntry_content_self, hlive l₁ (by simp), hlive l₂ (by simp)]

theorem Taken.fill {L : Layout buckets sg} {L' : Layout buckets sg'} (h : L.Taken b e L')
    (tag : Nat) (hb : b < buckets) (hto : dirOffset toPart ≠ 0) :
    ∃ L'' : Layout buckets (sg'.fillEntry e toPart tag), L.Only b L'' ∧ L''.Tight b ∧
      (TrafficServer.live (sg'.fillEntry e toPart tag) (L''.chain b)).Perm
        (toPart.under tag :: TrafficServer.live sg (L.chain b)) := by
  obtain ⟨l₁, l₂, hC⟩ := append_of_mem h.mem
  have hnd : (l₁ ++ e :: l₂).Nodup := hC ▸ L'.chain_nodup hb
  obtain ⟨L'', honly, htight, hlive⟩ := L'.fill_spec tag hb hC
    (fun i hi => h.rest i (by rw [hC]; grind) (by grind)) hto
  refine ⟨L'', h.only.trans honly, htight, ?_⟩
  rw [hlive, ← h.live, hC, live_append, live_cons, if_pos h.empty]
  exact perm_middle

section
variable (hsmall : dirDepth * buckets ≤ 65536) (hb : b < buckets) (hv : ∀ d, valid d = v d.content)

include hsmall hb hv

/-- **`dir_insert`** with a slot to take: the bucket gets the new entry and nothing else changes. -/
theorem dirInsert_of_slot (hp : L.Packed)
    (hto : dirOffset toPart ≠ 0) (hslot : dirOffset (sg.dir (dirBucket b)) = 0 ∨ L.free ≠ []) (n : Nat) :
    ∃ sg', sg.dirInsert valid buckets (dirBucket b) tag toPart (n + 1) = some sg' ∧
      ∃ L' : Layout buckets sg', L.Only b L' ∧ L'.Tight b ∧
        (live sg' (L'.chain b)).Perm (toPart.under tag :: live sg (L.chain b)) := by
  rcases L.takeSlot_spec hsmall hb hv hp with ⟨sg1, e, hrun, L1, h⟩ | ⟨he, hF, -⟩
  · obtain ⟨L2, h2⟩ := h.fill tag hb hto
    exact ⟨_, by simp [dirInsert, hrun], L2, h2⟩
  · exact absurd hF (hslot.resolve_left he)

theorem dirInsert_spec (hto : dirOffset toPart ≠ 0) (n : Nat) : ∀ {sg : Segment} (L : Layout buckets sg), L.Packed →
      sg.dirInsert valid buckets (dirBucket b) tag toPart n = some sg' → ∃ L' : Layout buckets sg', L'.Packed ∧
        (∃ rest, (live sg' (L'.chain b)).Perm (toPart.under tag :: rest) ∧ rest.Sublist (live sg (L.chain b))) ∧
        ∀ b' < buckets, b' ≠ b → (live sg' (L'.chain b')).Sublist (live sg (L.chain b')) := by
  induction n with
  | zero => intro sg L _ h; simp [dirInsert] at h
  | succ n ih =>
    intro sg L hp hrun
    rcases L.takeSlot_spec hsmall hb hv hp with
      ⟨sg1, e, hrun1, L1, h1⟩ | ⟨-, -, sg1, hrun1, L1, h1⟩
    · obtain ⟨L2, honly, ht, hperm⟩ := h1.fill tag hb hto
      obtain rfl : sg1.fillEntry e toPart tag = sg' := by simpa [dirInsert, hrun1] using hrun
      refine ⟨L2, honly.packed hp ht, ⟨_, hperm, .refl _⟩, fun b' _ hne => ?_⟩
      rw [honly.live_eq hne]
    · -- the segment was cleaned: the rest of the loop starts from fewer entries
      have hrun' : sg1.dirInsert valid buckets (dirBucket b) tag toPart n = some sg' := by
        simpa [dirInsert, hrun1] using hrun
      obtain ⟨L2, hp2, ⟨rest, hperm, hsub⟩, hother⟩ := ih L1 ⟨h1.full hp.1, h1.tight⟩ hrun'
      exact ⟨L2, hp2, ⟨rest, hperm, hsub.trans (h1.live b hb)⟩,
        fun b' hb' hne => (hother b' hb' hne).trans (h1.live b' hb')⟩

end

end Fill

/-! ### Overwriting -/

section Overwrite
variable {dir overwrite : Dir} {tag : Nat}

section Find
variable (hb : b < buckets) (ht : L.Tight b)
include hb ht

theorem findEntry_spec (tag offset : Nat) : ((∀ c ∈ live sg (L.chain b), ¬ (c.tag = tag ∧ c.offset = offset)) ∧
      sg.findEntry buckets (dirBucket b) tag offset = some none) ∨
    ∃ m1 i m2, L.chain b = m1 ++ i :: m2 ∧ (∀ j ∈ L.chain b, dirOffset (sg.dir j) ≠ 0) ∧
      Matches sg tag offset i ∧ sg.findEntry buckets (dirBucket b) tag offset = some (some i) := by
  unfold findEntry
  by_cases he : dirOffset (sg.dir (dirBucket b)) = 0
  · rw [if_pos (by simpa [dirIsEmpty] using he)]
    exact .inl ⟨by simp [ht.live_empty hb he], rfl⟩
  rw [if_neg (by simpa [dirIsEmpty] using he)]
  have hsolid := ht.solid he
  obtain ⟨l, hl⟩ := L.chain_eq_cons hb
  have hlen : l.length < dirDepth * buckets + 1 := by
    have := L.chain_length_le hb
    rw [hl, length_cons] at this
    omega
  rcases L.findLoop_spec tag offset hb _ [] hl hlen with ⟨hno, hrun⟩ | ⟨m1, i, m2, hC, hm, hrun⟩
  · refine .inl ⟨?_, hrun⟩
    rw [live_of_solid hsolid, hl]
    intro c hc
    obtain ⟨i, hi, rfl⟩ := mem_map.1 hc
    exact hno i hi
  · exact .inr ⟨m1, i, m2, hC, hsolid, hm, hrun⟩

/-- **`dir_overwrite`** with an entry to overwrite: the new content takes its place. -/
theorem dirOverwrite_of_match (hdir : dirOffset dir ≠ 0)
    (hmatch : ∃ c ∈ live sg (L.chain b), c.tag = dirMaskTag tag ∧ c.offset = dirOffset overwrite)
    (must : Bool) (n : Nat) : ∃ x c y, live sg (L.chain b) = x ++ c :: y ∧ c.tag = dirMaskTag tag ∧
      c.offset = dirOffset overwrite ∧
      ∃ sg', sg.dirOverwrite valid buckets (dirBucket b) tag dir overwrite must (n + 1) = some (sg', 1) ∧
        ∃ L' : Layout buckets sg', L.Only b L' ∧ L'.Tight b ∧ live sg' (L'.chain b) = x ++ dir.under tag :: y := by
  rcases L.findEntry_spec hb ht (dirMaskTag tag) (dirOffset overwrite) with
    ⟨hno, -⟩ | ⟨m1, i, m2, hC, hsolid, hm, hfind⟩
  · obtain ⟨c, hc, h⟩ := hmatch
    exact absurd h (hno c hc)
  · obtain ⟨L', h⟩ := L.fill_spec tag hb hC (fun j hj => hsolid j (by rw [hC]; grind)) hdir
    refine ⟨live sg m1, sg.content i, live sg m2, ?_, hm.1, hm.2, _, ?_, L', h⟩
    · rw [hC, live_append, live_cons, if_neg (hsolid i (by simp [hC]))]
    · simp [dirOverwrite, dirOverwriteLoop, hfind, fillEntry_mask]

section
variable (hno : ∀ c ∈ live sg (L.chain b), ¬ (c.tag = dirMaskTag tag ∧ c.offset = dirOffset overwrite))

include hno

theorem findEntry_none : sg.findEntry buckets (dirBucket b) (dirMaskTag tag) (dirOffset overwrite) = some none := by
  rcases L.findEntry_spec hb ht (dirMaskTag tag) (dirOffset overwrite) with
    ⟨-, hfind⟩ | ⟨m1, i, m2, hC, hsolid, hm, -⟩
  · exact hfind
  · refine absurd hm (hno (sg.content i) ?_)
    rw [live_of_solid hsolid]
    exact mem_map_of_mem (by simp [hC])

theorem dirOverwrite_must (n : Nat) :
    sg.dirOverwrite valid buckets (dirBucket b) tag dir overwrite true (n + 1) = some (sg, 0) := by
  simp [dirOverwrite, dirOverwriteLoop, L.findEntry_none hb ht hno]

end

end Find

/-- With nothing to overwrite, `dir_overwrite` runs as `dir_insert` does: when it cleans the
segment and searches again it still finds nothing. -/
theorem dirOverwriteLoop_eq_insert (hsmall : dirDepth * buckets ≤ 65536) (hb : b < buckets)
    (hv : ∀ d, valid d = v d.content) (n : Nat) : ∀ {sg : Segment} (L : Layout buckets sg) (res : Nat), L.Packed →
      (∀ c ∈ live sg (L.chain b), ¬ (c.tag = dirMaskTag tag ∧ c.offset = dirOffset overwrite)) →
      sg.dirOverwriteLoop valid buckets (dirBucket b) tag dir overwrite false n res =
        (sg.dirInsert valid buckets (dirBucket b) tag dir n).map (·, 0) := by
  induction n with
  | zero => intro sg L res _ _; rfl
  | succ n ih =>
    intro sg L res hp hno
    have hfind := L.findEntry_none hb (hp.2 b hb) hno
    rcases L.takeSlot_spec hsmall hb hv hp with
      ⟨sg1, e, hrun, -⟩ | ⟨-, -, sg1, hrun, L1, h1⟩
    · simp [dirOverwriteLoop, dirInsert, hfind, hrun, fillEntry_mask]
    · simp only [dirOverwriteLoop, dirInsert, hfind, hrun, Option.bind_eq_bind, Option.bind_some,
        Bool.false_eq_true, if_false]
      exact ih L1 0 ⟨h1.full hp.1, h1.tight⟩ fun c hc => hno c ((h1.live b hb).subset hc)

end Overwrite

/-! ### A new segment -/

theorem cleared_mem_chain (b i : Nat) : i ∈ (if b < buckets then [dirBucket b] else []) ↔
    (if i % dirDepth = 0 ∧ i < dirDepth * buckets then Owner.chain (i / dirDepth) else .loose) = .chain b := by
  simp only [dirBucket, dirDepth]
  by_cases hb : b < buckets <;> by_cases hi : i % 4 = 0 ∧ i < 4 * buckets <;>
    simp [hb, hi] <;> omega

theorem cleared_chain_lt (i b : Nat) (h : (if i % dirDepth = 0 ∧ i < dirDepth * buckets then
    Owner.chain (i / dirDepth) else .loose) = .chain b) : b < buckets := by
  split at h
  · next hi =>
    cases h
    simp only [dirDepth] at hi ⊢
    omega
  · cases h

theorem cleared_mem_free (i : Nat) : i ∈ ([] : List Nat) ↔
    (if i % dirDepth = 0 ∧ i < dirDepth * buckets then Owner.chain (i / dirDepth) else .loose) = .free := by
  split <;> simp

theorem cleared_slot_lt (i : Nat) (h : (if i % dirDepth = 0 ∧ i < dirDepth * buckets then
    Owner.chain (i / dirDepth) else .loose) ≠ .loose) : i < dirDepth * buckets := by
  split at h
  · next h' => exact h'.2
  · exact absurd rfl h

theorem cleared_chain_walk (h : ∀ i < dirDepth * buckets, sg.dir i = dirClear) (b : Nat) (hb : b < buckets) :
    Walk sg.nextDir (some (dirBucket b)) (if b < buckets then [dirBucket b] else []) none := by
  rw [if_pos hb]
  refine ⟨rfl, ?_⟩
  rw [nextDir, h _ (by simp only [dirBucket, dirDepth]; omega)]
  rfl

theorem cleared_free_walk (hf : sg.freelist = 0) : Walk sg.nextDir (dirFromOffset sg.freelist.toNat) [] none := by
  rw [hf]
  rfl

theorem cleared_free_empty (sg : Segment) (i : Nat) (h : i ∈ ([] : List Nat)) : dirOffset (sg.dir i) = 0 :=
  absurd h not_mem_nil

/-- The lists of a segment of zeros: every row-0 slot heads a chain of its own, and the other slots
are on no list yet. -/
def cleared (h : ∀ i < dirDepth * buckets, sg.dir i = dirClear) (hf : sg.freelist = 0) :
    Layout buckets sg where
  chain b := if b < buckets then [dirBucket b] else []
  free := []
  own i := if i % dirDepth = 0 ∧ i < dirDepth * buckets then .chain (i / dirDepth) else .loose
  chain_walk := cleared_chain_walk h
  mem_chain := cleared_mem_chain
  chain_lt := cleared_chain_lt
  free_walk := cleared_free_walk hf
  free_back := trivial
  mem_free := cleared_mem_free
  free_empty := cleared_free_empty sg
  slot_lt := cleared_slot_lt

theorem freeEntries_spec (hsmall : dirDepth * buckets ≤ 65536) (es : List Nat) :
    ∀ {sg : Segment} (L : Layout buckets sg), es.Nodup →
      (∀ e ∈ es, L.own e = .loose ∧ 0 < e ∧ e < dirDepth * buckets ∧ sg.dir e = dirClear) →
      ∃ L' : Layout buckets (es.foldl dirFreeEntry sg), L'.chain = L.chain ∧
        (∀ i, L'.own i = if i ∈ es then .free else L.own i) ∧
        ∀ b, ∀ i ∈ L.chain b, (es.foldl dirFreeEntry sg).dir i = sg.dir i := by
  induction es with
  | nil => exact fun L _ _ => ⟨L, rfl, by simp, fun _ _ _ => rfl⟩
  | cons e es ih =>
    intro sg L hnd h
    obtain ⟨hown, hpos, hlt, hdir⟩ := h e (by simp)
    rw [nodup_cons] at hnd
    let L1 : Layout buckets (sg.dirFreeEntry e) :=
      L.pushFree hsmall hown hpos hlt (by rw [hdir]; rfl) (by rw [prevDir, hdir]; rfl)
    have hkeep : ∀ i, i ≠ e → i ∉ L.free → (sg.dirFreeEntry e).dir i = sg.dir i := by
      intro i hne hi
      refine pushFree_dir _ _ _ hne fun h' => hi ?_
      exact mem_of_head? (L.free_walk.head?_eq.trans h'.symm)
    obtain ⟨L2, hchain, hown2, hdir2⟩ := ih L1 hnd.2 <| by
      intro i hi
      obtain ⟨ho, hp, hl, hd⟩ := h i (by simp [hi])
      have hne : i ≠ e := by
        rintro rfl
        exact hnd.1 hi
      refine ⟨(update_of_ne hne ..).trans ho, hp, hl, ?_⟩
      rw [hkeep i hne (by simp [L.mem_free, ho]), hd]
    refine ⟨L2, hchain, fun i => ?_, fun b i hi => ?_⟩
    · rw [hown2]
      change (if i ∈ es then _ else update L.own e .free i) = _
      by_cases hi : i = e <;> simp [hi]
    · refine (hdir2 b i hi).trans (hkeep i ?_ (L.not_mem_free hi))
      rintro rfl
      simp [(L.mem_chain b i).1 hi] at hown

def initSlots (buckets : Nat) : List Nat :=
  (List.range' 1 (dirDepth - 1)).flatMap fun l =>
    (List.range buckets).map fun b => dirBucketRow (dirBucket b) l

theorem mem_initSlots : i ∈ initSlots buckets ↔ i % dirDepth ≠ 0 ∧ i < dirDepth * buckets := by
  simp only [initSlots, mem_flatMap, mem_range'_1, mem_map, mem_range, dirBucketRow, dirBucket, dirDepth]
  constructor
  · rintro ⟨l, hl, b, hb, rfl⟩
    omega
  · rintro ⟨h, hlt⟩
    exact ⟨i % 4, by omega, i / 4, by omega, by omega⟩

theorem nodup_initSlots : (initSlots buckets).Nodup := by
  refine nodup_flatMap.2 ⟨fun l _ => ?_, ?_⟩
  · refine nodup_range.map fun x y h => ?_
    simp only [dirBucketRow, dirBucket, dirDepth] at h
    omega
  · refine (nodup_range' : (List.range' 1 (dirDepth - 1)).Nodup).imp_of_mem fun {x y} hx hy hne => ?_
    intro i hi hj
    obtain ⟨b, -, rfl⟩ := mem_map.1 hi
    obtain ⟨b', -, h⟩ := mem_map.1 hj
    rw [mem_range'_1] at hx hy
    simp only [dirBucketRow, dirBucket, dirDepth] at h hx hy
    omega

/-- **`part_init_dir`** on zeros: every bucket is empty and every other slot is free. -/
theorem freeRows_spec (hsmall : dirDepth * buckets ≤ 65536) (hzero : ∀ i < dirDepth * buckets, sg.dir i = dirClear) :
    ∃ L : Layout buckets (sg.freeRows buckets), L.Full ∧
      ∀ b < buckets, L.Tight b ∧ live (sg.freeRows buckets) (L.chain b) = [] := by
  let sg0 : Segment := { sg with freelist := 0 }
  have hzero0 : ∀ i < dirDepth * buckets, sg0.dir i = dirClear := hzero
  let L0 : Layout buckets sg0 := cleared hzero0 rfl
  have hinit : sg.freeRows buckets = (initSlots buckets).foldl dirFreeEntry sg0 := by
    rw [freeRows, initSlots, foldl_flatMap]
    simp only [foldl_map]
    rfl
  rw [hinit]
  obtain ⟨L, hchain, hown, hdir⟩ :=
    freeEntries_spec hsmall (initSlots buckets) L0 nodup_initSlots <| by
      intro e he
      rw [mem_initSlots] at he
      refine ⟨if_neg (fun h => he.1 h.1), pos_of_ne_zero ?_, he.2, hzero0 e he.2⟩
      rintro rfl
      exact he.1 rfl
  refine ⟨L, fun i hi => ?_, fun b hb => ?_⟩
  · rw [hown]
    by_cases h : i ∈ initSlots buckets
    · simp [h]
    · rw [if_neg h]
      have h' : i % dirDepth = 0 := by
        by_contra h'
        exact h (mem_initSlots.2 ⟨h', hi⟩)
      simp [L0, cleared, h', hi]
  · have hC : L.chain b = [dirBucket b] := by
      rw [hchain]
      exact if_pos hb
    have hmem : dirBucket b ∈ L.chain b := by simp [hC]
    have hclear : dirOffset (((initSlots buckets).foldl dirFreeEntry sg0).dir (dirBucket b)) = 0 := by
      rw [hdir b (dirBucket b) (hchain ▸ hmem), hzero0 _ (L.mem_chain_lt hmem)]
      rfl
    refine ⟨.inr ⟨hC, hclear⟩, ?_⟩
    rw [hC, live_cons, if_pos hclear, live_nil]

end Layout

end TrafficServer
