import TrafficServer.Cache.DirectoryRun

/-!
# The retry loop of `dir_insert` and `dir_overwrite`

With a full row and an empty freelist the two clean the segment and go back to `Lagain`. A pass of
`freelist_clean` drops the invalid entries, and some head entries if that freed no slot. An entry that
is dropped from a bucket of two or more goes to the freelist; the only entry of a bucket leaves an empty
bucket head, which is a slot for that bucket alone. So the loop ends exactly if one of the entries that
can be dropped is of use (`Segment.Retriable`): as long as no slot has come up the useful entries stay,
and every pass drops something.
-/

namespace TrafficServer

open Option Segment Finset Relation

variable {sg sg' : Segment} {buckets b e i : Nat} {l : List Nat} {valid : Dir → Bool} {v : Content → Bool}

/-! ### What the purge does -/

theorem dirHead_setOffset (d : Dir) (o : Nat) : dirHead (dirSetOffset d o) = dirHead d := by
  simp [dirHead, dirBit, dirSetOffset]

/-- Only head entries have been touched, and they have lost their offset. -/
structure HeadsDimmed (sg sg' : Segment) : Prop where
  entry : ∀ i, sg'.dir i = sg.dir i ∨
    (dirHead (sg.dir i) = true ∧ dirHead (sg'.dir i) = true ∧ dirOffset (sg'.dir i) = 0)

theorem HeadsDimmed.purgeHead {st : Segment × Nat} (h : HeadsDimmed sg st.1) (e : Nat) :
    HeadsDimmed sg (Segment.purgeHead st e).1 := by
  unfold Segment.purgeHead
  by_cases hhead : dirHead (st.1.dir e) = true
  · rw [if_pos hhead]
    split
    · refine ⟨fun i => ?_⟩
      rw [set_dir]
      by_cases hi : i = e
      · subst hi
        have hold : dirHead (sg.dir i) = true := by
          rcases h.entry i with hsame | hdim
          · exact hsame ▸ hhead
          · exact hdim.1
        rw [if_pos rfl]
        exact .inr ⟨hold, (dirHead_setOffset ..).trans hhead, dirOffset_setOffset ..⟩
      · rw [if_neg hi]
        exact h.entry i
    · exact h
  · rw [if_neg hhead]
    exact h

theorem HeadsDimmed.purgeHeads (buckets : Nat) (sg : Segment) : HeadsDimmed sg (sg.purgeHeads buckets) :=
  List.foldlRecOn (motive := fun st : Segment × Nat => HeadsDimmed sg st.1) _ _ ⟨fun _ => .inl rfl⟩
    fun _ h _ _ =>
      List.foldlRecOn (motive := fun st : Segment × Nat => HeadsDimmed sg st.1) _ _ h fun _ h' _ _ => h'.purgeHead _

theorem foldl_purgeHead_first (es : List Nat) (hhead : ∃ i ∈ es, dirHead (sg.dir i) = true) :
    ∃ j ∈ es, dirHead (sg.dir j) = true ∧ dirOffset ((es.foldl purgeHead (sg, 0)).1.dir j) = 0 := by
  induction es with
  | nil => simp at hhead
  | cons e es ih =>
    rw [List.foldl_cons]
    by_cases he : dirHead (sg.dir e) = true
    · refine ⟨e, List.mem_cons_self .., he, ?_⟩
      have hstep : purgeHead (sg, 0) e = (sg.set e (dirSetOffset (sg.dir e) 0), 1) := by simp [purgeHead, he]
      rw [hstep]
      -- an offset that is gone does not come back
      have hdim : Dimmed (sg.set e (dirSetOffset (sg.dir e) 0))
          (es.foldl purgeHead (sg.set e (dirSetOffset (sg.dir e) 0), 1)).1 :=
        List.foldlRecOn (motive := fun st : Segment × Nat => Dimmed _ st.1) _ _ (.refl _) fun _ h _ _ => h.purgeHead _
      refine hdim.offset_eq_zero ?_
      rw [set_dir, if_pos rfl]
      exact dirOffset_setOffset ..
    · have hstep : purgeHead (sg, 0) e = (sg, 0) := by simp [purgeHead, he]
      rw [hstep]
      obtain ⟨i, hi, hih⟩ := hhead
      obtain ⟨j, hj, h⟩ := ih ⟨i, (List.mem_cons.1 hi).resolve_left fun h => he (h ▸ hih), hih⟩
      exact ⟨j, List.mem_cons_of_mem _ hj, h⟩

def rowSlots (buckets : Nat) : List Nat :=
  (List.range buckets).flatMap fun bi => (List.range dirDepth).map (dirBucketRow (dirBucket bi))

theorem mem_rowSlots : i ∈ rowSlots buckets ↔ i < dirDepth * buckets := by
  simp only [rowSlots, List.mem_flatMap, List.mem_map, List.mem_range, dirBucketRow, dirBucket, dirDepth]
  constructor
  · rintro ⟨bi, hbi, r, hr, rfl⟩
    omega
  · intro hi
    exact ⟨i / 4, by omega, i % 4, by omega, by omega⟩

theorem purgeHeads_eq (buckets : Nat) (sg : Segment) :
    sg.purgeHeads buckets = ((rowSlots buckets).foldl purgeHead (sg, 0)).1 := by
  rw [rowSlots, List.foldl_flatMap]
  rfl

theorem purgeHeads_first (buckets : Nat) (hhead : ∃ i < dirDepth * buckets, dirHead (sg.dir i) = true) :
    ∃ j < dirDepth * buckets, dirHead (sg.dir j) = true ∧ dirOffset ((sg.purgeHeads buckets).dir j) = 0 := by
  obtain ⟨i, hi, hih⟩ := hhead
  obtain ⟨j, hj, h⟩ := foldl_purgeHead_first (rowSlots buckets) ⟨i, mem_rowSlots.2 hi, hih⟩
  rw [purgeHeads_eq]
  exact ⟨j, mem_rowSlots.1 hj, h⟩

/-! ### Counting entries and slots -/

theorem Dimmed.live_length_lt (h : Dimmed sg sg') (hi : i ∈ l) (hold : dirOffset (sg.dir i) ≠ 0)
    (hnew : dirOffset (sg'.dir i) = 0) : (live sg' l).length < (live sg l).length := by
  obtain ⟨l1, l2, rfl⟩ := List.append_of_mem hi
  have h1 := (h.live_sublist l1).length_le
  have h2 := (h.live_sublist l2).length_le
  rw [live_append, live_append, live_cons, live_cons, if_pos hnew, if_neg hold]
  simp only [List.length_append, List.length_cons]
  omega

theorem HeadsDimmed.kept (h : HeadsDimmed sg sg') (l : List Nat) :
    ((live sg l).filter fun c => !c.head).Sublist (live sg' l) := by
  induction l with
  | nil => exact .slnil
  | cons i l ih =>
    rw [live_cons, live_cons]
    rcases h.entry i with hsame | ⟨hold, -, hnew⟩
    · rw [hsame, show sg'.content i = sg.content i from congrArg Dir.content hsame]
      by_cases hoff : dirOffset (sg.dir i) = 0
      · rw [if_pos hoff, if_pos hoff]
        exact ih
      · rw [if_neg hoff, if_neg hoff, List.filter_cons]
        split
        · exact ih.cons_cons _
        · exact ih.cons _
    · rw [if_pos hnew]
      split
      · exact ih
      · rw [List.filter_cons_of_neg (by simpa [content, Dir.content] using hold)]
        exact ih

variable {L : Layout buckets sg} {L' : Layout buckets sg'} {toPart : Dir}

namespace Layout

theorem Tight.chain_length (h : L.Tight b) (hb : b < buckets) :
    (L.chain b).length = max 1 (live sg (L.chain b)).length := by
  rcases h with hsolid | ⟨hc, hoff⟩
  · obtain ⟨l, hl⟩ := L.chain_eq_cons hb
    rw [live_of_solid hsolid, List.length_map, hl, List.length_cons]
    omega
  · rw [hc, live_cons, if_pos hoff]
    rfl

theorem slots_eq (L : Layout buckets sg) (hp : L.Packed) :
    (∑ b ∈ range buckets, max 1 (live sg (L.chain b)).length) + L.free.length = dirDepth * buckets := by
  have hlen := (L.lists_perm hp.1).length_eq
  rw [List.length_append, List.length_flatMap, List.length_range] at hlen
  rw [← hlen]
  congr 1
  refine (sum_congr rfl fun b hb => ?_).trans (sum_eq_multiset_sum _ _)
  exact ((hp.2 b (mem_range.1 hb)).chain_length (mem_range.1 hb)).symm

def entries (L : Layout buckets sg) : Nat := ∑ b ∈ range buckets, (live sg (L.chain b)).length

/-! ### One pass of `freelist_clean` -/

/-- From `L` to `L'` by one pass: what is dropped is invalid or a head entry, all invalid entries are, and
a pass that starts without a free slot and drops nothing has found nothing to drop. -/
structure Retried (v : Content → Bool) (L : Layout buckets sg) (L' : Layout buckets sg') : Prop where
  full : L'.Full
  tight : ∀ b < buckets, L'.Tight b
  valid : ∀ b < buckets, (live sg' (L'.chain b)).Sublist ((live sg (L.chain b)).filter v)
  kept : ∀ b < buckets,
    (((live sg (L.chain b)).filter v).filter fun c => !c.head).Sublist (live sg' (L'.chain b))
  progress : L.free = [] → (∀ b < buckets, live sg' (L'.chain b) = live sg (L.chain b)) →
    ∀ b < buckets, ∀ c ∈ live sg (L.chain b), v c = true ∧ c.head = false

theorem Retried.sublist (h : Retried v L L')
    (hb : b < buckets) : (live sg' (L'.chain b)).Sublist (live sg (L.chain b)) :=
  (h.valid b hb).trans List.filter_sublist

theorem retried_of_clean (L : Layout buckets sg) (hp : L.Packed) (hfull' : L'.Full)
    (hdone : ∀ b < buckets, L'.Swept b ∧ live sg' (L'.chain b) = (live sg (L.chain b)).filter v)
    (hfree : L'.free ≠ []) : Retried v L L' where
  full := hfull'
  tight b hb := (hdone b hb).1.tight
  valid b hb := (hdone b hb).2 ▸ .refl _
  kept b hb := (hdone b hb).2 ▸ List.filter_sublist
  progress hnil hsame := by
    -- the same entries leave the same number of free slots
    have hslots := L.slots_eq hp
    have hslots' := L'.slots_eq ⟨hfull', fun b hb => (hdone b hb).1.tight⟩
    have hsum : (∑ b ∈ range buckets, max 1 (live sg' (L'.chain b)).length) =
        ∑ b ∈ range buckets, max 1 (live sg (L.chain b)).length :=
      sum_congr rfl fun b hb => by rw [hsame b (mem_range.1 hb)]
    rw [hnil, List.length_nil] at hslots
    exact absurd (List.length_eq_zero_iff.1 (by omega)) hfree

theorem offset_ne_of_head (hfull : L.Full) (hswept : ∀ b < buckets, L.Swept b)
    (hfree : L.free = []) (hi : i < dirDepth * buckets) (hhead : dirHead (sg.dir i) = true) :
    ∃ b < buckets, i ∈ L.chain b ∧ dirOffset (sg.dir i) ≠ 0 := by
  cases hown : L.own i with
  | loose => exact absurd hown (hfull i hi)
  | free =>
    have hmem := (L.mem_free i).2 hown
    rw [hfree] at hmem
    cases hmem
  | chain b =>
    have hmem := (L.mem_chain b i).2 hown
    refine ⟨b, L.chain_lt i b hown, hmem, ?_⟩
    rcases hswept b (L.chain_lt i b hown) with hsolid | ⟨hc, hclear⟩
    · exact hsolid i hmem
    · rw [hc, List.mem_singleton] at hmem
      rw [hmem, hclear] at hhead
      cases hhead

theorem retried_of_purge {sg1 : Segment} (L : Layout buckets sg) {L1 : Layout buckets sg1}
    (hfull1 : L1.Full) (hfull' : L'.Full)
    (hclean : ∀ b < buckets, L1.Swept b ∧ live sg1 (L1.chain b) = (live sg (L.chain b)).filter v)
    (hfree1 : L1.free = []) (hdone : ∀ b < buckets, L'.Swept b ∧
      live sg' (L'.chain b) = (live (sg1.purgeHeads buckets) (L1.chain b)).filter v) : Retried v L L' := by
  have hdim := Dimmed.purgeHeads buckets sg1
  have hsub (b : Nat) (hb : b < buckets) :
      (live sg' (L'.chain b)).Sublist (live (sg1.purgeHeads buckets) (L1.chain b)) :=
    (hdone b hb).2 ▸ List.filter_sublist
  refine ⟨hfull', fun b hb => (hdone b hb).1.tight, fun b hb => ?_, fun b hb => ?_, fun _ hsame => ?_⟩
  · rw [← (hclean b hb).2]
    exact (hsub b hb).trans (hdim.live_sublist _)
  · have hkept := ((HeadsDimmed.purgeHeads buckets sg1).kept (L1.chain b)).filter v
    rw [(hclean b hb).2, ← (hdone b hb).2] at hkept
    refine List.Sublist.trans ?_ hkept
    -- all of them are valid
    rw [List.filter_filter, List.filter_filter]
    have hsame (c : Content) : (!c.head && v c) = (v c && (!c.head && v c)) := by cases v c <;> simp
    simp only [← hsame]
    exact .refl _
  · -- nothing was dropped at any stage
    have hstage (b : Nat) (hb : b < buckets) : live sg1 (L1.chain b) = live sg (L.chain b) ∧
          (live (sg1.purgeHeads buckets) (L1.chain b)).length = (live sg1 (L1.chain b)).length := by
      have h1 := (hsub b hb).length_le
      have h2 := (hdim.live_sublist (L1.chain b)).length_le
      have h3 : (live sg1 (L1.chain b)).Sublist (live sg (L.chain b)) := (hclean b hb).2 ▸ List.filter_sublist
      have h4 := h3.length_le
      rw [hsame b hb] at h1
      exact ⟨h3.eq_of_length (by omega), by omega⟩
    intro b hb c hc
    have hcv : v c = true := by
      have hmem : c ∈ live sg1 (L1.chain b) := (hstage b hb).1 ▸ hc
      rw [(hclean b hb).2] at hmem
      exact (List.mem_filter.1 hmem).2
    refine ⟨hcv, ?_⟩
    by_contra hhead
    rw [← (hstage b hb).1] at hc
    obtain ⟨i, hi, rfl⟩ := List.mem_map.1 (List.mem_filter.1 hc).1
    obtain ⟨j, hj, hjhead, hjoff⟩ := purgeHeads_first buckets
      ⟨i, L1.mem_chain_lt hi, by simpa [content, Dir.content] using hhead⟩
    obtain ⟨b', hb', hjmem, hjne⟩ := offset_ne_of_head hfull1 (fun b hb => (hclean b hb).1) hfree1 hj hjhead
    exact absurd (hdim.live_length_lt hjmem hjne hjoff) (by rw [(hstage b' hb').2]; exact lt_irrefl _)

theorem freelistClean_retried (L : Layout buckets sg) (hsmall : dirDepth * buckets ≤ 65536)
    (hv : ∀ d, valid d = v d.content) (hp : L.Packed) :
    ∃ sg', sg.freelistClean valid buckets = some sg' ∧ ∃ L' : Layout buckets sg', Retried v L L' := by
  obtain ⟨sg1, hrun1, L1, hfull1, h1⟩ := L.dirCleanSegment_spec hsmall hv
  rw [freelistClean, hrun1]
  by_cases hf : sg1.freelist = 0
  · have hfree1 : L1.free = [] := by
      by_contra hne
      exact L1.freelist_ne_zero_iff.2 hne hf
    obtain ⟨sg2, hrun2, L2, hfull2, h2⟩ := (L1.dim (Dimmed.purgeHeads buckets sg1)).dirCleanSegment_spec hsmall hv
    refine ⟨sg2, by simpa [hf] using hrun2, L2, ?_⟩
    exact retried_of_purge L (hfull1 hp.1) (hfull2 (hfull1 hp.1)) h1 hfree1 h2
  · refine ⟨sg1, by simp [show sg1.freelist ≠ 0#16 from hf], L1, ?_⟩
    exact retried_of_clean L hp (hfull1 hp.1) h1 (L1.freelist_ne_zero_iff.1 hf)

/-! ### The loop -/

/-- Bucket `b` has an empty head, or there is a free slot. -/
def Slotted (L : Layout buckets sg) (b : Nat) : Prop :=
  dirOffset (sg.dir (dirBucket b)) = 0 ∨ L.free ≠ []

/-- An entry that a pass can drop, of the bucket itself or of one with another entry. -/
def Droppable (v : Content → Bool) (L : Layout buckets sg) (b : Nat) : Prop :=
  ∃ b' < buckets, ∃ c ∈ live sg (L.chain b'), (v c = false ∨ c.head = true) ∧
    (b' = b ∨ 2 ≤ (live sg (L.chain b')).length)

theorem live_ne_nil_iff (h : L.Tight b) (hb : b < buckets) :
    live sg (L.chain b) ≠ [] ↔ dirOffset (sg.dir (dirBucket b)) ≠ 0 := by
  obtain ⟨l, hl⟩ := L.chain_eq_cons hb
  rcases h with hsolid | ⟨hc, hoff⟩
  · have hhead : dirOffset (sg.dir (dirBucket b)) ≠ 0 := hsolid _ (by simp [hl])
    exact iff_of_true (by simp [hl, live_cons, hhead]) hhead
  · exact iff_of_false (by simp [hc, live_cons, hoff]) (not_not.2 hoff)

theorem takeSlot_of_not_slotted (L : Layout buckets sg) (hp : L.Packed) (hb : b < buckets) (hno : ¬L.Slotted b) :
    sg.takeSlot valid buckets (dirBucket b) = (sg.freelistClean valid buckets).map (·, none) := by
  obtain ⟨hoff, hfree⟩ := not_or.1 hno
  have hnil : L.free = [] := not_not.1 hfree
  have hrow : sg.rowSlot (dirBucket b) = none := by
    by_contra hne
    obtain ⟨e, he⟩ := ne_none_iff_exists'.1 hne
    have hmem := L.rowSlot_mem_free hp hb he
    rw [hnil] at hmem
    cases hmem
  rw [takeSlot, if_neg (by simpa [dirIsEmpty] using hoff), hrow]
  simp only [L.freelistPop_nil hnil]
  cases sg.freelistClean valid buckets <;> rfl

section Loop
variable {L : Layout buckets sg} {L' : Layout buckets sg'}

theorem Retried.live_eq (h : Retried v L L') (hp : L.Packed)
    (hno : ¬L.Slotted b) (hno' : ¬L'.Slotted b) {b' : Nat} (hb' : b' < buckets)
    (huse : b' = b ∨ 2 ≤ (live sg (L.chain b')).length) : live sg' (L'.chain b') = live sg (L.chain b') := by
  have hnil : L.free = [] := not_not.1 (not_or.1 hno).2
  have hnil' : L'.free = [] := not_not.1 (not_or.1 hno').2
  have hslots := L.slots_eq hp
  have hslots' := L'.slots_eq ⟨h.full, h.tight⟩
  rw [hnil, List.length_nil] at hslots
  rw [hnil', List.length_nil] at hslots'
  -- both sums are the number of slots, so each summand is the same
  have heach := (sum_eq_sum_iff_of_le fun b hb => by
    have := (h.sublist (mem_range.1 hb)).length_le
    exact max_le_max le_rfl this).1 (hslots'.trans hslots.symm) b' (mem_range.2 hb')
  have hle := (h.sublist hb').length_le
  refine (h.sublist hb').eq_of_length ?_
  rcases huse with rfl | htwo
  · have hpos' : live sg' (L'.chain b') ≠ [] := (live_ne_nil_iff (h.tight b' hb') hb').2 (not_or.1 hno').1
    have := List.length_pos_iff.2 hpos'
    omega
  · omega

section
variable (hsmall : dirDepth * buckets ≤ 65536) (hb : b < buckets) (hv : ∀ d, valid d = v d.content)

include hsmall hb hv

/-- **The loop ends** if an entry that can be dropped is of use. -/
theorem dirInsert_of_droppable (hto : dirOffset toPart ≠ 0) (tag k : Nat) :
    ∀ {sg : Segment} (L : Layout buckets sg), L.Packed → L.Slotted b ∨ L.Droppable v b → L.entries ≤ k →
      ∃ sg', sg.dirInsert valid buckets (dirBucket b) tag toPart (k + 1) = some sg' := by
  induction k with
  | zero =>
    intro sg L hp hcan hk
    have hslot : L.Slotted b := by
      refine hcan.resolve_right fun ⟨b', hb', c, hc, _⟩ => ?_
      have hle : (live sg (L.chain b')).length ≤ L.entries :=
        single_le_sum (f := fun b => (live sg (L.chain b)).length) (fun _ _ => Nat.zero_le _) (mem_range.2 hb')
      have := List.length_pos_of_mem hc
      omega
    obtain ⟨sg', hrun, -⟩ := L.dirInsert_of_slot hsmall hb hv hp hto hslot 0
    exact ⟨sg', hrun⟩
  | succ k ih =>
    intro sg L hp hcan hk
    by_cases hslot : L.Slotted b
    · obtain ⟨sg', hrun, -⟩ := L.dirInsert_of_slot hsmall hb hv hp hto hslot (k + 1)
      exact ⟨sg', hrun⟩
    obtain ⟨sg1, hclean, L1, h1⟩ := L.freelistClean_retried hsmall hv hp
    obtain ⟨b', hb', c, hc, hdrop, huse⟩ := hcan.resolve_left hslot
    have hnext : L1.Slotted b ∨ L1.Droppable v b := by
      refine or_iff_not_imp_left.2 fun hno => ?_
      have heq := h1.live_eq hp hslot hno hb' huse
      exact ⟨b', hb', c, heq ▸ hc, hdrop, huse.imp_right fun htwo => heq ▸ htwo⟩
    -- a pass that drops nothing would have found nothing to drop
    have hfewer : L1.entries < L.entries := by
      by_contra hnot
      have hle (b : Nat) (hb : b ∈ range buckets) : (live sg1 (L1.chain b)).length ≤ (live sg (L.chain b)).length :=
        (h1.sublist (mem_range.1 hb)).length_le
      have hsum : L1.entries = L.entries := le_antisymm (sum_le_sum hle) (not_lt.1 hnot)
      have hsame (b : Nat) (hb : b < buckets) : live sg1 (L1.chain b) = live sg (L.chain b) :=
        (h1.sublist hb).eq_of_length ((sum_eq_sum_iff_of_le hle).1 hsum b (mem_range.2 hb))
      obtain ⟨hcv, hch⟩ := h1.progress (not_not.1 (not_or.1 hslot).2) hsame b' hb' c hc
      rcases hdrop with hinv | hhead
      · rw [hcv] at hinv
        cases hinv
      · rw [hch] at hhead
        cases hhead
    obtain ⟨sg', hrun⟩ := ih L1 ⟨h1.full, h1.tight⟩ hnext (by omega)
    refine ⟨sg', ?_⟩
    rw [dirInsert, L.takeSlot_of_not_slotted hp hb hslot, hclean]
    exact hrun

/-- **The loop goes on for ever** if no entry that can be dropped is of use. -/
theorem dirInsert_eq_none (tag n : Nat) : ∀ {sg : Segment} (L : Layout buckets sg), L.Packed →
      ¬L.Slotted b → ¬L.Droppable v b → sg.dirInsert valid buckets (dirBucket b) tag toPart n = none := by
  induction n with
  | zero => intro sg L _ _ _; rfl
  | succ n ih =>
    intro sg L hp hslot hdrop
    obtain ⟨sg1, hclean, L1, h1⟩ := L.freelistClean_retried hsmall hv hp
    rw [dirInsert, L.takeSlot_of_not_slotted hp hb hslot, hclean]
    -- the buckets of use keep all their entries
    have heq (b' : Nat) (hb' : b' < buckets) (huse : b' = b ∨ 2 ≤ (live sg (L.chain b')).length) :
        live sg1 (L1.chain b') = live sg (L.chain b') := by
      have hall (c : Content) (hc : c ∈ live sg (L.chain b')) : v c = true ∧ c.head = false := by
        by_contra hno
        refine hdrop ⟨b', hb', c, hc, ?_, huse⟩
        by_cases hcv : v c = true
        · exact .inr (by simpa [hcv] using hno)
        · exact .inl (by simpa using hcv)
      have hkept := h1.kept b' hb'
      rw [List.filter_eq_self.2 fun c hc => (hall c hc).1,
        List.filter_eq_self.2 fun c hc => by simp [(hall c hc).2]] at hkept
      exact (h1.sublist hb').antisymm hkept
    have hslot1 : ¬L1.Slotted b := by
      obtain ⟨hoff, hfree⟩ := not_or.1 hslot
      have hne : live sg1 (L1.chain b) ≠ [] := by
        rw [heq b hb (.inl rfl)]
        exact (live_ne_nil_iff (hp.2 b hb) hb).2 hoff
      refine not_or.2 ⟨(live_ne_nil_iff (h1.tight b hb) hb).1 hne, not_not.2 ?_⟩
      -- the other buckets have one entry at most and use one slot either way
      have hslots := L.slots_eq hp
      have hslots1 := L1.slots_eq ⟨h1.full, h1.tight⟩
      have hsum : (∑ b ∈ range buckets, max 1 (live sg1 (L1.chain b)).length) =
          ∑ b ∈ range buckets, max 1 (live sg (L.chain b)).length := by
        refine sum_congr rfl fun b' hb' => ?_
        have hlt := mem_range.1 hb'
        by_cases htwo : 2 ≤ (live sg (L.chain b')).length
        · rw [heq b' hlt (.inr htwo)]
        · have := (h1.sublist hlt).length_le
          omega
      rw [not_not.1 hfree, List.length_nil] at hslots
      exact List.length_eq_zero_iff.1 (by omega)
    have hdrop1 : ¬L1.Droppable v b := by
      rintro ⟨b', hb', c, hc, hcdrop, huse⟩
      have hle := (h1.sublist hb').length_le
      have huse' : b' = b ∨ 2 ≤ (live sg (L.chain b')).length := huse.imp_right fun h => h.trans hle
      exact hdrop ⟨b', hb', c, heq b' hb' huse' ▸ hc, hcdrop, huse'⟩
    exact ih L1 ⟨h1.full, h1.tight⟩ hslot1 hdrop1

end

end Loop

theorem entries_le (L : Layout buckets sg) (hp : L.Packed) : L.entries ≤ dirDepth * buckets := by
  have hslots := L.slots_eq hp
  have hle : L.entries ≤ ∑ b ∈ range buckets, max 1 (live sg (L.chain b)).length :=
    sum_le_sum fun b _ => le_max_right ..
  omega

end Layout

/-! ### The condition on a well-formed directory -/

namespace Segment

/-- There is a slot, or `freelist_clean` can make one: it can drop an entry of the bucket, or one of a
bucket that has another. -/
def Retriable (v : Content → Bool) (buckets : Nat) (sg : Segment) (b : Nat) : Prop :=
  sg.HasSlot b ∨ ∃ b' < buckets, ∃ c ∈ sg.contents buckets b', (v c = false ∨ c.head = true) ∧
    (b' = b ∨ 2 ≤ (sg.contents buckets b').card)

theorem hasSlot_iff_slotted (hp : L.Packed) (hb : b < buckets) : sg.HasSlot b ↔ L.Slotted b := by
  have hempty : dirIsEmpty (sg.dir (dirBucket b)) = true ↔ dirOffset (sg.dir (dirBucket b)) = 0 := by
    simp [dirIsEmpty]
  rw [HasSlot, Layout.Slotted, hempty, L.freelist_ne_zero_iff]
  refine or_congr_right (or_iff_right_of_imp fun hrow => ?_)
  obtain ⟨e, he⟩ := isSome_iff_exists.1 hrow
  exact List.ne_nil_of_mem (L.rowSlot_mem_free hp hb he)

theorem retriable_iff (hp : L.Packed)
    (hb : b < buckets) : sg.Retriable v buckets b ↔ L.Slotted b ∨ L.Droppable v b := by
  rw [Retriable, hasSlot_iff_slotted hp hb, Layout.Droppable]
  refine or_congr_right (exists_congr fun b' => and_congr_right fun hb' => ?_)
  rw [L.contents_eq hb', Multiset.coe_card]
  rfl

/-- **When `dir_insert` returns**: with an entry for each pass at most, or never. -/
theorem WF.dirInsert_isSome_iff (h : sg.WF buckets) (hsmall : dirDepth * buckets ≤ 65536)
    (hb : b < buckets) (hv : ∀ d, valid d = v d.content) (hto : dirOffset toPart ≠ 0)
    (tag : Nat) : (sg.Retriable v buckets b →
      (sg.dirInsert valid buckets (dirBucket b) tag toPart (dirDepth * buckets + 1)).isSome) ∧
    (¬sg.Retriable v buckets b → ∀ n, sg.dirInsert valid buckets (dirBucket b) tag toPart n = none) := by
  obtain ⟨L, hp⟩ := h
  rw [retriable_iff hp hb]
  refine ⟨fun hcan => ?_, fun hno n => ?_⟩
  · exact isSome_iff_exists.2 (Layout.dirInsert_of_droppable hsmall hb hv hto tag _ L hp hcan (L.entries_le hp))
  · obtain ⟨hslot, hdrop⟩ := not_or.1 hno
    exact Layout.dirInsert_eq_none hsmall hb hv tag n L hp hslot hdrop

end Segment

namespace Part

variable {d : Part}

/-- A slot for the key can be found, in the end. -/
def CanInsert (d : Part) (key : CacheKey) : Prop :=
  (d.segment (d.keySegment key)).Retriable (contentValid d) d.geo.buckets (d.keyBucket key)

def HasMatch (d : Part) (key : CacheKey) (overwrite : Dir) : Prop :=
  ∃ c ∈ d.contents (d.keySegment key) (d.keyBucket key),
    c.tag = dirMaskTag (key.word 2) ∧ c.offset = dirOffset overwrite

theorem dirInsert_isSome (h : d.WF) (key : CacheKey) (hto : dirOffset toPart ≠ 0) :
    (d.CanInsert key → (d.dirInsert key toPart (dirDepth * d.geo.buckets + 1)).isSome) ∧
    (¬d.CanInsert key → ∀ n, d.dirInsert key toPart n = none) := by
  obtain ⟨hcan, hno⟩ := (h _ (d.keySegment_lt key)).dirInsert_isSome_iff d.geo.small (d.keyBucket_lt key)
    (dirValid_eq d) hto (key.word 2)
  refine ⟨fun hc => ?_, fun hc n => ?_⟩
  · rw [dirInsert, onSegment, isSome_map]
    exact hcan hc
  · rw [dirInsert, onSegment, hno hc n]
    rfl

theorem dirOverwrite_isSome (h : d.WF) (key : CacheKey) {dir : Dir} (hdir : dirOffset dir ≠ 0)
    (overwrite : Dir) (must : Bool) : (must = true ∨ d.HasMatch key overwrite ∨ d.CanInsert key →
      (d.dirOverwrite key dir overwrite must (dirDepth * d.geo.buckets + 1)).isSome) ∧
    (¬(must = true ∨ d.HasMatch key overwrite ∨ d.CanInsert key) →
      ∀ n, d.dirOverwrite key dir overwrite must n = none) := by
  by_cases hmatch : d.HasMatch key overwrite
  · refine ⟨fun _ => ?_, fun hno => absurd (.inr (.inl hmatch)) hno⟩
    obtain ⟨d', c, rest, hrun, -⟩ := dirOverwrite_match h key hdir hmatch must (dirDepth * d.geo.buckets)
    rw [hrun]
    rfl
  cases must with
  | true =>
    refine ⟨fun _ => ?_, fun hno => absurd (.inl rfl) hno⟩
    rw [dirOverwrite_must h key hmatch]
    rfl
  | false =>
    -- with nothing to overwrite it is an insert
    obtain ⟨hcan, hno⟩ := dirInsert_isSome h key hdir
    refine ⟨fun hc => ?_, fun hc n => ?_⟩
    · rw [dirOverwrite_insert h key hmatch, isSome_map]
      exact hcan ((hc.resolve_left Bool.false_ne_true).resolve_left hmatch)
    · rw [dirOverwrite_insert h key hmatch, hno (fun hc' => hc (.inr (.inr hc'))) n]
      rfl

/-- **When `dir_insert` and `dir_overwrite` return**, on every well-formed directory: within one pass for
each slot of the segment, or never. -/
theorem dir_insert_overwrite_return_iff (d : Part) (h : d.WF) (key : CacheKey) (e : Dir)
    (he : dirOffset e ≠ 0) (overwrite : Dir) (must : Bool) : ((∃ n, (d.dirInsert key e n).isSome) ↔ d.CanInsert key) ∧
    (d.CanInsert key → (d.dirInsert key e (dirDepth * d.geo.buckets + 1)).isSome) ∧
    ((∃ n, (d.dirOverwrite key e overwrite must n).isSome) ↔
      must = true ∨ d.HasMatch key overwrite ∨ d.CanInsert key) ∧
    (must = true ∨ d.HasMatch key overwrite ∨ d.CanInsert key →
      (d.dirOverwrite key e overwrite must (dirDepth * d.geo.buckets + 1)).isSome) := by
  obtain ⟨hins, hins'⟩ := dirInsert_isSome h key he
  obtain ⟨hover, hover'⟩ := dirOverwrite_isSome h key he overwrite must
  refine ⟨⟨fun ⟨n, hn⟩ => ?_, fun hc => ⟨_, hins hc⟩⟩, hins,
    ⟨fun ⟨n, hn⟩ => ?_, fun hc => ⟨_, hover hc⟩⟩, hover⟩
  · by_contra hno
    rw [hins' hno n] at hn
    cases hn
  · by_contra hno
    rw [hover' hno n] at hn
    cases hn

/-- Entries of the other phase, none of them a head entry, one for each block. -/
def fragment (k : Nat) : Dir := ⟨BitVec.ofNat 16 (k + 1), 0, 4096, 0, 0⟩

/-- A directory of one bucket with four of them. -/
def filled : Part :=
  (List.range 4).foldl (fun d i => (d.dirInsert ⟨0, 7⟩ (fragment i) 1).getD d) tiny.zeroDir.initDir

theorem fragment_offset : ∀ k < 5, dirOffset (fragment k) ≠ 0 := by decide

theorem filled_run : ReflTransGen DirStep tiny.zeroDir.initDir filled :=
  (((ReflTransGen.single ⟨.insert ⟨0, 7⟩ (fragment 0), 1, fragment_offset 0 (by decide), rfl⟩).tail
    ⟨.insert ⟨0, 7⟩ (fragment 1), 1, fragment_offset 1 (by decide), rfl⟩).tail
    ⟨.insert ⟨0, 7⟩ (fragment 2), 1, fragment_offset 2 (by decide), rfl⟩).tail
    ⟨.insert ⟨0, 7⟩ (fragment 3), 1, fragment_offset 3 (by decide), rfl⟩

theorem filled_wf : filled.WF := (initDir_spec tiny).2.1.run filled_run

theorem filled_entries : ∀ c ∈ filled.contents 0 0,
    contentValid filled c = true ∧ c.head = false ∧ c.offset ≠ dirOffset (fragment 5) := by
  decide +kernel

theorem filled_full : ¬filled.CanInsert ⟨0, 7⟩ := by
  rintro (h | ⟨b, hb, c, hc, hdrop, -⟩)
  · revert h
    unfold HasSlot
    decide +kernel
  · obtain rfl : b = 0 := Nat.lt_one_iff.1 hb
    obtain ⟨hval, hhead, -⟩ := filled_entries c hc
    simp [hval, hhead] at hdrop

/-- With every slot taken, an overwrite of the third entry returns. -/
theorem dir_insert_overwrite_return_filled : dirOffset (fragment 4) ≠ 0 ∧ ¬filled.CanInsert ⟨0, 7⟩ ∧
    (filled.dirOverwrite ⟨0, 7⟩ (fragment 4) (fragment 2) false (dirDepth * filled.geo.buckets + 1)).isSome := by
  have hto := fragment_offset 4 (by decide)
  have hmatch : filled.HasMatch ⟨0, 7⟩ (fragment 2) := ⟨(fragment 2).under 7, by decide +kernel, rfl, rfl⟩
  exact ⟨hto, filled_full,
    (dir_insert_overwrite_return_iff _ filled_wf ⟨0, 7⟩ _ hto (fragment 2) false).2.2.2 (.inr (.inl hmatch))⟩

/-- After four inserts of different entries into a new directory of one bucket, a fifth insert never
returns, and neither does an overwrite that finds nothing. -/
theorem dir_insert_never_returns : ∃ d : Part, d.WF ∧ ReflTransGen DirStep tiny.zeroDir.initDir d ∧
    d.contents 0 0 = (Multiset.range 4).map (fun i => (fragment i).under 7) ∧ dirOffset (fragment 4) ≠ 0 ∧
    (∀ n, d.dirInsert ⟨0, 7⟩ (fragment 4) n = none) ∧
    ∀ n, d.dirOverwrite ⟨0, 7⟩ (fragment 4) (fragment 5) false n = none := by
  have hto := fragment_offset 4 (by decide)
  have hmatch : ¬filled.HasMatch ⟨0, 7⟩ (fragment 5) := by
    rintro ⟨c, hc, -, hoff⟩
    exact (filled_entries c hc).2.2 hoff
  refine ⟨filled, filled_wf, filled_run, by decide +kernel, hto, (dirInsert_isSome filled_wf _ hto).2 filled_full,
    (dirOverwrite_isSome filled_wf _ hto _ _).2 ?_⟩
  rintro (h | h | h)
  · cases h
  · exact hmatch h
  · exact filled_full h

end Part

end TrafficServer
