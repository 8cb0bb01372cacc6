import TrafficServer.Cache.Directory

/-!
# Enumerating the collisions of a key

A caller of `dir_probe` goes on from the entry it was given by handing its address back. A probe
skips entries up to that address without touching them, and after it deletes entries only behind a
predecessor, so no slot before the address changes any more; entries move between slots only in the
first probe, before its hit. What is still to come is therefore what the chain says behind the last
hit (`Found`), and a loop such as the one of `evacuate_fragments` is a fold over the entries of the
tag that are valid.
-/

namespace TrafficServer

open List

namespace Part

/-- A loop over the collisions of a key, with `body` run on each entry; the address in
`last_collision` counts in the whole directory. -/
def collisionLoop {σ : Type} (key : CacheKey) (body : σ → Content → σ) :
    Nat → Part → Option Nat → σ → Option (Part × σ)
  | 0, _, _, _ => none
  | n + 1, d, lastCollision, acc =>
    match d.dirProbe key lastCollision with
    | none => none
    | some (d, none) => some (d, acc)
    | some (d, some e) =>
      collisionLoop key body n d (some (d.geo.segStart (d.keySegment key) + e))
        (body acc ((d.segment (d.keySegment key)).content e))

/-- The entries of the key's bucket that have its tag and are `dir_valid`, in chain order. -/
def collisions (d : Part) (key : CacheKey) : List Content :=
  let sg := d.segment (d.keySegment key)
  ((sg.bucketChain d.geo.buckets (d.keyBucket key)).filter fun e =>
    !dirIsEmpty (sg.dir e) && dirTag (sg.dir e) == dirMaskTag (key.word 2) && dirValid d (sg.dir e)).map
      sg.content

end Part

/-! ### `evacuate_fragments` -/

/-- `EvacuationBlock`, with the keys of `evac_frags` from the embedded one on. -/
structure EvacuationBlock where
  dir : Content
  evacFrags : List (CacheKey × CacheKey)
  readers : Int
deriving DecidableEq, Repr

def dirEvacBucket (c : Content) : Nat := c.offset / 32768

def EvacuationBlock.addKey (b : EvacuationBlock) (key earliestKey : CacheKey) (force : Bool) :
    EvacuationBlock :=
  { b with
    evacFrags := b.evacFrags.take 1 ++ (key, earliestKey) :: b.evacFrags.drop 1
    readers := if force then 0 else b.readers }

/-- The block that `evacuation_block_exists` finds in a bucket gets the key; `none` without one. -/
def addToBlock (dir : Content) (key earliestKey : CacheKey) (force : Bool) :
    List EvacuationBlock → Option (List EvacuationBlock)
  | [] => none
  | b :: bs =>
    if b.dir.offset = dir.offset then some (b.addKey key earliestKey force :: bs)
    else (addToBlock dir key earliestKey force bs).map (b :: ·)

/-- The body of the loop of `evacuate_fragments`: the table `evacuate` and the count `i`. -/
def evacuateFragment (key earliestKey : CacheKey) (force : Bool)
    (acc : (Nat → List EvacuationBlock) × Nat) (dir : Content) : (Nat → List EvacuationBlock) × Nat :=
  if dir.head then acc
  else
    let k := dirEvacBucket dir
    match addToBlock dir key earliestKey force (acc.1 k) with
    | some bs => (Function.update acc.1 k bs, acc.2)
    | none => (Function.update acc.1 k (⟨dir, [(key, earliestKey)], 0⟩ :: acc.1 k), acc.2 + 1)

def evacuateFragments (d : Part) (key earliestKey : CacheKey) (force : Bool)
    (evacuate : Nat → List EvacuationBlock) (fuel : Nat) :
    Option (Part × (Nat → List EvacuationBlock) × Nat) :=
  d.collisionLoop key (evacuateFragment key earliestKey force) fuel none (evacuate, 0)

/-! ### One probe -/

namespace Layout

open Segment

variable {buckets b e x n base tag : Nat} {sg sg' : Segment} {valid : Dir → Bool}
  {v : Content → Bool} {l₁ l₂ m B : List Nat} {hit p rest : Option Nat}

def matchesTag (v : Content → Bool) (tag : Nat) (c : Content) : Bool := c.tag == tag && v c

/-- The matches of `cs`, from the front on, are the entry at `hit` and those behind it in the chain
of `sg'`; without a hit there are none. -/
def Found (buckets : Nat) (v : Content → Bool) (tag b : Nat) (cs : List Content) (sg' : Segment) :
    Option Nat → Prop
  | none => cs.filter (matchesTag v tag) = []
  | some i => ∃ A B, sg'.bucketChain buckets b = A ++ i :: B ∧
      cs.filter (matchesTag v tag) =
        sg'.content i :: (B.map sg'.content).filter (matchesTag v tag)

theorem Found.congr {cs cs' : List Content} (h : Found buckets v tag b cs sg' hit)
    (heq : cs'.filter (matchesTag v tag) = cs.filter (matchesTag v tag)) : Found buckets v tag b cs' sg' hit := by
  cases hit with
  | none => exact heq.trans h
  | some i =>
    obtain ⟨A, B, hchain, hcs⟩ := h
    exact ⟨A, B, hchain, heq.trans hcs⟩

theorem Found.skip {c : Content} {cs : List Content} (hc : matchesTag v tag c = false)
    (h : Found buckets v tag b cs sg' hit) : Found buckets v tag b (c :: cs) sg' hit :=
  h.congr (filter_cons_of_neg (by simp [hc]))

theorem probeLoop_found (hsmall : dirDepth * buckets ≤ 65536) (hb : b < buckets)
    (hv : ∀ d, valid d = v d.content) (n : Nat) :
    ∀ {sg : Segment} (L : Layout buckets sg) (l₁ : List Nat) {l₂ : List Nat} {e : Nat},
      L.chain b = l₁ ++ e :: l₂ → probeLoop valid base tag n sg e l₁.getLast? none = some (sg', hit, p, rest) →
      rest = none ∧ Found buckets v tag b ((e :: l₂).map sg.content) sg' hit := by
  induction n with
  | zero => intro sg L l₁ l₂ e _ hrun; cases hrun
  | succ n ih =>
    intro sg L l₁ l₂ e hC hrun
    rw [probeLoop] at hrun
    by_cases htag : dirTag (sg.dir e) = tag
    · rw [if_pos ⟨htag, rfl⟩] at hrun
      have htag' : ((sg.content e).tag == tag) = true := beq_iff_eq.2 htag
      by_cases hval : valid (sg.dir e) = true
      · rw [if_pos hval] at hrun
        have hmatch : matchesTag v tag (sg.content e) = true := by
          rw [matchesTag, htag', Bool.true_and]
          exact (hv _).symm.trans hval
        cases hrun
        exact ⟨rfl, l₁, l₂, (L.bucketChain_eq hb).trans hC, filter_cons_of_pos hmatch⟩
      · rw [if_neg hval] at hrun
        have hmatch : matchesTag v tag (sg.content e) = false := by
          rw [matchesTag, htag', Bool.true_and]
          exact (hv _).symm.trans (Bool.not_eq_true _ ▸ hval)
        obtain ⟨L', hdel⟩ := L.dirDeleteEntry_spec hsmall hb hC
        generalize sg.dirDeleteEntry e l₁.getLast? = res at L' hdel hrun
        obtain ⟨sg1, r⟩ := res
        -- the entries to come may sit in other slots now, but say the same
        cases hdel with
        | last _ after _ next =>
          obtain rfl : r = none := next
          cases hrun
          refine ⟨rfl, Found.skip hmatch ?_⟩
          rw [after]
          rfl
        | entry l chain next later =>
          obtain rfl : r = l.head? := next
          cases l with
          | nil =>
            cases hrun
            refine ⟨rfl, Found.skip hmatch ?_⟩
            rw [← later]
            rfl
          | cons e' l =>
            obtain ⟨hrest, hfound⟩ := ih L' l₁ chain hrun
            exact ⟨hrest, Found.skip hmatch (later ▸ hfound)⟩
    · rw [if_neg (fun h => htag h.1), if_neg (fun h => htag h.1), L.next_eq hb hC] at hrun
      have hmatch : matchesTag v tag (sg.content e) = false := by
        have htag' : ((sg.content e).tag == tag) = false := beq_false_of_ne htag
        rw [matchesTag, htag', Bool.false_and]
      cases l₂ with
      | nil =>
        cases hrun
        exact ⟨rfl, Found.skip hmatch rfl⟩
      | cons e' l₂ =>
        have hC' : L.chain b = (l₁ ++ [e]) ++ e' :: l₂ := by simpa using hC
        obtain ⟨hrest, hfound⟩ := ih L _ hC' (by rwa [getLast?_concat])
        exact ⟨hrest, Found.skip hmatch hfound⟩

theorem probeLoop_skip (L : Layout buckets sg) (hb : b < buckets) (htag : dirTag (sg.dir x) = tag)
    (n : Nat) : ∀ (m l₁ : List Nat), L.chain b = l₁ ++ m ++ x :: B → ∃ e, (m ++ [x]).head? = some e ∧
        probeLoop valid base tag (m.length + 1 + n) sg e l₁.getLast? (some (base + x)) =
          B.head?.elim (some (sg, none, some x, none)) fun e' => probeLoop valid base tag n sg e' (some x) none := by
  intro m
  induction m with
  | nil =>
    intro l₁ hC
    refine ⟨x, rfl, ?_⟩
    rw [show ([] : List Nat).length + 1 + n = n + 1 from add_comm .., probeLoop,
      if_neg (fun h => Option.some_ne_none _ h.2), if_pos ⟨htag, rfl⟩, L.next_eq hb (by simpa using hC)]
    cases B <;> rfl
  | cons a m ih =>
    intro l₁ hC
    refine ⟨a, rfl, ?_⟩
    have hC' : L.chain b = l₁ ++ a :: (m ++ x :: B) := by simpa using hC
    have hne : a ≠ x := by
      have hnd : (l₁ ++ a :: (m ++ x :: B)).Nodup := hC' ▸ L.chain_nodup hb
      grind
    have hcoll : ¬ (dirTag (sg.dir a) = tag ∧ some (base + x) = some (base + a)) := by
      rintro ⟨-, h⟩
      exact hne (add_left_cancel (Option.some.inj h)).symm
    obtain ⟨e, he, hrun⟩ := ih (l₁ ++ [a]) (by simpa using hC)
    have hhead : (m ++ x :: B).head? = some e := by cases m <;> exact he
    rw [show (a :: m).length + 1 + n = (m.length + 1 + n) + 1 by simp; omega, probeLoop,
      if_neg (fun h => Option.some_ne_none _ h.2), if_neg hcoll, L.next_eq hb hC', hhead, ← hrun, getLast?_concat]

variable (L : Layout buckets sg) (hsmall : dirDepth * buckets ≤ 65536) (hb : b < buckets)
  (hv : ∀ d, valid d = v d.content)
include hsmall hb hv

theorem dirProbe_first (ht : L.Tight b)
    (hrun : sg.dirProbe valid buckets base (dirBucket b) tag none = some (sg', hit)) :
    Found buckets v (dirMaskTag tag) b (live sg (L.chain b)) sg' hit := by
  by_cases he : dirOffset (sg.dir (dirBucket b)) = 0
  · have hempty : live sg (L.chain b) = [] := by
      rcases ht with ht | ⟨hc, -⟩
      · obtain ⟨l, hl⟩ := L.chain_eq_cons hb
        exact absurd he (ht _ (by simp [hl]))
      · rw [hc, live_cons, if_pos he, live_nil]
    rw [dirProbe, probePass, if_pos (by simpa [dirIsEmpty] using he)] at hrun
    cases hrun
    rw [hempty]
    rfl
  · obtain ⟨l, hl⟩ := L.chain_eq_cons hb
    rw [dirProbe, probePass, if_neg (by simpa [dirIsEmpty] using he)] at hrun
    obtain ⟨⟨sg1, hit1, p, rest⟩, hpass, hret⟩ := Option.bind_eq_some_iff.1 hrun
    obtain ⟨rfl, hfound⟩ := L.probeLoop_found hsmall hb hv _ [] hl hpass
    rw [live_of_solid (ht.solid he), hl]
    cases hit1 <;> cases hret <;> exact hfound

theorem dirProbe_behind (hC : L.chain b = m ++ x :: B) (htag : dirTag (sg.dir x) = dirMaskTag tag)
    (hhead : dirOffset (sg.dir (dirBucket b)) ≠ 0)
    (hrun : sg.dirProbe valid buckets base (dirBucket b) tag (some (base + x)) = some (sg', hit)) :
    Found buckets v (dirMaskTag tag) b (B.map sg.content) sg' hit := by
  obtain ⟨l, hl⟩ := L.chain_eq_cons hb
  have hlen := L.chain_length_le hb
  rw [hC, length_append, length_cons] at hlen
  obtain ⟨k, hk⟩ : ∃ k, 2 * (dirDepth * buckets) + 1 = m.length + 1 + k :=
    ⟨2 * (dirDepth * buckets) - m.length, by omega⟩
  obtain ⟨e, he, hskip⟩ := L.probeLoop_skip hb htag k m [] hC
  obtain rfl : dirBucket b = e := by
    have : (L.chain b).head? = some e := by
      rw [hC, ← he, head?_append, head?_append]
      rfl
    rw [hl] at this
    exact Option.some.inj this
  rw [dirProbe, probePass, if_neg (by simpa [dirIsEmpty] using hhead), hk] at hrun
  obtain ⟨⟨sg1, hit1, p, rest⟩, hpass, hret⟩ := Option.bind_eq_some_iff.1 hrun
  rw [show (none : Option Nat) = ([] : List Nat).getLast? from rfl, hskip] at hpass
  cases B with
  | nil =>
    cases hpass
    cases hret
    rfl
  | cons e' B =>
    obtain ⟨rfl, hfound⟩ := L.probeLoop_found hsmall hb hv k (m ++ [x])
      (show L.chain b = (m ++ [x]) ++ e' :: B by simpa using hC)
      (by rw [getLast?_concat]; exact hpass)
    cases hit1 <;> cases hret <;> exact hfound

end Layout

/-! ### The whole loop -/

namespace Part

open Layout

variable {d d' : Part} {key : CacheKey} {last : Option Nat} {cs : List Content}

/-- Where a loop stands: `cs` are the entries that probes from `last` have still to find. -/
def Ahead (d : Part) (key : CacheKey) (cs : List Content) : Option Nat → Prop
  | none => d.collisions key = cs
  | some k =>
    let sg := d.segment (d.keySegment key)
    ∃ A x B, k = d.geo.segStart (d.keySegment key) + x ∧
      sg.bucketChain d.geo.buckets (d.keyBucket key) = A ++ x :: B ∧
      dirTag (sg.dir x) = dirMaskTag (key.word 2) ∧
      dirOffset (sg.dir (dirBucket (d.keyBucket key))) ≠ 0 ∧
      (B.map sg.content).filter (matchesTag (contentValid d) (dirMaskTag (key.word 2))) = cs

theorem filter_live_matches (d : Part) (sg : Segment) (tag : Nat) (l : List Nat) :
    (live sg l).filter (matchesTag (contentValid d) tag) =
      (l.filter fun e => !dirIsEmpty (sg.dir e) && dirTag (sg.dir e) == tag &&
        dirValid d (sg.dir e)).map sg.content := by
  rw [live, filter_filter, filter_map]
  refine congrArg _ (filter_congr fun e _ => ?_)
  have hempty : decide ((sg.content e).offset ≠ 0) = !dirIsEmpty (sg.dir e) := decide_not
  show (matchesTag (contentValid d) tag (sg.content e) && decide ((sg.content e).offset ≠ 0)) = _
  rw [hempty, Bool.and_comm, Bool.and_assoc]
  rfl

theorem OnlyBucket.trans {s b : Nat} {d'' : Part} (h : d.OnlyBucket s b d')
    (h' : d'.OnlyBucket s b d'') : d.OnlyBucket s b d'' where
  wf := h'.wf
  geo := h'.geo.trans h.geo
  other s' hs' b' hb' hne := (h'.other s' (h.geo ▸ hs') b' (h.geo ▸ hb') hne).trans (h.other s' hs' b' hb' hne)

theorem Ahead.found (h : d.WF) (ha : d.Ahead key cs last) {sg' : Segment} {hit : Option Nat}
    (hrun : (d.segment (d.keySegment key)).dirProbe (dirValid d) d.geo.buckets
      (d.geo.segStart (d.keySegment key)) (dirBucket (d.keyBucket key)) (key.word 2) last = some (sg', hit)) :
    ∃ l : List Content, l.filter (matchesTag (contentValid d) (dirMaskTag (key.word 2))) = cs ∧
      Found d.geo.buckets (contentValid d) (dirMaskTag (key.word 2)) (d.keyBucket key) l sg' hit := by
  have hb := d.keyBucket_lt key
  obtain ⟨L, -, htight⟩ := h _ (d.keySegment_lt key)
  cases last with
  | none =>
    refine ⟨_, ?_, L.dirProbe_first d.geo.small hb (dirValid_eq d) (htight _ hb) hrun⟩
    rw [filter_live_matches, ← L.bucketChain_eq hb]
    exact ha
  | some k =>
    obtain ⟨A, x, B, rfl, hchain, htag, hhead, hcs⟩ := ha
    rw [L.bucketChain_eq hb] at hchain
    exact ⟨_, hcs, L.dirProbe_behind d.geo.small hb (dirValid_eq d) hchain htag hhead hrun⟩

theorem ahead_setSegment {sg' : Segment} {A B : List Nat} {e : Nat} (hwf : sg'.WF d.geo.buckets)
    (hchain : sg'.bucketChain d.geo.buckets (d.keyBucket key) = A ++ e :: B)
    (htag : (sg'.content e).tag = dirMaskTag (key.word 2))
    (hmem : sg'.content e ∈ sg'.contents d.geo.buckets (d.keyBucket key)) :
    let d' := d.setSegment (d.keySegment key) sg'
    (d'.segment (d.keySegment key)).content e = sg'.content e ∧ d'.Ahead key
        ((B.map sg'.content).filter (matchesTag (contentValid d) (dirMaskTag (key.word 2))))
        (some (d.geo.segStart (d.keySegment key) + e)) := by
  intro d'
  have hb := d.keyBucket_lt key
  have hagree := d.setSegment_self (d.keySegment key) sg'
  obtain ⟨L, -, htight⟩ := hwf
  have hC : L.chain (d.keyBucket key) = A ++ e :: B := (L.bucketChain_eq hb).symm.trans hchain
  have hslot : ∀ i ∈ A ++ e :: B, (d'.segment (d.keySegment key)).dir i = sg'.dir i := fun i hi =>
    hagree.dir i (L.mem_chain_lt (b := d.keyBucket key) (hC ▸ hi))
  have he := hslot e (by simp)
  have hhead : dirBucket (d.keyBucket key) ∈ A ++ e :: B := by
    obtain ⟨t, ht⟩ := L.chain_eq_cons hb
    rw [← hC, ht]
    exact mem_cons_self
  have hsolid : dirOffset (sg'.dir (dirBucket (d.keyBucket key))) ≠ 0 := by
    rcases htight _ hb with hsolid | ⟨hone, hzero⟩
    · exact hsolid _ (hC ▸ hhead)
    · rw [L.contents_eq hb, hone, live_cons, if_pos hzero] at hmem
      exact absurd hmem (by simp)
  refine ⟨congrArg Dir.content he, A, e, B, rfl, ?_, ?_, ?_, ?_⟩
  · exact ((hagree.layout L).bucketChain_eq hb).trans hC
  · exact (congrArg dirTag he).trans htag
  · exact fun h => hsolid ((congrArg dirOffset (hslot _ hhead)).symm.trans h)
  · refine congrArg (List.filter _) (map_congr_left fun i hi => ?_)
    exact congrArg Dir.content (hslot i (by simp [hi]))

theorem Ahead.not_stray (ha : d.Ahead key cs last) : ¬ d.Stray key last := by
  rintro ⟨⟨c, hc, hmiss⟩, -⟩
  obtain rfl : last = some c := hc
  obtain ⟨A, x, B, rfl, hchain, htag, -⟩ := ha
  exact hmiss x (by simp [hchain]) htag rfl

/-- **One step of a loop**: the first entry that is still to come is found, and the others are
still to come. -/
theorem Ahead.dirProbe (h : d.WF) (ha : d.Ahead key cs last) :
    ∃ d' hit, d.dirProbe key last = some (d', hit) ∧ d.OnlyBucket (d.keySegment key) (d.keyBucket key) d' ∧
      match hit with
      | none => cs = []
      | some e => ∃ rest, cs = (d'.segment (d'.keySegment key)).content e :: rest ∧
          d'.Ahead key rest (some (d'.geo.segStart (d'.keySegment key) + e)) := by
  obtain ⟨sg', hit, -, hrun, honly, -, -, hhit⟩ := (h _ (d.keySegment_lt key)).dirProbe d.geo.small
    (d.keyBucket_lt key) (dirValid_eq d) (d.geo.segStart (d.keySegment key)) (key.word 2) last ha.not_stray
  obtain ⟨l, hcs, hfound⟩ := ha.found h hrun
  refine ⟨d.setSegment (d.keySegment key) sg', hit, by rw [Part.dirProbe, onSegmentWith, hrun]; rfl,
    .of_segment h honly, ?_⟩
  cases hit with
  | none => exact hcs.symm.trans hfound
  | some e =>
    obtain ⟨A, B, hchain, hl⟩ := hfound
    obtain ⟨hmem, htag, -⟩ := hhit e rfl
    obtain ⟨hcontent, hahead⟩ := ahead_setSegment honly.wf hchain htag hmem
    refine ⟨_, ?_, hahead⟩
    rw [← hcs, hl, ← hcontent]
    rfl

/-- **The loop runs to its end**, over the entries that are still to come. -/
theorem collisionLoop_eq (cs : List Content) : ∀ {d : Part} {last : Option Nat}, d.WF →
    d.Ahead key cs last → ∃ d', d.OnlyBucket (d.keySegment key) (d.keyBucket key) d' ∧
      ∀ {σ : Type} (body : σ → Content → σ) (acc : σ) (n : Nat), cs.length < n →
        collisionLoop key body n d last acc = some (d', cs.foldl body acc) := by
  induction cs with
  | nil =>
    intro d last h ha
    obtain ⟨d', hit, hrun, honly, hhit⟩ := ha.dirProbe h
    cases hit with
    | none =>
      refine ⟨d', honly, fun body acc n hn => ?_⟩
      obtain ⟨n, rfl⟩ := Nat.exists_eq_succ_of_ne_zero (pos_iff_ne_zero.1 hn)
      rw [collisionLoop, hrun]
      rfl
    | some e =>
      obtain ⟨rest, hcs, -⟩ := hhit
      cases hcs
  | cons c cs ih =>
    intro d last h ha
    obtain ⟨d', hit, hrun, honly, hhit⟩ := ha.dirProbe h
    cases hit with
    | none => cases hhit
    | some e =>
      obtain ⟨rest, hcs, hahead⟩ := hhit
      cases hcs
      obtain ⟨d'', honly', hloop⟩ := ih honly.wf hahead
      have hseg : d'.keySegment key = d.keySegment key := by rw [keySegment, honly.geo]; rfl
      have hbucket : d'.keyBucket key = d.keyBucket key := by rw [keyBucket, honly.geo]; rfl
      rw [hseg, hbucket] at honly'
      refine ⟨d'', honly.trans honly', fun body acc n hn => ?_⟩
      obtain ⟨n, rfl⟩ := Nat.exists_eq_succ_of_ne_zero (ne_zero_of_lt hn)
      rw [collisionLoop, hrun]
      exact hloop body _ n (Nat.lt_of_succ_lt_succ hn)

/-- **Repeated probes enumerate the collisions of a key.** From any well-formed directory a loop
around `dir_probe` ends after one probe more than there are entries of the key's tag in its bucket
that are valid: its body has run on each of them once, in chain order, on what the entry says, and
only the key's bucket has changed. So does the loop of `evacuate_fragments`. -/
theorem dirProbe_enumerates (h : d.WellFormed) (key : CacheKey) :
    ∃ d', d'.WellFormed ∧ d.OnlyBucket (d.keySegment key) (d.keyBucket key) d' ∧ ∀ n, (d.collisions key).length < n →
        d.collisionLoop key (fun hits c => hits ++ [c]) n none [] = some (d', d.collisions key) ∧
        (∀ {σ : Type} (body : σ → Content → σ) (acc : σ),
          d.collisionLoop key body n none acc = some (d', (d.collisions key).foldl body acc)) ∧
        ∀ earliestKey force evacuate, evacuateFragments d key earliestKey force evacuate n = some (d',
            (d.collisions key).foldl (evacuateFragment key earliestKey force) (evacuate, 0)) := by
  obtain ⟨d', honly, hloop⟩ :=
    collisionLoop_eq _ (wf_iff.2 h) (show d.Ahead key (d.collisions key) none from rfl)
  refine ⟨d', wf_iff.1 honly.wf, honly, fun n hn => ⟨?_, fun body acc => hloop body acc n hn, ?_⟩⟩
  · rw [hloop _ _ n hn, foldl_append_eq_append, nil_append, ← flatMap_def, flatMap_singleton']
  · exact fun earliestKey force evacuate => hloop _ _ n hn

/-- A directory of one bucket with an invalid entry at its head and a valid one behind it. -/
theorem dirProbe_enumerates_moved : ∃ d d' : Part, d.WellFormed ∧
    (tiny.zeroDir.initDir.dirInsert ⟨0, 7⟩ ⟨1, 0, 0, 0, 0⟩ 1).bind
      (·.dirInsert ⟨0, 7⟩ ⟨2, 0, 4096, 0, 0⟩ 1) = some d ∧
    d.collisionLoop ⟨0, 7⟩ (fun hits c => hits ++ [c]) 2 none [] =
      some (d', [⟨7, 2, 0, 0, true, false, false, false⟩]) := by
  obtain ⟨-, hwf, -⟩ := initDir_spec tiny
  obtain ⟨d1, hd1⟩ : ∃ d1, tiny.zeroDir.initDir.dirInsert ⟨0, 7⟩ ⟨1, 0, 0, 0, 0⟩ 1 = some d1 := ⟨_, rfl⟩
  have hwf1 := dirInsert_wf hwf ⟨0, 7⟩ (by decide) hd1
  cases hd1
  have hwf2 := wf_iff.1 (dirInsert_wf (n := 1) hwf1 ⟨0, 7⟩ (show dirOffset ⟨2, 0, 4096, 0, 0⟩ ≠ 0 by decide) rfl)
  obtain ⟨d', -, -, hloop⟩ := dirProbe_enumerates hwf2 ⟨0, 7⟩
  exact ⟨_, d', hwf2, rfl, (hloop 2 (by decide)).1⟩

/-! ### A lookup after an insert -/

theorem mem_collisions (h : d.WF) {c : Content} : c ∈ d.collisions key ↔
    c ∈ d.contents (d.keySegment key) (d.keyBucket key) ∧ c.tag = dirMaskTag (key.word 2) ∧
      contentValid d c = true := by
  obtain ⟨L, -⟩ := h _ (d.keySegment_lt key)
  rw [contents, L.contents_eq (d.keyBucket_lt key), collisions, ← filter_live_matches,
    L.bucketChain_eq (d.keyBucket_lt key)]
  simp [matchesTag]

/-- **After `dir_insert`** the loop of probes finds the new entry, if that is valid, and besides it only
what it would have found before. -/
theorem dirInsert_found (h : d.WellFormed) (key : CacheKey) {e : Dir} (he : dirOffset e ≠ 0) {n : Nat}
    (hrun : d.dirInsert key e n = some d') : let new := e.under (key.word 2)
    ∃ d'' hits, (∀ {σ : Type} (body : σ → Content → σ) acc,
        d'.collisionLoop key body (hits.length + 1) none acc = some (d'', hits.foldl body acc)) ∧
      (contentValid d new = true → new ∈ hits) ∧ hits ⊆ new :: d.collisions key := by
  intro new
  have hwf := dirInsert_wf (wf_iff.2 h) key he hrun
  obtain ⟨d'', -, hloop⟩ := collisionLoop_eq _ hwf (show d'.Ahead key (d'.collisions key) none from rfl)
  refine ⟨d'', d'.collisions key, fun body acc => hloop body acc _ (Nat.lt_succ_self _), ?_⟩
  obtain ⟨sg', hsg, rfl⟩ := Option.map_eq_some_iff.1 hrun
  obtain ⟨hsg', ⟨rest, hrest, hcontents⟩, -⟩ := (wf_iff.2 h _ (d.keySegment_lt key)).dirInsert d.geo.small
    (d.keyBucket_lt key) (dirValid_eq d) he hsg
  have hmem (c : Content) : c ∈ (d.setSegment (d.keySegment key) sg').collisions key ↔
      c ∈ new ::ₘ rest ∧ c.tag = dirMaskTag (key.word 2) ∧ contentValid d c = true := by
    rw [mem_collisions hwf, ← hcontents, ← contents_setSegment_self hsg' (d.keyBucket_lt key)]
    rfl
  refine ⟨fun hv => (hmem _).2 ⟨Multiset.mem_cons_self .., rfl, hv⟩, fun c hc => mem_cons.2 ?_⟩
  obtain ⟨hnew, hmatch⟩ := (hmem c).1 hc
  exact (Multiset.mem_cons.1 hnew).imp_right fun hold =>
    (mem_collisions (wf_iff.2 h)).2 ⟨Multiset.mem_of_le hrest hold, hmatch⟩

theorem dirInsert_found_tiny : ∃ d' d'' n, ∃ hits : List Content,
    tiny.zeroDir.initDir.dirInsert ⟨0, 7⟩ ⟨2, 0, 4096, 0, 0⟩ 1 = some d' ∧
    d'.collisionLoop ⟨0, 7⟩ (fun k _ => k + 1) n none 0 = some (d'', hits.foldl (fun k _ => k + 1) 0) ∧
    ⟨7, 2, 0, 0, true, false, false, false⟩ ∈ hits := by
  obtain ⟨d', hits, hloop, hnew, -⟩ := dirInsert_found (wf_iff.1 (initDir_spec tiny).2.1) ⟨0, 7⟩
    (e := ⟨2, 0, 4096, 0, 0⟩) (n := 1) (by decide) rfl
  exact ⟨_, d', _, hits, rfl, hloop _ _, hnew (by decide)⟩

end Part

end TrafficServer
