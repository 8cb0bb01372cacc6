import TrafficServer.Cache.ProbeRetry

/-!
# The directory of a partition

The operations of `Part` keep every segment well formed and act on the contents of one bucket: the
directory refines a multiset of entries per bucket, in which insert, overwrite, delete and probe
are what their names say.
-/

namespace TrafficServer

open Function Option

/-- Two segments that agree on their own slots. -/
structure Agree (n : Nat) (sg sg' : Segment) : Prop where
  dir : ∀ i < n, sg'.dir i = sg.dir i
  freelist : sg'.freelist = sg.freelist

variable {b n : Nat}

namespace Agree

open Segment

variable {buckets n : Nat} {sg sg' sg'' : Segment}

theorem symm (h : Agree n sg sg') : Agree n sg' sg := ⟨fun i hi => (h.dir i hi).symm, h.freelist.symm⟩

theorem trans (h : Agree n sg sg') (h' : Agree n sg' sg'') : Agree n sg sg'' :=
  ⟨fun i hi => (h'.dir i hi).trans (h.dir i hi), h'.freelist.trans h.freelist⟩

def layout (h : Agree (dirDepth * buckets) sg sg') (L : Layout buckets sg) : Layout buckets sg' :=
  L.congr (fun i hi => by rw [nextDir, h.dir i (L.slot_lt i hi)]; rfl)
    (fun i hi => by
      rw [prevDir, h.dir i (L.mem_free_lt hi)]
      exact ⟨rfl, L.free_empty i hi⟩) h.freelist

section Agreeing
variable (h : Agree (dirDepth * buckets) sg sg')
include h

theorem tight {L : Layout buckets sg} (ht : L.Tight b) : (h.layout L).Tight b := by
  rcases ht with ht | ⟨hc, ht⟩
  · refine .inl fun i hi => ?_
    rw [h.dir i (L.mem_chain_lt hi)]
    exact ht i hi
  · refine .inr ⟨hc, ?_⟩
    rw [h.dir _ (L.mem_chain_lt (b := b) (by simp [hc])), ht]

theorem laid (hl : sg.Laid buckets) : sg'.Laid buckets := by
  obtain ⟨L, hfull⟩ := hl
  exact ⟨h.layout L, hfull⟩

theorem wf (hw : sg.WF buckets) : sg'.WF buckets := by
  obtain ⟨L, hfull, htight⟩ := hw
  exact ⟨h.layout L, hfull, fun b hb => h.tight (htight b hb)⟩

theorem contents (hl : sg.Laid buckets) (hb : b < buckets) : sg'.contents buckets b = sg.contents buckets b := by
  obtain ⟨L, -⟩ := hl
  rw [(h.layout L).contents_eq hb, L.contents_eq hb]
  refine congrArg _ (live_congr fun i hi => ?_)
  exact congrArg Dir.content (h.dir i (L.mem_chain_lt (b := b) hi))

end Agreeing

end Agree

namespace Part

open Segment

variable {d d' : Part} {s t b : Nat} {sg : Segment}

def WF (d : Part) : Prop := ∀ s < d.geo.segments, (d.segment s).WF d.geo.buckets

def contents (d : Part) (s b : Nat) : Multiset Content := (d.segment s).contents d.geo.buckets b

theorem keySegment_lt (d : Part) (key : CacheKey) : d.keySegment key < d.geo.segments :=
  Nat.mod_lt _ d.geo.segments_pos

theorem keyBucket_lt (d : Part) (key : CacheKey) : d.keyBucket key < d.geo.buckets := Nat.mod_lt _ d.geo.buckets_pos

theorem setSegment_self (d : Part) (s : Nat) (sg : Segment) :
    Agree (dirDepth * d.geo.buckets) sg ((d.setSegment s sg).segment s) where
  dir i hi := by
    have h : d.geo.segStart s ≤ d.geo.segStart s + i ∧ d.geo.segStart s + i < d.geo.segStart s + d.geo.segSize :=
      ⟨Nat.le_add_right .., Nat.add_lt_add_left hi _⟩
    exact (if_pos h).trans (congrArg sg.dir (Nat.add_sub_cancel_left ..))
  freelist := update_self ..

theorem setSegment_of_ne (d : Part) (sg : Segment) (h : t ≠ s) :
    Agree (dirDepth * d.geo.buckets) (d.segment t) ((d.setSegment s sg).segment t) where
  dir i hi := by
    refine if_neg fun ⟨h1, h2⟩ => h ?_
    change d.geo.segStart s ≤ d.geo.segStart t + i at h1
    change d.geo.segStart t + i < d.geo.segStart s + d.geo.segSize at h2
    refine d.geo.segment_unique (j := d.geo.segStart t + i - d.geo.segStart s) hi ?_ ?_ <;> omega
  freelist := update_of_ne h ..

theorem setSegment_segment (d : Part) (s : Nat) : d.setSegment s (d.segment s) = d := by
  have hdir : (d.setSegment s (d.segment s)).dir = d.dir := by
    funext j
    simp only [setSegment, segment]
    split
    · next h => rw [Nat.add_sub_cancel' h.1]
    · rfl
  have hfree : update d.header.freelist s (d.header.freelist s) = d.header.freelist := update_eq_self ..
  calc d.setSegment s (d.segment s)
      = { d with
          dir := (d.setSegment s (d.segment s)).dir
          header := { d.header with
            freelist := update d.header.freelist s (d.header.freelist s) } } := rfl
    _ = d := by rw [hdir, hfree]

theorem WF.setSegment (h : d.WF) (hsg : sg.WF d.geo.buckets) : (d.setSegment s sg).WF := by
  intro t ht
  by_cases hts : t = s
  · subst hts
    exact (d.setSegment_self t sg).wf hsg
  · exact (d.setSegment_of_ne sg hts).wf (h t ht)

theorem contents_setSegment_self (hsg : sg.WF d.geo.buckets) (hb : b < d.geo.buckets) :
    (d.setSegment s sg).contents s b = sg.contents d.geo.buckets b :=
  (d.setSegment_self s sg).contents hsg.laid hb

theorem contents_setSegment_of_ne (h : d.WF) (ht : t < d.geo.segments) (hts : t ≠ s)
    (hb : b < d.geo.buckets) : (d.setSegment s sg).contents t b = d.contents t b :=
  (d.setSegment_of_ne sg hts).contents (h t ht).laid hb

/-- `d'` is `d` after an operation on bucket `b` of segment `s`. -/
structure OnlyBucket (d : Part) (s b : Nat) (d' : Part) : Prop where
  wf : d'.WF
  geo : d'.geo = d.geo
  other : ∀ s' < d.geo.segments, ∀ b' < d.geo.buckets, ¬ (s' = s ∧ b' = b) →
    d'.contents s' b' = d.contents s' b'

theorem OnlyBucket.of_segment (h : d.WF) (ho : Segment.OnlyBucket d.geo.buckets (d.segment s) b sg) :
    d.OnlyBucket s b (d.setSegment s sg) where
  wf := h.setSegment ho.wf
  geo := rfl
  other s' hs' b' hb' hne := by
    by_cases hs : s' = s
    · subst hs
      rw [contents_setSegment_self ho.wf hb']
      exact ho.other b' hb' fun h => hne ⟨rfl, h⟩
    · exact contents_setSegment_of_ne h hs' hs hb'

/-! ### One operation -/

/-- The key's bucket has an entry with the key's tag and the offset of `e`. -/
def HasEntry (d : Part) (key : CacheKey) (e : Dir) : Prop :=
  ∃ c ∈ d.contents (d.keySegment key) (d.keyBucket key),
    c.tag = dirMaskTag (key.word 2) ∧ c.offset = dirOffset e

/-- `dir_probe` would have to delete the head of the key's bucket after it has started again. -/
def Stray (d : Part) (key : CacheKey) (lastCollision : Option Nat) : Prop :=
  (d.segment (d.keySegment key)).Stray (dirValid d) d.geo.buckets (d.geo.segStart (d.keySegment key))
    (d.keyBucket key) (dirMaskTag (key.word 2)) lastCollision

/-- `dir_probe` comes back, and all that it has done is to drop entries of the tag that are not valid
from the key's bucket. -/
def ProbeRefines (d : Part) (key : CacheKey) (lastCollision : Option Nat) : Prop :=
  let s := d.keySegment key
  let b := d.keyBucket key
  ∃ d' hit gone, d.dirProbe key lastCollision = some (d', hit) ∧ d.OnlyBucket s b d' ∧
    d.contents s b = d'.contents s b + gone ∧
    ∀ c ∈ gone, c.tag = dirMaskTag (key.word 2) ∧ contentValid d c = false

section Ops
variable (h : d.WF) (key : CacheKey)
include h

theorem dirInsert_slot {toPart : Dir} (hto : dirOffset toPart ≠ 0)
    (hslot : (d.segment (d.keySegment key)).HasSlot (d.keyBucket key)) (n : Nat) :
    ∃ d', d.dirInsert key toPart (n + 1) = some d' ∧ d.OnlyBucket (d.keySegment key) (d.keyBucket key) d' ∧
      d'.contents (d.keySegment key) (d.keyBucket key) =
        toPart.under (key.word 2) ::ₘ d.contents (d.keySegment key) (d.keyBucket key) := by
  obtain ⟨sg', hrun, honly, hc⟩ := (h _ (d.keySegment_lt key)).dirInsert_slot d.geo.small
    (d.keyBucket_lt key) (dirValid_eq d) hto hslot (key.word 2) n
  refine ⟨_, by rw [dirInsert, onSegment, hrun]; rfl, .of_segment h honly, ?_⟩
  rw [contents_setSegment_self honly.wf (d.keyBucket_lt key), hc]
  rfl

theorem dirInsert_wf {toPart : Dir} (hto : dirOffset toPart ≠ 0)
    (hrun : d.dirInsert key toPart n = some d') : d'.WF := by
  obtain ⟨sg', hsg, rfl⟩ := map_eq_some_iff.1 hrun
  exact h.setSegment ((h _ (d.keySegment_lt key)).dirInsert d.geo.small (d.keyBucket_lt key)
    (dirValid_eq d) hto hsg).1

theorem dirDelete_spec (del : Dir) : (¬ d.HasEntry key del ∧ d.dirDelete key del = some (d, 0)) ∨
    ∃ d' c, d.dirDelete key del = some (d', 1) ∧ c.tag = dirMaskTag (key.word 2) ∧
      c.offset = dirOffset del ∧ d.OnlyBucket (d.keySegment key) (d.keyBucket key) d' ∧
      d.contents (d.keySegment key) (d.keyBucket key) = c ::ₘ d'.contents (d.keySegment key) (d.keyBucket key) := by
  rcases (h _ (d.keySegment_lt key)).dirDelete d.geo.small (d.keyBucket_lt key) (key.word 2) del with
    ⟨hno, hrun⟩ | ⟨sg', c, hrun, htag, hoff, honly, hc⟩
  · refine .inl ⟨fun ⟨c, hc, hm⟩ => hno c hc hm, ?_⟩
    rw [dirDelete, onSegmentWith, hrun]
    exact congrArg (fun d => some (d, 0)) (d.setSegment_segment _)
  · refine .inr ⟨_, c, by rw [dirDelete, onSegmentWith, hrun]; rfl, htag, hoff, .of_segment h honly, ?_⟩
    rw [contents_setSegment_self honly.wf (d.keyBucket_lt key)]
    exact hc

variable {overwrite dir : Dir}

theorem dirOverwrite_match (hdir : dirOffset dir ≠ 0) (hmatch : d.HasEntry key overwrite) (must : Bool) (n : Nat) :
    ∃ d' c rest, d.dirOverwrite key dir overwrite must (n + 1) = some (d', 1) ∧
      c.tag = dirMaskTag (key.word 2) ∧ c.offset = dirOffset overwrite ∧
      d.OnlyBucket (d.keySegment key) (d.keyBucket key) d' ∧
      d.contents (d.keySegment key) (d.keyBucket key) = c ::ₘ rest ∧
      d'.contents (d.keySegment key) (d.keyBucket key) = dir.under (key.word 2) ::ₘ rest := by
  obtain ⟨sg', c, rest, hrun, htag, hoff, honly, hc, hc'⟩ :=
    (h _ (d.keySegment_lt key)).dirOverwrite_match (d.keyBucket_lt key) (dirValid d) hdir hmatch must n
  refine ⟨_, c, rest, by rw [dirOverwrite, onSegmentWith, hrun]; rfl, htag, hoff, .of_segment h honly, hc, ?_⟩
  rw [contents_setSegment_self honly.wf (d.keyBucket_lt key), hc']

theorem dirOverwrite_must (hno : ¬ d.HasEntry key overwrite) (n : Nat) :
    d.dirOverwrite key dir overwrite true (n + 1) = some (d, 0) := by
  rw [dirOverwrite, onSegmentWith, (h _ (d.keySegment_lt key)).dirOverwrite_must (d.keyBucket_lt key)
      (fun c hc hm => hno ⟨c, hc, hm⟩) n]
  exact congrArg (fun d => some (d, 0)) (d.setSegment_segment _)

theorem dirOverwrite_insert (hno : ¬ d.HasEntry key overwrite) (n : Nat) :
    d.dirOverwrite key dir overwrite false n = (d.dirInsert key dir n).map (·, 0) := by
  rw [dirOverwrite, dirInsert, onSegmentWith, onSegment,
    (h _ (d.keySegment_lt key)).dirOverwrite_insert d.geo.small (d.keyBucket_lt key) (dirValid_eq d)
      (fun c hc hm => hno ⟨c, hc, hm⟩) n, Option.map_map, Option.map_map]
  rfl

theorem dirOverwrite_wf (hdir : dirOffset dir ≠ 0) {must : Bool} {r : Nat}
    (hrun : d.dirOverwrite key dir overwrite must n = some (d', r)) : d'.WF := by
  cases n with
  | zero => simp [dirOverwrite, onSegmentWith, Segment.dirOverwrite, dirOverwriteLoop] at hrun
  | succ n =>
    by_cases hmatch : d.HasEntry key overwrite
    · obtain ⟨d1, c, rest, hrun1, -, -, honly, -⟩ := dirOverwrite_match h key hdir hmatch must n
      rw [hrun1] at hrun
      cases hrun
      exact honly.wf
    · cases must with
      | true =>
        rw [dirOverwrite_must h key hmatch] at hrun
        cases hrun
        exact h
      | false =>
        rw [dirOverwrite_insert h key hmatch] at hrun
        obtain ⟨d1, hrun1, heq⟩ := map_eq_some_iff.1 hrun
        cases heq
        exact dirInsert_wf h key hdir hrun1

theorem dirProbe_spec {lastCollision : Option Nat} (hfit : ¬ d.Stray key lastCollision) :
    d.ProbeRefines key lastCollision := by
  obtain ⟨sg', hit, gone, hrun, honly, hc, hgone, -⟩ :=
    (h _ (d.keySegment_lt key)).dirProbe d.geo.small (d.keyBucket_lt key) (dirValid_eq d)
      (d.geo.segStart (d.keySegment key)) (key.word 2) lastCollision hfit
  refine ⟨_, hit, gone, by rw [dirProbe, onSegmentWith, hrun]; rfl, .of_segment h honly, ?_, hgone⟩
  rw [contents_setSegment_self honly.wf (d.keyBucket_lt key)]
  exact hc

theorem Stray.not_refines {lastCollision : Option Nat} (hst : d.Stray key lastCollision)
    (hfree : d.keyBucket key ≠ 0 ∨ (d.segment (d.keySegment key)).freelist ≠ 0) :
    ¬ d.ProbeRefines key lastCollision := by
  rintro ⟨d', hit, gone, hrun, honly, -⟩
  obtain ⟨⟨sg', r⟩, hseg, heq⟩ := map_eq_some_iff.1 hrun
  cases heq
  have hs := d.keySegment_lt key
  refine Segment.Stray.not_wf d.geo.small (d.keyBucket_lt key) (h _ hs) hfree hst hseg ?_
  exact (d.setSegment_self _ sg').symm.wf (honly.wf _ hs)

end Ops

/-! ### A new directory -/

def zeroDir (d : Part) : Part := { d with dir := fun _ => dirClear }

theorem initSegments_spec (hzero : ∀ i, d.dir i = dirClear) (n : Nat) :
    let d' := (List.range n).foldl
      (fun d s => d.setSegment s ((d.segment s).freeRows d.geo.buckets)) d
    d'.geo = d.geo ∧ (∀ s < n, (d'.segment s).WF d.geo.buckets ∧ ∀ b < d.geo.buckets, d'.contents s b = 0) ∧
      ∀ s, n ≤ s → ∀ i < dirDepth * d.geo.buckets, (d'.segment s).dir i = dirClear := by
  induction n with
  | zero => exact ⟨rfl, by simp, fun s _ i _ => hzero _⟩
  | succ n ih =>
    simp only [List.range_succ, List.foldl_append, List.foldl_cons, List.foldl_nil]
    generalize (List.range n).foldl
      (fun d s => d.setSegment s ((d.segment s).freeRows d.geo.buckets)) d = d1 at ih ⊢
    obtain ⟨hgeo, hdone, hrest⟩ := ih
    have hsmall : dirDepth * d.geo.buckets ≤ 65536 := d.geo.small
    rw [← hgeo] at hdone hrest hsmall ⊢
    obtain ⟨hwf, hempty⟩ := freeRows_wf hsmall (hrest n le_rfl)
    refine ⟨rfl, fun s hs => ?_, fun s hs i hi => ?_⟩
    · by_cases hsn : s = n
      · subst hsn
        refine ⟨(d1.setSegment_self s _).wf hwf, fun b hb => ?_⟩
        rw [contents_setSegment_self hwf hb, hempty b hb]
      · obtain ⟨hwf', hempty'⟩ := hdone s (by omega)
        refine ⟨(d1.setSegment_of_ne _ hsn).wf hwf', fun b hb => ?_⟩
        exact ((d1.setSegment_of_ne _ hsn).contents hwf'.laid hb).trans (hempty' b hb)
    · rw [(d1.setSegment_of_ne _ (by omega : s ≠ n)).dir i hi, hrest s (by omega) i hi]

/-- **`part_init_dir`** on zeros gives a well-formed directory without entries. -/
theorem initDir_spec (d : Part) : d.zeroDir.initDir.geo = d.geo ∧ d.zeroDir.initDir.WF ∧
    ∀ s < d.geo.segments, ∀ b < d.geo.buckets, d.zeroDir.initDir.contents s b = 0 := by
  obtain ⟨hgeo, hdone, -⟩ := initSegments_spec (d := d.zeroDir) (fun _ => rfl) d.geo.segments
  have hgeo' : d.zeroDir.initDir.geo = d.geo := hgeo
  refine ⟨hgeo', fun s hs => ?_, fun s hs => (hdone s hs).2⟩
  rw [hgeo'] at hs ⊢
  exact (hdone s hs).1

def WellFormed (d : Part) : Prop := ∀ s < d.geo.segments, (d.segment s).RepInv d.geo.buckets

theorem wf_iff : d.WF ↔ d.WellFormed := forall₂_congr fun _ _ => Segment.wf_iff_repInv

/-- **The directory refines a multiset of entries per bucket.** With a slot to take, `dir_insert`
adds the entry under the key's tag; `dir_delete` removes one entry of the tag and the offset, and
says whether there was one; `dir_overwrite` replaces one, or without one does nothing or inserts;
`dir_probe` drops entries of the tag that are not valid, unless it is stray: then it does not come
back or leaves a directory that is not well formed, but for bucket `0` with no free entry, where the
wrong links may be the right ones. No other bucket changes. -/
theorem directory_refines_multiset (h : d.WellFormed) (key : CacheKey) (e : Dir) (he : dirOffset e ≠ 0) :
    let s := d.keySegment key
    let b := d.keyBucket key
    let tag := dirMaskTag (key.word 2)
    ((d.segment s).HasSlot b → ∀ n, ∃ d', d.dirInsert key e (n + 1) = some d' ∧ d.OnlyBucket s b d' ∧
      d'.contents s b = { e.content with tag := tag } ::ₘ d.contents s b) ∧
    (∀ del, ∃ d' r, d.dirDelete key del = some (d', r) ∧ (r = 1 ↔ d.HasEntry key del) ∧
      (r = 1 → d.OnlyBucket s b d' ∧ ∃ c, c.tag = tag ∧ c.offset = dirOffset del ∧
        d.contents s b = c ::ₘ d'.contents s b) ∧ (r ≠ 1 → r = 0 ∧ d' = d)) ∧
    (∀ old must n, d.HasEntry key old → ∃ d' c rest,
      d.dirOverwrite key e old must (n + 1) = some (d', 1) ∧ d.OnlyBucket s b d' ∧
      c.tag = tag ∧ c.offset = dirOffset old ∧ d.contents s b = c ::ₘ rest ∧
      d'.contents s b = { e.content with tag := tag } ::ₘ rest) ∧
    (∀ old n, ¬ d.HasEntry key old → d.dirOverwrite key e old true (n + 1) = some (d, 0) ∧
      d.dirOverwrite key e old false n = (d.dirInsert key e n).map (·, 0)) ∧
    ∀ lastCollision, (¬ d.Stray key lastCollision → d.ProbeRefines key lastCollision) ∧
      (b ≠ 0 ∨ (d.segment s).freelist ≠ 0 →
        (d.ProbeRefines key lastCollision ↔ ¬ d.Stray key lastCollision)) := by
  have hwf : d.WF := wf_iff.2 h
  refine ⟨fun hslot n => dirInsert_slot hwf key he hslot n, fun del => ?_, ?_, ?_, ?_⟩
  · rcases dirDelete_spec hwf key del with ⟨hnot, hrun⟩ | ⟨d', c, hrun, htag, hoff, honly, hc⟩
    · exact ⟨d, 0, hrun, iff_of_false (by decide) hnot, by simp, fun _ => ⟨rfl, rfl⟩⟩
    · have hyes : d.HasEntry key del := ⟨c, by simp [hc], htag, hoff⟩
      exact ⟨d', 1, hrun, iff_of_true rfl hyes, fun _ => ⟨honly, c, htag, hoff, hc⟩, by simp⟩
  · intro old must n hmatch
    obtain ⟨d', c, rest, hrun, htag, hoff, honly, hc, hc'⟩ :=
      dirOverwrite_match hwf key he hmatch must n
    exact ⟨d', c, rest, hrun, honly, htag, hoff, hc, hc'⟩
  · exact fun old n hnot => ⟨dirOverwrite_must hwf key hnot n, dirOverwrite_insert hwf key hnot n⟩
  · intro lastCollision
    refine ⟨dirProbe_spec hwf key, fun hfree => ⟨fun hok hst => ?_, dirProbe_spec hwf key⟩⟩
    exact hst.not_refines hwf key hfree hok

def tiny : Part where
  geo := .ofBuckets 1 Nat.one_pos
  skip := 0
  start := 16384
  len := 2 ^ 27
  header := ⟨16384, 16384, 16384, false, 0, 0, 0, false, fun _ => 0⟩
  dir := fun _ => dirClear
  aggBufPos := 0

/-- An entry of tag 7 and behind it one of tag 9, neither of them valid. -/
def tinyTwo : Option Part := do
  let d ← tiny.zeroDir.initDir.dirInsert ⟨0, 7⟩ ⟨1, 0, 0, 0, 0⟩ 1
  d.dirInsert ⟨0, 9⟩ ⟨2, 0, 0, 0, 0⟩ 1

theorem tinyTwo_wf (h : tinyTwo = some d) : d.WF := by
  obtain ⟨-, hwf, -⟩ := initDir_spec tiny
  rw [tinyTwo] at h
  obtain ⟨d1, h1, h2⟩ := bind_eq_some_iff.1 h
  exact dirInsert_wf (dirInsert_wf hwf _ (by decide) h1) _ (by decide) h2

theorem directory_refines_multiset_tiny : ∃ d, tinyTwo = some d ∧
    (∃ d', d.dirInsert ⟨0, 7⟩ ⟨3, 0, 0, 0, 0⟩ 1 = some d' ∧
      d'.contents 0 0 = ⟨7, 3, 0, 0, false, false, false, false⟩ ::ₘ d.contents 0 0) ∧
    d.ProbeRefines ⟨0, 7⟩ none ∧ d.ProbeRefines ⟨0, 9⟩ (some 3) := by
  refine ⟨_, rfl, ?_⟩
  have hwf := wf_iff.1 (tinyTwo_wf rfl)
  obtain ⟨hins, -, -, -, hprobe⟩ := directory_refines_multiset hwf ⟨0, 7⟩ ⟨3, 0, 0, 0, 0⟩ (by decide)
  obtain ⟨-, -, -, -, hprobe9⟩ := directory_refines_multiset hwf ⟨0, 9⟩ ⟨3, 0, 0, 0, 0⟩ (by decide)
  refine ⟨?_, (hprobe none).1 fun h => ?_, (hprobe9 (some 3)).1 fun h => ?_⟩
  · obtain ⟨d', hrun, -, hc⟩ := hins (.inr (.inr (by decide))) 0
    exact ⟨d', hrun, hc⟩
  · simpa using h.missing
  · exact absurd h.tagged (by decide)

/-- The first pass of a probe for tag 7 ends at the entry of tag 9; the second one deletes the head
behind it, and then goes round and round. -/
theorem stray_probe_never_returns : ∃ d, tinyTwo = some d ∧ d.WellFormed ∧
    d.dirProbe ⟨0, 7⟩ (some 3) = none ∧ ¬ d.ProbeRefines ⟨0, 7⟩ (some 3) := by
  refine ⟨_, rfl, wf_iff.1 (tinyTwo_wf rfl), rfl, ?_⟩
  rintro ⟨d', hit, gone, hrun, -⟩
  cases hrun

end Part

end TrafficServer
