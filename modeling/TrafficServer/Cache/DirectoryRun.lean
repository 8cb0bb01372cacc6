import TrafficServer.Cache.Directory

/-!
# Runs of a directory

Any sequence of directory operations, with the header moving under it as it likes. One step keeps
the directory well formed (`WF.apply`), so every state of a run satisfies the representation
invariant, and the loops over its chains return.
-/

namespace TrafficServer

namespace Part

open Option Segment Multiset Relation

variable {d d' : Part} {s b : Nat}

/-! ### Cleaning the whole directory -/

def SameHeader (d d' : Part) : Prop :=
  d' = { d with
    dir := d'.dir
    header := { d.header with freelist := d'.header.freelist, dirty := d'.header.dirty } }

variable {op : DirOp}

theorem SameHeader.refl (d : Part) : d.SameHeader d := rfl

theorem SameHeader.trans {d'' : Part} (h : d.SameHeader d') (h' : d'.SameHeader d'') : d.SameHeader d'' := by
  unfold SameHeader at *
  rw [h']
  rw [h]

theorem SameHeader.setSegment (d : Part) (s : Nat) (sg : Segment) : d.SameHeader (d.setSegment s sg) := rfl

theorem SameHeader.geo (h : d.SameHeader d') : d'.geo = d.geo := by rw [h]

theorem SameHeader.contentValid (h : d.SameHeader d') : contentValid d' = contentValid d := by
  rw [h]
  rfl

section
variable (h : ∀ s < d.geo.segments, (d.segment s).Laid d.geo.buckets)

include h

theorem cleanSegments_spec {n : Nat} (hn : n ≤ d.geo.segments) :
    ∃ d', (List.range n).foldlM (fun d s => d.dirCleanSegment s) d = some d' ∧ d.SameHeader d' ∧
      (∀ s < n, (d'.segment s).WF d.geo.buckets ∧ ∀ b < d.geo.buckets,
        d'.contents s b = (d.contents s b).filter (contentValid d · = true)) ∧
      ∀ s, n ≤ s → Agree (dirDepth * d.geo.buckets) (d.segment s) (d'.segment s) := by
  induction n with
  | zero => exact ⟨d, rfl, .refl d, by simp, fun s _ => ⟨fun _ _ => rfl, rfl⟩⟩
  | succ n ih =>
    obtain ⟨d1, hrun, hsame, hdone, hrest⟩ := ih (by omega)
    have hgeo := hsame.geo
    have hlaid : (d1.segment n).Laid d.geo.buckets := (hrest n le_rfl).laid (h n (by omega))
    have hv : ∀ e, dirValid d1 e = contentValid d e.content := fun e => congrFun hsame.contentValid e.content
    obtain ⟨sg, hclean, hwf, hc⟩ := hlaid.dirCleanSegment d.geo.small hv
    have hstep : d1.dirCleanSegment n = some (d1.setSegment n sg) := by
      rw [dirCleanSegment, onSegment, hgeo, hclean]
      rfl
    have hself := d1.setSegment_self n sg
    have hother := fun {s} (hs : s ≠ n) => d1.setSegment_of_ne sg hs
    rw [hgeo] at hself hother
    refine ⟨d1.setSegment n sg, ?_, hsame.trans (.setSegment ..), fun s hs => ?_, fun s hs => ?_⟩
    · rw [List.range_succ, List.foldlM_append, hrun]
      simpa using hstep
    · have hcont : ∀ b, (d1.setSegment n sg).contents s b =
          ((d1.setSegment n sg).segment s).contents d.geo.buckets b := by
        intro b
        rw [← hgeo]
        rfl
      by_cases hsn : s = n
      · subst hsn
        refine ⟨hself.wf hwf, fun b hb => ?_⟩
        rw [hcont, hself.contents hwf.laid hb, hc b hb, (hrest s le_rfl).contents (h s (by omega)) hb]
        rfl
      · obtain ⟨hwf', hc'⟩ := hdone s (by omega)
        refine ⟨(hother hsn).wf hwf', fun b hb => ?_⟩
        rw [hcont, (hother hsn).contents hwf'.laid hb, ← hc' b hb, contents, hgeo]
    · exact (hrest s (by omega)).trans (hother (by omega))

/-- **`dir_clean_part`** keeps exactly the valid entries of the directory. -/
theorem dirCleanPart_spec :
    ∃ d', d.dirCleanPart = some d' ∧ d.SameHeader d' ∧ d'.WF ∧ ∀ s < d.geo.segments, ∀ b < d.geo.buckets,
        d'.contents s b = (d.contents s b).filter (contentValid d · = true) := by
  obtain ⟨d', hrun, hsame, hdone, -⟩ := cleanSegments_spec h le_rfl
  refine ⟨d', hrun, hsame, fun s hs => ?_, fun s hs => (hdone s hs).2⟩
  rw [hsame.geo] at hs ⊢
  exact (hdone s hs).1

end

theorem WF.laid (h : d.WF) : ∀ s < d.geo.segments, (d.segment s).Laid d.geo.buckets := fun s hs => (h s hs).laid

def intOffset (offset : Nat) : Int := (BitVec.ofNat 32 offset).toInt

def OffsetIn (start stop : Int) (c : Content) : Prop :=
  c.token = false ∧ start ≤ intOffset c.offset ∧ intOffset c.offset < stop
deriving Decidable

theorem inClearRange_iff {start stop : Int} (e : Dir) :
    inClearRange start stop e = true ↔ OffsetIn start stop e.content := by
  simp [inClearRange, OffsetIn, intOffset, Dir.content, and_assoc]

/-- The directory that `dir_clear_range` leaves to `dir_clean_part`. -/
def dimRange (d : Part) (start stop : Int) : Part :=
  { d with
    dir := fun i =>
      if i < d.geo.buckets * dirDepth * d.geo.segments ∧ inClearRange start stop (d.dir i) then
        dirSetOffset (d.dir i) 0
      else d.dir i }

theorem dimRange_dimmed (d : Part) (start stop : Int) (s : Nat) :
    Dimmed (d.segment s) ((d.dimRange start stop).segment s) := by
  refine ⟨rfl, fun i => ?_, fun i => ?_, fun i => ?_⟩
  · simp only [nextDir, segment, dimRange]
    split <;> simp
  · simp only [prevDir, segment, dimRange]
    split <;> simp
  · simp only [content, segment, dimRange]
    split
    · exact .inr (dirOffset_setOffset ..)
    · exact .inl rfl

theorem live_dimRange (start stop : Int) (hs : s < d.geo.segments) {l : List Nat}
    (hl : ∀ i ∈ l, i < dirDepth * d.geo.buckets) : live ((d.dimRange start stop).segment s) l =
      (live (d.segment s) l).filter fun c => ¬OffsetIn start stop c := by
  have hdim := dimRange_dimmed d start stop s
  induction l with
  | nil => rfl
  | cons i l ih =>
    have hbound : d.geo.segStart s + i < d.geo.buckets * dirDepth * d.geo.segments := by
      have hi := hl i (by simp)
      have hle := Nat.mul_le_mul_right (dirDepth * d.geo.buckets) hs
      rw [Nat.succ_mul] at hle
      rw [Geometry.segStart, Geometry.segSize, Nat.mul_comm d.geo.buckets, Nat.mul_comm _ d.geo.segments]
      omega
    rw [live_cons, live_cons, ih fun i hi => hl i (by simp [hi])]
    by_cases hzero : dirOffset ((d.segment s).dir i) = 0
    · rw [if_pos hzero, if_pos (hdim.offset_eq_zero hzero)]
    · have hdir : ((d.dimRange start stop).segment s).dir i = if OffsetIn start stop ((d.segment s).content i) then
            dirSetOffset ((d.segment s).dir i) 0 else (d.segment s).dir i := by
        change (if d.geo.segStart s + i < d.geo.buckets * dirDepth * d.geo.segments ∧
          inClearRange start stop (d.dir (d.geo.segStart s + i)) = true then _ else _) = _
        simp only [hbound, true_and, inClearRange_iff]
        rfl
      by_cases hin : OffsetIn start stop ((d.segment s).content i)
      · rw [if_neg hzero, hdir, if_pos hin, dirOffset_setOffset, if_pos (Nat.zero_mod _),
          List.filter_cons_of_neg (by simpa using hin)]
      · rw [hdir, if_neg hin, if_neg hzero, if_neg hzero, List.filter_cons_of_pos (by simpa using hin),
          content, hdir, if_neg hin]
        rfl

/-- **`dir_clear_range`** takes away the entries of the range, and those that are not valid. -/
theorem dirClearRange_contents (h : d.WF) (start stop : Int) :
    ∃ d', d.dirClearRange start stop = some d' ∧ d.SameHeader d' ∧ d'.WF ∧
      ∀ s < d.geo.segments, ∀ b < d.geo.buckets, d'.contents s b =
        (d.contents s b).filter fun c => contentValid d c = true ∧ ¬OffsetIn start stop c := by
  have hlaid : ∀ s < (d.dimRange start stop).geo.segments,
      ((d.dimRange start stop).segment s).Laid (d.dimRange start stop).geo.buckets := fun s hs =>
    ((h s hs).laid.dim (dimRange_dimmed d start stop s)).1
  obtain ⟨d', hrun, hsame, hwf, hc⟩ := dirCleanPart_spec hlaid
  refine ⟨d', hrun, hsame, hwf, fun s hs b hb => ?_⟩
  obtain ⟨L, -⟩ := h s hs
  have hdim : (d.dimRange start stop).contents s b = (d.contents s b).filter fun c => ¬OffsetIn start stop c := by
    change Segment.contents d.geo.buckets _ b = filter _ (Segment.contents d.geo.buckets _ b)
    rw [(L.dim (dimRange_dimmed d start stop s)).contents_eq hb, L.contents_eq hb, filter_coe]
    exact congrArg _ (live_dimRange start stop hs fun i hi => L.mem_chain_lt hi)
  rw [hc s hs b hb, hdim, Multiset.filter_filter]
  rfl

/-- **`dir_clear_range`** leaves a well-formed directory with at most its old entries. -/
theorem dirClearRange_spec (h : d.WF) (start stop : Int) :
    ∃ d', d.dirClearRange start stop = some d' ∧ d.SameHeader d' ∧ d'.WF ∧
      ∀ s < d.geo.segments, ∀ b < d.geo.buckets, d'.contents s b ≤ d.contents s b := by
  obtain ⟨d', hrun, hsame, hwf, hc⟩ := dirClearRange_contents h start stop
  refine ⟨d', hrun, hsame, hwf, fun s hs b hb => ?_⟩
  rw [hc s hs b hb]
  exact filter_le ..

/-! ### A cleared partition -/

theorem initDir_sameHeader (d : Part) : d.SameHeader d.initDir :=
  List.foldlRecOn (motive := fun d' => d.SameHeader d') _ _ (.refl d) fun _ h _ _ => h.trans (.setSegment ..)

/-- **`part_clear_init`**: an empty directory, and the write position at the start. -/
theorem clearInit_spec (d : Part) : d.clearInit.WF ∧
    (∀ s < d.geo.segments, ∀ b < d.geo.buckets, d.clearInit.contents s b = 0) ∧
    ∃ freelist dir, d.clearInit = { d with
      dir := dir
      header := ⟨d.start, d.start, d.start, false, 0, 0, 0, false, freelist⟩ } := by
  let d0 : Part := { d with header := ⟨0, 0, 0, false, 0, 0, 0, false, fun _ => 0⟩ }
  obtain ⟨hgeo, hwf, hempty⟩ := initDir_spec d0
  have hsame := initDir_sameHeader d0.zeroDir
  have hgeo' : d.clearInit.geo = d.geo := hgeo
  have hagree : ∀ s, Agree (dirDepth * d.geo.buckets) (d0.zeroDir.initDir.segment s)
      (d.clearInit.segment s) := fun s => ⟨fun _ _ => rfl, rfl⟩
  refine ⟨fun s hs => ?_, fun s hs b hb => ?_, d0.zeroDir.initDir.header.freelist, d0.zeroDir.initDir.dir, ?_⟩
  · rw [hgeo'] at hs ⊢
    exact (hagree s).wf (by simpa only [hgeo] using hwf s (by rwa [hgeo]))
  · have hc := (hagree s).contents (by simpa only [hgeo] using (hwf s (by rwa [hgeo])).laid) hb
    rw [contents, hgeo', hc]
    simpa only [contents, hgeo] using hempty s hs b hb
  · have hclear : d.clearInit = (fun e : Part => { e with
        header := { e.header with
          writePos := d.start
          aggPos := d.start
          lastWritePos := d.start
          phase := false
          cycle := 0
          dirty := false } }) d0.zeroDir.initDir := rfl
    rw [hclear, hsame]
    rfl

/-! ### Runs -/

/-- An operation on the directory, or a change of the header fields that `dir_valid` reads. -/
inductive DirOp
  | insert (key : CacheKey) (toPart : Dir)
  | overwrite (key : CacheKey) (dir overwrite : Dir) (mustOverwrite : Bool)
  | delete (key : CacheKey) (del : Dir)
  | probe (key : CacheKey) (lastCollision : Option Nat)
  | cleanBucket (s b : Nat)
  | cleanSegment (s : Nat)
  | clearRange (start stop : Int)
  | freelistClean (s : Nat)
  | initSegment (s : Nat)
  | moveHeader (phase : Bool) (writePos aggPos aggBufPos : Int)

/-- An entry that is stored has an offset, a segment or bucket that is named exists, and a probe is
not stray. -/
def DirOp.Admissible (d : Part) : DirOp → Prop
  | insert _ toPart => dirOffset toPart ≠ 0
  | overwrite _ dir _ _ => dirOffset dir ≠ 0
  | probe key lastCollision => ¬ d.Stray key lastCollision
  | cleanBucket s b => s < d.geo.segments ∧ b < d.geo.buckets
  | cleanSegment s => s < d.geo.segments
  | freelistClean s => s < d.geo.segments
  | initSegment s => s < d.geo.segments
  | _ => True

/-- The state after an operation; the retry loops of insert and overwrite get `fuel`. -/
def apply (d : Part) (fuel : Nat) : DirOp → Option Part
  | .insert key toPart => d.dirInsert key toPart fuel
  | .overwrite key dir old must => (d.dirOverwrite key dir old must fuel).map (·.1)
  | .delete key del => (d.dirDelete key del).map (·.1)
  | .probe key lastCollision => (d.dirProbe key lastCollision).map (·.1)
  | .cleanBucket s b => d.dirCleanBucket s b
  | .cleanSegment s => d.dirCleanSegment s
  | .clearRange start stop => d.dirClearRange start stop
  | .freelistClean s => d.freelistClean s
  | .initSegment s => d.onSegment s fun sg => some (sg.dirInitSegment d.geo.buckets)
  | .moveHeader phase writePos aggPos aggBufPos =>
    some { d with
      aggBufPos := aggBufPos
      header := { d.header with phase := phase, writePos := writePos, aggPos := aggPos } }

def DirOp.Direct : DirOp → Prop
  | insert .. => False
  | overwrite .. => False
  | _ => True

def DirStep (d d' : Part) : Prop := ∃ op fuel, op.Admissible d ∧ d.apply fuel op = some d'

theorem WF.direct (h : d.WF) (hop : op.Admissible d) (hdir : op.Direct) (fuel : Nat) :
    ∃ d', d.apply fuel op = some d' ∧ d'.WF ∧ d'.geo = d.geo := by
  cases op with
  | insert | overwrite => exact hdir.elim
  | delete key del =>
    rcases dirDelete_spec h key del with ⟨-, hrun⟩ | ⟨d', c, hrun, -, -, honly, -⟩
    · exact ⟨d, by rw [apply, hrun]; rfl, h, rfl⟩
    · exact ⟨d', by rw [apply, hrun]; rfl, honly.wf, honly.geo⟩
  | probe key lastCollision =>
    obtain ⟨d', hit, gone, hrun, honly, -⟩ := dirProbe_spec h key hop
    exact ⟨d', by rw [apply, hrun]; rfl, honly.wf, honly.geo⟩
  | cleanBucket s b =>
    obtain ⟨sg, hrun, honly, -⟩ := (h s hop.1).dirCleanBucket d.geo.small hop.2 (dirValid_eq d)
    exact ⟨d.setSegment s sg, by rw [apply, dirCleanBucket, onSegment, hrun]; rfl, h.setSegment honly.wf, rfl⟩
  | cleanSegment s =>
    obtain ⟨sg, hrun, hwf, -⟩ := (h s hop).laid.dirCleanSegment d.geo.small (dirValid_eq d)
    exact ⟨d.setSegment s sg, by rw [apply, dirCleanSegment, onSegment, hrun]; rfl, h.setSegment hwf, rfl⟩
  | clearRange start stop =>
    obtain ⟨d', hrun, hsame, hwf, -⟩ := dirClearRange_spec h start stop
    exact ⟨d', hrun, hwf, hsame.geo⟩
  | freelistClean s =>
    obtain ⟨sg, hrun, hwf, -⟩ := (h s hop).freelistClean d.geo.small (dirValid_eq d)
    exact ⟨d.setSegment s sg, by rw [apply, freelistClean, onSegment, hrun]; rfl, h.setSegment hwf, rfl⟩
  | initSegment s => exact ⟨d.setSegment s _, rfl, h.setSegment (dirInitSegment_wf d.geo.small _).1, rfl⟩
  | moveHeader => exact ⟨_, rfl, h, rfl⟩

/-- **Every operation that returns keeps the directory well formed.** -/
theorem WF.step (h : d.WF) (hstep : DirStep d d') : d'.WF ∧ d'.geo = d.geo := by
  obtain ⟨op, fuel, hop, hrun⟩ := hstep
  by_cases hdir : op.Direct
  · obtain ⟨d1, hrun1, hwf, hgeo⟩ := h.direct hop hdir fuel
    rw [hrun1] at hrun
    cases hrun
    exact ⟨hwf, hgeo⟩
  · cases op with
    | insert key toPart =>
      refine ⟨dirInsert_wf h key hop hrun, ?_⟩
      obtain ⟨sg, -, rfl⟩ := map_eq_some_iff.1 hrun
      rfl
    | overwrite key dir old must =>
      obtain ⟨⟨d1, r⟩, hrun1, rfl⟩ := map_eq_some_iff.1 hrun
      refine ⟨dirOverwrite_wf h key hop hrun1, ?_⟩
      obtain ⟨sg, -, heq⟩ := map_eq_some_iff.1 hrun1
      cases heq
      rfl
    | _ => exact absurd trivial hdir

theorem WF.run (h : d.WF) (hrun : ReflTransGen DirStep d d') : d'.WF := by
  induction hrun with
  | refl => exact h
  | tail _ hstep ih => exact (ih.step hstep).1

/-- **The representation invariant holds in every state of every run** that starts from a new
directory and has no stray probe; every slot is accounted for, and no loop over a chain runs on for
ever. -/
theorem directory_invariant (d₀ d : Part) (hrun : ReflTransGen DirStep d₀.zeroDir.initDir d) :
    (∀ s < d.geo.segments, (d.segment s).RepInv d.geo.buckets ∧
      (d.segment s).dirFreelistLength d.geo.buckets + (d.segment s).accountedUsed d.geo.buckets +
        (d.segment s).accountedEmpty d.geo.buckets = dirDepth * d.geo.buckets) ∧
    ∀ op : DirOp, op.Admissible d → op.Direct → ∀ fuel, (d.apply fuel op).isSome := by
  have hwf : d.WF := (initDir_spec d₀).2.1.run hrun
  refine ⟨fun s hs => ⟨(hwf s hs).repInv, (hwf s hs).accounted⟩, fun op hop hdir fuel => ?_⟩
  obtain ⟨d', hd', -⟩ := hwf.direct hop hdir fuel
  exact isSome_iff_exists.2 ⟨d', hd'⟩

variable {fuel : Nat}

/-- A run that inserts two entries, drops the second one in a probe with an address that is in no
chain, and flips the phase. -/
theorem directory_invariant_tiny : ∃ d, ReflTransGen DirStep tiny.zeroDir.initDir d ∧
    d.header.phase = true ∧ (d.segment 0).bucketChain 1 0 = [0] ∧
    ∀ s < d.geo.segments, (d.segment s).RepInv d.geo.buckets := by
  have h7 : dirOffset ⟨1, 0, 0, 0, 0⟩ ≠ 0 := by decide
  have h9 : dirOffset ⟨2, 0, 0, 0, 0⟩ ≠ 0 := by decide
  have hins : ReflTransGen DirStep tiny.zeroDir.initDir _ := .single ⟨.insert ⟨0, 7⟩ _, 1, h7, rfl⟩
  have hruns := ((hins.tail ⟨.insert ⟨0, 9⟩ _, 1, h9, rfl⟩).tail
    ⟨.probe ⟨0, 9⟩ (some 3), 0, fun h => absurd h.tagged (by decide), rfl⟩).tail
    ⟨.moveHeader true 0 0 0, 0, trivial, rfl⟩
  exact ⟨_, hruns, rfl, by decide, fun s hs => ((directory_invariant tiny _ hruns).1 s hs).1⟩

/-- A probe for the only entry, which is not valid, with the address of a free slot: the head of bucket
`0` is empty and links to the entries of the freelist, which is lost. -/
theorem stray_probe_loses_freelist : ∃ d d', ReflTransGen DirStep tiny.zeroDir.initDir d ∧
    d.apply 0 (.probe ⟨0, 7⟩ (some 1)) = some d' ∧ (d'.segment 0).freelist = 0 ∧
    (d'.segment 0).bucketChain 1 0 = [0, 3, 2, 1] ∧ ¬ (d'.segment 0).RepInv 1 := by
  have h7 : dirOffset ⟨1, 0, 0, 0, 0⟩ ≠ 0 := by decide
  refine ⟨_, _, .single ⟨.insert ⟨0, 7⟩ _, 1, h7, rfl⟩, rfl, by decide, by decide, fun h => ?_⟩
  exact absurd (h.empty_head 0 Nat.one_pos (by decide)) (by decide)

/-! ### What an operation adds and what it leaves alone -/

theorem apply_sameHeader (hop : ∀ p w a b, op ≠ .moveHeader p w a b) (hwf : d.WF)
    (hrun : d.apply fuel op = some d') : d.SameHeader d' := by
  have hseg : ∀ {s f}, d.onSegment s f = some d' → d.SameHeader d' := by
    intro s f h
    obtain ⟨sg, -, rfl⟩ := map_eq_some_iff.1 h
    exact .setSegment ..
  have hwith : ∀ {α : Type} {s} {f : Segment → Option (Segment × α)},
      (d.onSegmentWith s f).map (·.1) = some d' → d.SameHeader d' := by
    intro α s f h
    obtain ⟨r, hr, rfl⟩ := map_eq_some_iff.1 h
    obtain ⟨q, -, rfl⟩ := map_eq_some_iff.1 hr
    exact .setSegment ..
  cases op with
  | insert | cleanSegment | freelistClean => exact hseg hrun
  | cleanBucket =>
    rw [apply, dirCleanBucket] at hrun
    exact hseg hrun
  | initSegment =>
    rw [apply] at hrun
    exact hseg hrun
  | overwrite | delete | probe => exact hwith hrun
  | clearRange start stop =>
    obtain ⟨d1, hrun1, hsame, -⟩ := dirClearRange_spec hwf start stop
    cases hrun1.symm.trans hrun
    exact hsame
  | moveHeader p w a b => exact absurd rfl (hop p w a b)

/-- The content an operation may add to bucket `b` of segment `s`. -/
def DirOp.adds (d : Part) (s b : Nat) : DirOp → Multiset Content
  | insert key e => if d.keySegment key = s ∧ d.keyBucket key = b then {e.under (key.word 2)} else 0
  | overwrite key e _ _ =>
    if d.keySegment key = s ∧ d.keyBucket key = b then {e.under (key.word 2)} else 0
  | _ => 0

theorem dirInsert_le (hwf : d.WF) {key : CacheKey} {e : Dir} (he : dirOffset e ≠ 0)
    (hrun : d.dirInsert key e fuel = some d') (hs : s < d.geo.segments) (hb : b < d.geo.buckets) :
    d'.contents s b ≤ (DirOp.insert key e).adds d s b + d.contents s b := by
  obtain ⟨sg, hsg, rfl⟩ := map_eq_some_iff.1 hrun
  obtain ⟨hwf', ⟨rest, hle, hc⟩, hother⟩ := (hwf _ (d.keySegment_lt key)).dirInsert d.geo.small
    (d.keyBucket_lt key) (dirValid_eq d) he hsg
  by_cases hs' : s = d.keySegment key
  · subst hs'
    rw [contents_setSegment_self hwf' hb]
    by_cases hb' : b = d.keyBucket key
    · subst hb'
      rw [DirOp.adds, if_pos ⟨rfl, rfl⟩, hc, singleton_add]
      exact cons_le_cons _ hle
    · rw [DirOp.adds, if_neg fun h => hb' h.2.symm, zero_add]
      exact hother b hb hb'
  · rw [contents_setSegment_of_ne hwf hs hs' hb]
    exact Multiset.le_add_left ..

theorem OnlyBucket.contents_le {m : Multiset Content} (h : d.OnlyBucket s b d')
    (hc : d'.contents s b ≤ m + d.contents s b) {s' b' : Nat} (hs : s' < d.geo.segments) (hb : b' < d.geo.buckets) :
    d'.contents s' b' ≤ (if s = s' ∧ b = b' then m else 0) + d.contents s' b' := by
  by_cases h' : s' = s ∧ b' = b
  · obtain ⟨rfl, rfl⟩ := h'
    rwa [if_pos ⟨rfl, rfl⟩]
  · rw [h.other s' hs b' hb h']
    exact Multiset.le_add_left ..

theorem contents_setSegment_le (hwf : d.WF) {sg : Segment} (hsg : sg.WF d.geo.buckets)
    (hle : ∀ b < d.geo.buckets, sg.contents d.geo.buckets b ≤ d.contents s b) {s' : Nat}
    (hs : s' < d.geo.segments) (hb : b < d.geo.buckets) : (d.setSegment s sg).contents s' b ≤ d.contents s' b := by
  by_cases h : s' = s
  · subst h
    rw [contents_setSegment_self hsg hb]
    exact hle b hb
  · rw [contents_setSegment_of_ne hwf hs h hb]

theorem dirOverwrite_le (hwf : d.WF) {key : CacheKey} {e old : Dir} (he : dirOffset e ≠ 0)
    {must : Bool} {r : Nat} (hrun : d.dirOverwrite key e old must fuel = some (d', r))
    (hs : s < d.geo.segments) (hb : b < d.geo.buckets) :
    d'.contents s b ≤ (DirOp.overwrite key e old must).adds d s b + d.contents s b := by
  cases fuel with
  | zero => simp [dirOverwrite, onSegmentWith, Segment.dirOverwrite, Segment.dirOverwriteLoop] at hrun
  | succ n =>
    by_cases hmatch : d.HasEntry key old
    · obtain ⟨d1, c, rest, hrun1, -, -, honly, hc, hc'⟩ := dirOverwrite_match hwf key he hmatch must n
      cases hrun1.symm.trans hrun
      refine honly.contents_le ?_ hs hb
      rw [hc', hc, singleton_add]
      exact cons_le_cons _ (le_cons_self ..)
    · cases must with
      | true =>
        cases (dirOverwrite_must hwf key hmatch n).symm.trans hrun
        exact Multiset.le_add_left ..
      | false =>
        rw [dirOverwrite_insert hwf key hmatch] at hrun
        obtain ⟨d1, hrun1, heq⟩ := map_eq_some_iff.1 hrun
        cases heq
        exact dirInsert_le hwf he hrun1 hs hb

/-- **An operation adds at most its own entry.** -/
theorem WF.apply_le (hwf : d.WF) (hop : op.Admissible d)
    (hrun : d.apply fuel op = some d') (hs : s < d.geo.segments) (hb : b < d.geo.buckets) :
    d'.contents s b ≤ op.adds d s b + d.contents s b := by
  cases op with
  | insert key e => exact dirInsert_le hwf hop hrun hs hb
  | overwrite key e old must =>
    obtain ⟨⟨d1, r⟩, hrun1, rfl⟩ := map_eq_some_iff.1 hrun
    exact dirOverwrite_le hwf hop hrun1 hs hb
  | delete key del =>
    obtain ⟨⟨d1, r⟩, hrun1, rfl⟩ := map_eq_some_iff.1 hrun
    rcases dirDelete_spec hwf key del with ⟨-, hrun2⟩ | ⟨d2, c, hrun2, -, -, honly, hc⟩
    · cases hrun2.symm.trans hrun1
      exact Multiset.le_add_left ..
    · cases hrun2.symm.trans hrun1
      refine (honly.contents_le (m := 0) ?_ hs hb).trans (by simp [DirOp.adds])
      rw [hc, zero_add]
      exact le_cons_self ..
  | probe key lastCollision =>
    obtain ⟨⟨d1, r⟩, hrun1, rfl⟩ := map_eq_some_iff.1 hrun
    obtain ⟨d2, hit, gone, hrun2, honly, hc, -⟩ := dirProbe_spec hwf key hop
    cases hrun2.symm.trans hrun1
    refine (honly.contents_le (m := 0) ?_ hs hb).trans (by simp [DirOp.adds])
    rw [hc, zero_add]
    exact Multiset.le_add_right ..
  | cleanBucket s' b' =>
    obtain ⟨sg, hsg, honly, hc⟩ := (hwf s' hop.1).dirCleanBucket d.geo.small hop.2 (dirValid_eq d)
    obtain ⟨sg', hsg', rfl⟩ := map_eq_some_iff.1 hrun
    cases hsg.symm.trans hsg'
    refine (contents_setSegment_le hwf honly.wf (fun b hb => ?_) hs hb).trans (Multiset.le_add_left ..)
    by_cases h : b = b'
    · subst h
      rw [hc]
      exact filter_le ..
    · rw [honly.other b hb h]
      rfl
  | cleanSegment s' =>
    obtain ⟨sg, hsg, hwf', hc⟩ := (hwf s' hop).laid.dirCleanSegment d.geo.small (dirValid_eq d)
    obtain ⟨sg', hsg', rfl⟩ := map_eq_some_iff.1 hrun
    cases hsg.symm.trans hsg'
    refine (contents_setSegment_le hwf hwf' (fun b hb => ?_) hs hb).trans (Multiset.le_add_left ..)
    rw [hc b hb]
    exact Multiset.filter_le ..
  | clearRange start stop =>
    obtain ⟨d1, hrun1, -, -, hle⟩ := dirClearRange_spec hwf start stop
    cases hrun1.symm.trans hrun
    exact (hle s hs b hb).trans (Multiset.le_add_left ..)
  | freelistClean s' =>
    obtain ⟨sg, hsg, hwf', hle⟩ := (hwf s' hop).freelistClean d.geo.small (dirValid_eq d)
    obtain ⟨sg', hsg', rfl⟩ := map_eq_some_iff.1 hrun
    cases hsg.symm.trans hsg'
    exact (contents_setSegment_le hwf hwf' hle hs hb).trans (Multiset.le_add_left ..)
  | initSegment s' =>
    obtain rfl : d.setSegment s' ((d.segment s').dirInitSegment d.geo.buckets) = d' := some.inj hrun
    have hz := dirInitSegment_wf d.geo.small (d.segment s')
    refine (contents_setSegment_le hwf hz.1 (fun b hb => ?_) hs hb).trans (Multiset.le_add_left ..)
    rw [hz.2 b hb]
    exact Multiset.zero_le _
  | moveHeader =>
    cases hrun
    exact Multiset.le_add_left ..

end Part

end TrafficServer
