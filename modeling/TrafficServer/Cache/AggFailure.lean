import TrafficServer.Cache.AggValid
import TrafficServer.Cache.InsertRetry

/-!
# Aggregation writes that fail

When the write of the aggregation buffer fails, `aggWriteDone` goes over the documents in the buffer
and deletes the directory entry of each. It looks under the key in the document, at the position of
the document in bytes, where an entry has its position in blocks and a head entry stands under the
first key. On a partition as it is laid out no entry of the buffer has such an offset, so the entries
stay (`failed_agg_write_never`).
-/

namespace TrafficServer

open List Option

/-- What the loop reads of a document in the buffer: `doc->len` and `doc->key`. -/
structure AggDoc where
  len : Nat
  key : CacheKey

namespace Part

variable {d d' : Part} {s b : Nat}

/-! ### The loop -/

def deleteBuffered (buffer : Nat → AggDoc) : Nat → Nat → Part → Option Part
  | 0, _, _ => none
  | n + 1, done, d =>
    if done < d.aggBufPos then do
      let doc := buffer done
      let (d, _) ← d.dirDelete doc.key (dirSetOffset dirClear (d.header.writePos + done).toNat)
      deleteBuffered buffer n (done + roundToApproxSize doc.len) d
    else some d

def aggWriteFailed (buffer : Nat → AggDoc) (fuel : Nat) (d : Part) : Option Part :=
  (deleteBuffered buffer fuel 0 d).map fun d => { d with aggBufPos := 0 }

/-- The documents stand one after the other in bytes `done` to `stop` of the buffer. -/
def Holds (buffer : Nat → AggDoc) : Nat → List AggDoc → Nat → Prop
  | done, [], stop => done = stop
  | done, doc :: docs, stop =>
    buffer done = doc ∧ 0 < doc.len ∧ Holds buffer (done + roundToApproxSize doc.len) docs stop

def positions : Nat → List AggDoc → List (Nat × AggDoc)
  | _, [] => []
  | done, doc :: docs => (done, doc) :: positions (done + roundToApproxSize doc.len) docs

theorem SameHeader.aggBufPos (h : d.SameHeader d') : d'.aggBufPos = d.aggBufPos := by rw [h]

theorem SameHeader.writePos (h : d.SameHeader d') : d'.header.writePos = d.header.writePos := by rw [h]

variable {buffer : Nat → AggDoc} {docs : List AggDoc} {done stop : Nat}

theorem positions_spec (h : Holds buffer done docs stop) : done ≤ stop ∧ ∀ p ∈ positions done docs, p.1 < stop := by
  induction docs generalizing done with
  | nil => exact ⟨le_of_eq h, by simp [positions]⟩
  | cons doc docs ih =>
    obtain ⟨-, hlen, hrest⟩ := h
    obtain ⟨hle, hpos⟩ := ih hrest
    have hround := le_roundToApproxSize doc.len
    refine ⟨by omega, fun p hp => ?_⟩
    rcases mem_cons.1 hp with rfl | hp
    · show done < stop
      omega
    · exact hpos p hp

theorem deleteBuffered_of_lt (h : (done : Int) < d.aggBufPos) (n : Nat) : deleteBuffered buffer (n + 1) done d =
      (d.dirDelete (buffer done).key (dirSetOffset dirClear (d.header.writePos + done).toNat)).bind
        fun r => deleteBuffered buffer n (done + roundToApproxSize (buffer done).len) r.1 :=
  if_pos h

theorem deleteBuffered_of_le (h : d.aggBufPos ≤ done) (n : Nat) : deleteBuffered buffer (n + 1) done d = some d :=
  if_neg (not_lt.2 h)

theorem dirDelete_keeps (hd : d.WF) (key : CacheKey) (del : Dir) :
    ∃ d' r, d.dirDelete key del = some (d', r) ∧ d.SameHeader d' ∧ d'.WF ∧
      ∀ s < d.geo.segments, ∀ b < d.geo.buckets, ∀ c ∈ d.contents s b, c.offset ≠ dirOffset del →
        c ∈ d'.contents s b := by
  rcases dirDelete_spec hd key del with ⟨-, hrun⟩ | ⟨d', x, hrun, -, hoff, honly, hx⟩
  · exact ⟨d, 0, hrun, .refl d, hd, fun _ _ _ _ _ hc _ => hc⟩
  refine ⟨d', 1, hrun, ?_, honly.wf, fun s hs b hb c hc hne => ?_⟩
  · obtain ⟨⟨sg, r⟩, -, heq⟩ := map_eq_some_iff.1 hrun
    cases heq
    exact .setSegment ..
  · by_cases hkey : s = d.keySegment key ∧ b = d.keyBucket key
    · obtain ⟨rfl, rfl⟩ := hkey
      rw [hx] at hc
      exact (Multiset.mem_cons.1 hc).resolve_left fun h => hne (h ▸ hoff)
    · rwa [honly.other s hs b hb hkey]

/-- An entry stays if no document of the buffer has its offset as a byte position. -/
theorem deleteBuffered_spec (hd : d.WF) (hdocs : Holds buffer done docs stop) (hstop : (stop : Int) = d.aggBufPos) :
    ∃ d', deleteBuffered buffer (docs.length + 1) done d = some d' ∧
      ∀ s < d.geo.segments, ∀ b < d.geo.buckets, ∀ c ∈ d.contents s b,
        (∀ p ∈ positions done docs, c.offset ≠ (d.header.writePos + p.1).toNat % 2 ^ 40) →
        c ∈ d'.contents s b := by
  induction docs generalizing done d with
  | nil =>
    obtain rfl : done = stop := hdocs
    exact ⟨d, deleteBuffered_of_le hstop.ge 0, fun _ _ _ _ _ hc _ => hc⟩
  | cons doc docs ih =>
    have hlt := (positions_spec hdocs).2 (done, doc) (by simp [positions])
    obtain ⟨rfl, hlen, hrest⟩ := hdocs
    obtain ⟨d1, r, hrun, hsame, hwf, hkeep⟩ := dirDelete_keeps hd (buffer done).key
      (dirSetOffset dirClear (d.header.writePos + done).toNat)
    obtain ⟨d', hrun', hkeep'⟩ := ih hwf hrest (hstop.trans hsame.aggBufPos.symm)
    rw [hsame.geo, hsame.writePos] at hkeep'
    refine ⟨d', ?_, fun s hs b hb c hc hne => ?_⟩
    · rw [length_cons, deleteBuffered_of_lt (by dsimp only at hlt; omega), hrun]
      exact hrun'
    · obtain ⟨hne1, hne⟩ := forall_mem_cons.1 hne
      exact hkeep' s hs b hb c (hkeep s hs b hb c hc (by rwa [dirOffset_setOffset])) hne

/-! ### What the loop is for -/

/-- The position of an entry lies where the buffer was to be written. -/
def InRange (d : Part) (c : Content) : Prop :=
  d.header.writePos ≤ d.start + c.offset * inkBlockSize - inkBlockSize ∧
    d.start + c.offset * inkBlockSize - inkBlockSize < d.header.writePos + d.aggBufPos

/-- No entry of the current phase is left in the range, and every one outside it is. -/
structure Cleared (d d' : Part) : Prop where
  gone : ∀ s < d.geo.segments, ∀ b < d.geo.buckets, ∀ c ∈ d'.contents s b,
    ¬(c.phase = d.header.phase ∧ d.InRange c)
  kept : ∀ s < d.geo.segments, ∀ b < d.geo.buckets, ∀ c, ¬d.InRange c →
    (d'.contents s b).count c = (d.contents s b).count c

/-! ### Partitions as they are laid out -/

/-- The data starts after the first blocks of the disk and is written in blocks, and all of it has
offsets that an entry can hold as bytes. -/
structure OnDisk (d : Part) : Prop where
  start : 8192 < d.start
  pos : d.start ≤ d.header.writePos
  aligned : (inkBlockSize : Int) ∣ d.header.writePos - d.start
  buf : d.aggBufPos ≤ aggSize
  small : d.header.writePos + d.aggBufPos ≤ 2 ^ 40

/-- The document at byte `done` of the buffer has its entry in the directory, with the offset and the
phase that `agg_copy` gave it, under whichever key. -/
def Entered (d : Part) (done : Nat) : Prop :=
  ∃ s < d.geo.segments, ∃ b < d.geo.buckets, ∃ c ∈ d.contents s b,
    c.phase = d.header.phase ∧ (c.offset : Int) = offsetToPartOffset d (d.header.writePos + done)

theorem positions_aligned (h : inkBlockSize ∣ done) : ∀ p ∈ positions done docs, inkBlockSize ∣ p.1 := by
  induction docs generalizing done with
  | nil => simp [positions]
  | cons doc docs ih =>
    intro p hp
    rcases mem_cons.1 hp with rfl | hp
    · exact h
    · exact ih (dvd_add h (dvd_roundToApproxSize _)) p hp

theorem OnDisk.inRange (h : d.OnDisk) (hdone : (done : Int) < d.aggBufPos)
    (halign : inkBlockSize ∣ done) {c : Content}
    (hc : (c.offset : Int) = offsetToPartOffset d (d.header.writePos + done)) : d.InRange c := by
  obtain ⟨k, hk⟩ := h.aligned
  obtain ⟨m, rfl⟩ := halign
  have hoff : (c.offset : Int) = k + m + 1 := by
    rw [hc, offsetToPartOffset]
    have heq : d.header.writePos + ((inkBlockSize * m : Nat) : Int) - d.start + inkBlockSize =
        inkBlockSize * (k + m + 1) := by
      push_cast
      linarith
    rw [heq, Int.mul_tdiv_cancel_left _ (by decide)]
  unfold InRange
  rw [hoff]
  simp only [inkBlockSize] at hk hdone ⊢
  push_cast at hdone ⊢
  constructor <;> omega

theorem OnDisk.not_inRange (h : d.OnDisk) (hdone : (done : Int) < d.aggBufPos) {c : Content}
    (hc : c.offset = (d.header.writePos + done).toNat % 2 ^ 40) : ¬d.InRange c := by
  obtain ⟨hstart, hpos, -, hbuf, hsmall⟩ := h
  rintro ⟨-, hlt⟩
  simp only [inkBlockSize, aggSize] at hlt hbuf
  omega

/-- **A failed aggregation write is never cleared up** on a partition as it is laid out: with the entry
of any document of the buffer in the directory, it is still there afterwards. -/
theorem failed_agg_write_never (d : Part) (hd : d.WF) (hdisk : d.OnDisk) (buffer : Nat → AggDoc)
    (docs : List AggDoc) (stop : Nat) (hdocs : Holds buffer 0 docs stop) (hstop : (stop : Int) = d.aggBufPos)
    (hentered : ∃ p ∈ positions 0 docs, d.Entered p.1) :
    ∃ d', aggWriteFailed buffer (docs.length + 1) d = some d' ∧ ¬d.Cleared d' := by
  have hlt : ∀ p ∈ positions 0 docs, (p.1 : Int) < d.aggBufPos := fun p hp => by
    have := (positions_spec hdocs).2 p hp
    omega
  obtain ⟨d', hrun, hkeep⟩ := deleteBuffered_spec hd hdocs hstop
  obtain ⟨p, hp, s, hs, b, hb, c, hc, hphase, hoff⟩ := hentered
  have hin := hdisk.inRange (hlt p hp) (positions_aligned (dvd_zero _) p hp) hoff
  refine ⟨{ d' with aggBufPos := 0 }, by rw [aggWriteFailed, hrun]; rfl, fun hcl => ?_⟩
  have hstays : c ∈ d'.contents s b := hkeep s hs b hb c hc fun q hq heq => hdisk.not_inRange (hlt q hq) heq hin
  exact hcl.gone s hs b hb c hstays ⟨hphase, hin⟩

/-! ### Two documents in the buffer -/

/-- A new partition of one bucket, with two blocks in the aggregation buffer. -/
def buffered : Part := { tiny.zeroDir.initDir with aggBufPos := 1024 }

def bufferedDoc (done : Nat) : AggDoc := if done = 0 then ⟨72, ⟨0, 7⟩⟩ else ⟨300, ⟨0, 9⟩⟩

theorem holds_bufferedDoc : Holds bufferedDoc 0 [⟨72, ⟨0, 7⟩⟩, ⟨300, ⟨0, 9⟩⟩] 1024 := by
  exact ⟨rfl, by decide, rfl, by decide, rfl⟩

/-- The entries of the documents, and one of the other phase that has the block number which is the byte
position of the first. -/
def ownEntry : Dir := ⟨1, 0, 0, 0, 0⟩
def nextEntry : Dir := ⟨2, 0, 0, 0, 0⟩
def farEntry : Dir := ⟨16384, 0, 4096, 0, 0⟩

def bufferedEntries : Option Part := do
  let d ← buffered.dirInsert ⟨0, 7⟩ ownEntry 1
  let d ← d.dirInsert ⟨0, 9⟩ nextEntry 1
  d.dirInsert ⟨0, 7⟩ farEntry 1

theorem bufferedEntries_wf (h : bufferedEntries = some d) : d.WF := by
  have hwf : buffered.WF := (initDir_spec tiny).2.1
  rw [bufferedEntries] at h
  obtain ⟨d1, h1, h⟩ := bind_eq_some_iff.1 h
  obtain ⟨d2, h2, h3⟩ := bind_eq_some_iff.1 h
  exact dirInsert_wf (dirInsert_wf (dirInsert_wf hwf _ (by decide) h1) _ (by decide) h2) _ (by decide) h3

theorem failed_agg_write_buffered : ∃ d d' : Part, d.OnDisk ∧ d.Entered 0 ∧ d.Entered 512 ∧
    aggWriteFailed bufferedDoc 3 d = some d' ∧ ¬d.Cleared d' := by
  obtain ⟨d, hd, hdisk, hbuf, hfirst, hnext⟩ : ∃ d, bufferedEntries = some d ∧ d.OnDisk ∧ d.aggBufPos = 1024 ∧
      d.Entered 0 ∧ d.Entered 512 := by
    refine ⟨_, rfl, ⟨by decide, by decide, by decide, by decide, by decide⟩, rfl, ?_, ?_⟩
    · exact ⟨0, by decide, 0, by decide, ownEntry.under 7, by decide, rfl, rfl⟩
    · exact ⟨0, by decide, 0, by decide, nextEntry.under 9, by decide, rfl, rfl⟩
  obtain ⟨d', hrun, hno⟩ := failed_agg_write_never d (bufferedEntries_wf hd) hdisk bufferedDoc _ 1024
    holds_bufferedDoc hbuf.symm ⟨_, mem_cons_self, hfirst⟩
  exact ⟨d, d', hdisk, hfirst, hnext, hrun, hno⟩

/-- The entries of the documents stay in the directory, and the other one is deleted. -/
theorem failed_agg_write_deletes_other : ∃ d d' : Part, bufferedEntries = some d ∧ d.WF ∧ d.OnDisk ∧
    Holds bufferedDoc 0 [⟨72, ⟨0, 7⟩⟩, ⟨300, ⟨0, 9⟩⟩] 1024 ∧ d.aggBufPos = 1024 ∧
    d.contents 0 0 = {ownEntry.under 7, nextEntry.under 9, farEntry.under 7} ∧
    aggWriteFailed bufferedDoc 3 d = some d' ∧ d'.contents 0 0 = {ownEntry.under 7, nextEntry.under 9} ∧
    (ownEntry.under 7).phase = d.header.phase ∧ d.InRange (ownEntry.under 7) ∧ ¬d.InRange (farEntry.under 7) ∧
    ¬ d.Cleared d' := by
  have hleft : (bufferedEntries.bind fun d => (aggWriteFailed bufferedDoc 3 d).map fun d' => d'.contents 0 0) =
      some {ownEntry.under 7, nextEntry.under 9} := by decide +kernel
  obtain ⟨d, hd, hmap⟩ := bind_eq_some_iff.1 hleft
  obtain ⟨d', hrun, hc'⟩ := map_eq_some_iff.1 hmap
  have hwf := bufferedEntries_wf hd
  cases hd
  refine ⟨_, d', rfl, hwf, ⟨by decide, by decide, by decide, by decide, by decide⟩, holds_bufferedDoc, rfl,
    by decide, hrun, hc', rfl, ⟨by decide, by decide⟩, fun h => absurd h.2 (by decide), fun h => ?_⟩
  exact h.gone 0 (by decide) 0 (by decide) (ownEntry.under 7) (by simp [hc']) ⟨rfl, by decide, by decide⟩

end Part

end TrafficServer
