import TrafficServer.Cache.Agg

/-!
# Clearing what may be inconsistent after a crash

The end of `handle_recover_from_data`. The scan of the disk goes forward from the write position of the
last directory, and on from the start of the data when it comes to the end of the partition. The
entries of documents from the write position up to `EVACUATION_SIZE` behind the end of the scan are not
to be trusted: those are the blocks that are less ahead of the write position than that (`InDoubt`).

`dir_clear_range` clears the entries of a range by their offsets as `int`s, and with them every entry
that is not valid (`dirClearRange_contents`). The ranges it is given are the right ones only if the
range in doubt ends on the first lap (`Straight`). Otherwise the bounds are exchanged and everything is
cleared, or, if the range comes round to the write position, only the blocks behind that.
-/

namespace TrafficServer

namespace Part

open Multiset

/-! ### The code -/

def evacuationSize : Int := 2 * aggSize

/-- The `int` index of every entry, times `SIZEOF_DIR`, is an `int`. -/
def IndexFits (d : Part) : Prop := (d.geo.buckets * dirDepth * d.geo.segments - 1) * 10 < 2 ^ 31
deriving Decidable

/-- `dir_clear_range`, with the `int` arithmetic of `dir_index` in its loop. -/
def clearRange (d : Part) (start stop : Int) : Option Part :=
  if d.IndexFits then d.dirClearRange start stop else none

inductive Recovered where
  | nothingToClear
  | clearAll
  | cleared (d : Part)

def recoverEnd (d : Part) (recoverPos : Int) : Int :=
  if recoverPos + evacuationSize > d.skip + d.len then
    recoverPos + evacuationSize - (d.skip + d.len)
  else recoverPos + evacuationSize

def nextSyncSerial (d : Part) (maxSyncSerial : Nat) : Nat :=
  let next := (maxSyncSerial + 1) % 2 ^ 32
  if d.header.syncSerial % 2 = next % 2 then (next + 1) % 2 ^ 32 else next

def clearDoubt (d : Part) (clearStart clearEnd : Int) : Option Part :=
  if clearStart ≤ clearEnd then d.clearRange clearStart clearEnd
  else (d.clearRange clearEnd dirOffsetMax).bind fun d => d.clearRange 1 clearStart

def recoverDone (d : Part) (recoverPos : Int) (recoverWrapped : Bool) (maxSyncSerial : Nat) :
    Option Recovered :=
  if recoverPos = d.header.writePos ∧ recoverWrapped then some .nothingToClear
  else if recoverPos + evacuationSize < d.header.writePos ∧
      recoverPos + evacuationSize + evacuationSize ≥ d.header.writePos then some .clearAll
  else
    (d.clearDoubt (offsetToPartOffset d d.header.writePos)
      (offsetToPartOffset d (d.recoverEnd recoverPos))).map fun d =>
        .cleared { d with header := { d.header with syncSerial := d.nextSyncSerial maxSyncSerial } }

/-! ### What it is for -/

/-- Where the scan is when it comes to `Ldone`. On the first lap `recover_wrapped` is set if it began
at the start of the data, and on the second it is not set if the documents before went up to the last
byte. -/
inductive ScanEnd
  /-- At `pos`, before the end of the partition. -/
  | firstLap (pos : Int) (recoverWrapped : Bool)
  /-- At the end: the document at the start of the data is an older one. -/
  | atEnd
  /-- At `pos`, on from the start of the data. -/
  | secondLap (pos : Int) (recoverWrapped : Bool)

namespace ScanEnd

def recoverPos (d : Part) : ScanEnd → Int
  | firstLap pos _ | secondLap pos _ => pos
  | atEnd => d.skip + d.len - evacuationSize

def recoverWrapped : ScanEnd → Bool
  | firstLap _ wrapped | secondLap _ wrapped => wrapped
  | atEnd => true

end ScanEnd

/-- What the code takes for granted at `Ldone`. -/
def Reached (d : Part) (e : ScanEnd) : Prop :=
  d.start ≤ d.header.writePos ∧ d.header.writePos ≤ d.skip + d.len ∧ evacuationSize ≤ d.skip + d.len ∧
    match e with
    | .firstLap pos _ => d.header.writePos ≤ pos ∧ pos ≤ d.skip + d.len
    | .atEnd => True
    | .secondLap pos _ => d.start ≤ pos ∧ pos ≤ d.skip + d.len

def firstBlock (d : Part) : Int := offsetToPartOffset d d.header.writePos

/-- The blocks are numbered from 1 to this one. -/
def lastBlock (d : Part) : Int := offsetToPartOffset d (d.skip + d.len) - 1

/-- How far ahead of the write position a block is. -/
def ahead (d : Part) (block : Int) : Int :=
  if d.firstBlock ≤ block then block - d.firstBlock else block - d.firstBlock + d.lastBlock

/-- The number of blocks from the write position to `EVACUATION_SIZE` behind the end of the scan. -/
def doubtLen (d : Part) : ScanEnd → Int
  | .firstLap pos _ =>
    if pos + evacuationSize ≤ d.skip + d.len then offsetToPartOffset d (pos + evacuationSize) - d.firstBlock
    else offsetToPartOffset d (pos + evacuationSize - (d.skip + d.len - d.start)) - d.firstBlock + d.lastBlock
  | .atEnd => d.lastBlock + 1 - d.firstBlock
  | .secondLap pos _ => offsetToPartOffset d (pos + evacuationSize) - d.firstBlock + d.lastBlock

/-- The block is one of those, going forward from the write position through the end of the
partition. -/
def InDoubt (d : Part) (e : ScanEnd) (block : Int) : Prop :=
  1 ≤ block ∧ block ≤ d.lastBlock ∧ d.ahead block < d.doubtLen e
deriving Decidable

/-- The recovery returns, and if it clears ranges, then exactly the entries in doubt that are not
tokens are gone. -/
def RecoversExactly (d : Part) (e : ScanEnd) (maxSyncSerial : Nat) : Prop :=
  ∃ r, d.recoverDone (e.recoverPos d) e.recoverWrapped maxSyncSerial = some r ∧
    ∀ d', r = .cleared d' → ∀ s < d.geo.segments, ∀ b < d.geo.buckets,
      d'.contents s b = (d.contents s b).filter fun c => ¬(c.token = false ∧ d.InDoubt e c.offset)

/-! ### What it does -/

variable {d : Part} {e : ScanEnd} {maxSyncSerial : Nat}

/-- The recovery has nothing to clear, or clears everything. -/
def Exits (d : Part) (e : ScanEnd) : Prop :=
  (e.recoverPos d = d.header.writePos ∧ e.recoverWrapped = true) ∨
    (e.recoverPos d + evacuationSize < d.header.writePos ∧
      e.recoverPos d + evacuationSize + evacuationSize ≥ d.header.writePos)
deriving Decidable

/-- The block is of one of the ranges from `first` to `stop` as they are cleared. Two ranges leave
nothing between them. -/
def Hit (first stop block : Int) : Prop :=
  (first ≤ stop ∧ first ≤ block ∧ block < stop) ∨ (stop < first ∧ min stop 1 ≤ block)
deriving Decidable

variable {first stop : Int}

theorem intOffset_lt (offset : Nat) : intOffset offset < dirOffsetMax := by
  have := (BitVec.ofNat 32 offset).toInt_lt
  rw [intOffset, dirOffsetMax]
  omega

theorem intOffset_of_lt {offset : Nat} (h : offset < 2 ^ 31) : intOffset offset = offset := by
  rw [intOffset, BitVec.toInt_eq_toNat_cond, BitVec.toNat_ofNat, Nat.mod_eq_of_lt (by omega), if_pos (by omega)]

theorem clearRange_contents (h : d.WF) (hint : d.IndexFits) (start stop : Int) :
    ∃ d', d.clearRange start stop = some d' ∧ d.SameHeader d' ∧ d'.WF ∧
      ∀ s < d.geo.segments, ∀ b < d.geo.buckets, d'.contents s b =
        (d.contents s b).filter fun c => contentValid d c = true ∧ ¬OffsetIn start stop c := by
  rw [clearRange, if_pos hint]
  exact dirClearRange_contents h start stop

theorem clearDoubt_none (hint : ¬d.IndexFits) (first stop : Int) : d.clearDoubt first stop = none := by
  rw [clearDoubt]
  split
  · rw [clearRange, if_neg hint]
  · rw [clearRange, if_neg hint, Option.bind_none]

theorem hit_of_le (hle : first ≤ stop) (c : Content) :
    OffsetIn first stop c ↔ c.token = false ∧ Hit first stop (intOffset c.offset) := by
  rw [OffsetIn, Hit]
  constructor
  · exact fun h => ⟨h.1, .inl ⟨hle, h.2⟩⟩
  · rintro ⟨htoken, h | h⟩
    · exact ⟨htoken, h.2⟩
    · omega

theorem hit_of_lt (hlt : stop < first) (c : Content) :
    OffsetIn stop dirOffsetMax c ∨ OffsetIn 1 first c ↔ c.token = false ∧ Hit first stop (intOffset c.offset) := by
  have hmax := intOffset_lt c.offset
  constructor
  · rintro (⟨htoken, h⟩ | ⟨htoken, h⟩)
    · exact ⟨htoken, .inr ⟨hlt, by omega⟩⟩
    · exact ⟨htoken, .inr ⟨hlt, by omega⟩⟩
  · rintro ⟨htoken, h | h⟩
    · omega
    · rcases le_or_gt stop (intOffset c.offset) with hle | hgt
      · exact .inl ⟨htoken, hle, hmax⟩
      · exact .inr ⟨htoken, by omega, by omega⟩

theorem clearDoubt_contents (h : d.WF) (hint : d.IndexFits) (first stop : Int) :
    ∃ d', d.clearDoubt first stop = some d' ∧ ∀ s < d.geo.segments, ∀ b < d.geo.buckets,
      d'.contents s b = (d.contents s b).filter fun c =>
        contentValid d c = true ∧ ¬(c.token = false ∧ Hit first stop (intOffset c.offset)) := by
  rcases le_or_gt first stop with hle | hlt
  · obtain ⟨d', hrun, -, -, hc⟩ := clearRange_contents h hint first stop
    refine ⟨d', by rw [clearDoubt, if_pos hle, hrun], fun s hs b hb => ?_⟩
    rw [hc s hs b hb]
    exact filter_congr fun c _ => by rw [hit_of_le hle]
  · obtain ⟨d1, hrun1, hsame, hwf, hc1⟩ := clearRange_contents h hint stop dirOffsetMax
    obtain ⟨d2, hrun2, -, -, hc2⟩ := clearRange_contents hwf (by rw [IndexFits, hsame.geo]; exact hint) 1 first
    rw [hsame.geo, hsame.contentValid] at hc2
    refine ⟨d2, ?_, fun s hs b hb => ?_⟩
    · rw [clearDoubt, if_neg (not_le.2 hlt), hrun1, Option.bind_some, hrun2]
    · rw [hc2 s hs b hb, hc1 s hs b hb, filter_filter]
      refine filter_congr fun c _ => ?_
      rw [← hit_of_lt hlt]
      tauto

/-! ### When it is exact -/

/-- The range in doubt ends on the first lap. -/
def Straight (d : Part) : ScanEnd → Prop
  | .firstLap pos _ => pos + evacuationSize ≤ d.skip + d.len
  | .atEnd => True
  | .secondLap _ _ => False

instance (d : Part) (e : ScanEnd) : Decidable (d.Straight e) :=
  match e with
  | .firstLap pos _ => inferInstanceAs (Decidable (pos + evacuationSize ≤ d.skip + d.len))
  | .atEnd => inferInstanceAs (Decidable True)
  | .secondLap _ _ => inferInstanceAs (Decidable False)

/-- The block `EVACUATION_SIZE` behind the scan, the end of the partition taken for the length of the
data when it is beyond that. -/
def clearEnd (d : Part) (e : ScanEnd) : Int := offsetToPartOffset d (d.recoverEnd (e.recoverPos d))

/-- Which entries may there be, if their offset is below `2 ^ 31`: all, on the first lap; those in
doubt; and if the range comes round to the write position, only those from there to `clearEnd`. -/
def Plain (d : Part) (e : ScanEnd) (offset : Nat) : Prop :=
  d.Straight e ∨ (d.clearEnd e < d.firstBlock ∧ d.InDoubt e offset) ∨
    (d.firstBlock ≤ d.clearEnd e ∧ (d.InDoubt e offset → d.firstBlock ≤ offset ∧ offset < d.clearEnd e))

/-- The same if the offset is larger: cut to an `int` it has to be on the same side. -/
def Cut (d : Part) (e : ScanEnd) (offset : Nat) : Prop :=
  if d.Straight e then d.InDoubt e offset ↔ d.InDoubt e (intOffset offset)
  else d.InDoubt e offset ↔ Hit d.firstBlock (d.clearEnd e) (intOffset offset)

/-- The entry is valid if it is a token or not in doubt; and if it is valid and no token, then its
offset is one that is told right. -/
def EntryFine (d : Part) (e : ScanEnd) (c : Content) : Prop :=
  (c.token = true ∨ ¬d.InDoubt e c.offset → contentValid d c = true) ∧
    (c.token = false → contentValid d c = true →
      if c.offset < 2 ^ 31 then d.Plain e c.offset else d.Cut e c.offset)

theorem offsetToPartOffset_mono {p q : Int} (h : p ≤ q) : offsetToPartOffset d p ≤ offsetToPartOffset d q :=
  Int.tdiv_le_tdiv (by decide) (by omega)

theorem one_le_offsetToPartOffset {p : Int} (h : d.start ≤ p) : 1 ≤ offsetToPartOffset d p := by
  have hstart : offsetToPartOffset d d.start = 1 := by
    rw [offsetToPartOffset, sub_self]
    rfl
  exact hstart ▸ offsetToPartOffset_mono h

section Reached
variable (h : d.Reached e)
include h

theorem Reached.clearEnd_le : d.clearEnd e ≤ d.lastBlock + 1 := by
  obtain ⟨-, -, hlarge, hpos⟩ := h
  have hle : d.recoverEnd (e.recoverPos d) ≤ d.skip + d.len := by
    rw [recoverEnd]
    split <;> cases e <;> simp only [ScanEnd.recoverPos] at * <;> omega
  have := offsetToPartOffset_mono (d := d) hle
  rw [clearEnd, lastBlock]
  omega

theorem Reached.straight (hs : d.Straight e) :
    d.firstBlock ≤ d.clearEnd e ∧ d.doubtLen e = d.clearEnd e - d.firstBlock := by
  obtain ⟨-, hend, -, hpos⟩ := h
  have hpos' : 0 ≤ evacuationSize := by decide
  cases e with
  | firstLap pos wrapped =>
    have hs' : pos + evacuationSize ≤ d.skip + d.len := hs
    have hrec : d.clearEnd (.firstLap pos wrapped) = offsetToPartOffset d (pos + evacuationSize) := by
      rw [clearEnd, recoverEnd, ScanEnd.recoverPos, if_neg (not_lt.2 hs')]
    rw [doubtLen, if_pos hs', hrec]
    exact ⟨offsetToPartOffset_mono (by omega), rfl⟩
  | atEnd =>
    have hrec : d.clearEnd .atEnd = offsetToPartOffset d (d.skip + d.len) := by
      rw [clearEnd, recoverEnd, ScanEnd.recoverPos, sub_add_cancel, if_neg (lt_irrefl _)]
    rw [doubtLen, hrec, lastBlock, sub_add_cancel]
    exact ⟨offsetToPartOffset_mono hend, rfl⟩
  | secondLap pos wrapped => exact hs.elim

theorem Reached.round (hs : ¬d.Straight e) : d.lastBlock + 1 - d.firstBlock ≤ d.doubtLen e := by
  obtain ⟨-, -, -, hpos⟩ := h
  have hpos' : 0 ≤ evacuationSize := by decide
  cases e with
  | firstLap pos wrapped =>
    have hs' : ¬pos + evacuationSize ≤ d.skip + d.len := hs
    have := one_le_offsetToPartOffset (d := d) (p := pos + evacuationSize - (d.skip + d.len - d.start)) (by omega)
    rw [doubtLen, if_neg hs']
    omega
  | atEnd => exact absurd trivial hs
  | secondLap pos wrapped =>
    have := one_le_offsetToPartOffset (d := d) (p := pos + evacuationSize) (by have := hpos.1; omega)
    rw [doubtLen]
    omega

/-- **On the first lap the blocks that are hit are those in doubt.** -/
theorem Reached.inDoubt_iff_hit (hs : d.Straight e) (block : Int) :
    d.InDoubt e block ↔ Hit d.firstBlock (d.clearEnd e) block := by
  obtain ⟨hle, hlen⟩ := h.straight hs
  have hlast := h.clearEnd_le
  have hfirst : 1 ≤ d.firstBlock := one_le_offsetToPartOffset h.1
  rw [InDoubt, Hit, hlen, ahead]
  split <;> omega

theorem Reached.plain_iff {offset : Nat} (hpos : offset ≠ 0) :
    (d.InDoubt e offset ↔ Hit d.firstBlock (d.clearEnd e) offset) ↔ d.Plain e offset := by
  by_cases hs : d.Straight e
  · exact iff_of_true (h.inDoubt_iff_hit hs offset) (.inl hs)
  have hlen := h.round hs
  have hlast := h.clearEnd_le
  rw [Plain, Hit, or_iff_right hs, InDoubt, ahead]
  split <;> omega

theorem Reached.entryFine_iff {c : Content} (hpos : c.offset ≠ 0) : d.EntryFine e c ↔
      ((contentValid d c = true ∧
        ¬(c.token = false ∧ Hit d.firstBlock (d.clearEnd e) (intOffset c.offset))) ↔
          ¬(c.token = false ∧ d.InDoubt e c.offset)) := by
  have htold : (if c.offset < 2 ^ 31 then d.Plain e c.offset else d.Cut e c.offset) ↔
      (d.InDoubt e c.offset ↔ Hit d.firstBlock (d.clearEnd e) (intOffset c.offset)) := by
    split
    · next hlt => rw [← h.plain_iff hpos, intOffset_of_lt hlt]
    · rw [Cut]
      split
      · next hs => rw [h.inDoubt_iff_hit hs (intOffset c.offset)]
      · rfl
  rw [EntryFine, htold]
  cases c.token <;> cases contentValid d c <;> simp [not_iff_not, iff_comm (a := d.InDoubt e c.offset)]

end Reached

theorem offset_ne_zero {s b : Nat} {c : Content} (hc : c ∈ d.contents s b) : c.offset ≠ 0 := by
  simpa using (List.mem_filter.1 hc).2

theorem recoverDone_contents (h : d.WF) (hexits : ¬d.Exits e) (hint : d.IndexFits) (maxSyncSerial : Nat) :
    ∃ d', d.recoverDone (e.recoverPos d) e.recoverWrapped maxSyncSerial = some (.cleared d') ∧
      ∀ s < d.geo.segments, ∀ b < d.geo.buckets, d'.contents s b =
        (d.contents s b).filter fun c => contentValid d c = true ∧
          ¬(c.token = false ∧ Hit d.firstBlock (d.clearEnd e) (intOffset c.offset)) := by
  obtain ⟨d', hrun, hc⟩ := clearDoubt_contents h hint d.firstBlock (d.clearEnd e)
  rw [Exits, not_or] at hexits
  rw [recoverDone, if_neg hexits.1, if_neg hexits.2]
  exact ⟨_, congrArg (Option.map _) hrun, hc⟩

theorem filter_eq_iff {α : Type} {p q : α → Prop} [DecidablePred p] [DecidablePred q]
    {m : Multiset α} : m.filter p = m.filter q ↔ ∀ a ∈ m, p a ↔ q a := by
  constructor
  · intro h a ha
    have hmem : a ∈ m.filter p ↔ a ∈ m.filter q := by rw [h]
    rwa [mem_filter, mem_filter, and_iff_right ha, and_iff_right ha] at hmem
  · exact fun h => filter_congr h

/-- **The recovery clears exactly what is in doubt** if and only if it does not clear ranges at all, or
an `int` can address the entries and the directory has only such that are told right. -/
theorem recoversExactly_iff (h : d.WF) (he : d.Reached e) : d.RecoversExactly e maxSyncSerial ↔
      d.Exits e ∨ d.IndexFits ∧
          ∀ s < d.geo.segments, ∀ b < d.geo.buckets, ∀ c ∈ d.contents s b, d.EntryFine e c := by
  by_cases hexits : d.Exits e
  · refine iff_of_true ?_ (.inl hexits)
    by_cases hsame : e.recoverPos d = d.header.writePos ∧ e.recoverWrapped = true
    · exact ⟨_, if_pos hsame, fun _ => Recovered.noConfusion⟩
    · refine ⟨.clearAll, ?_, fun _ => Recovered.noConfusion⟩
      rw [recoverDone, if_neg hsame, if_pos (hexits.resolve_left hsame)]
  rw [or_iff_right hexits]
  by_cases hint : d.IndexFits
  · obtain ⟨d', hrun, hc⟩ := recoverDone_contents h hexits hint maxSyncSerial
    rw [and_iff_right hint]
    constructor
    · rintro ⟨r, hr, hexact⟩ s hs b hb c hmem
      rw [hrun] at hr
      have heq := hexact d' (Option.some.inj hr).symm s hs b hb
      rw [hc s hs b hb, filter_eq_iff] at heq
      exact (he.entryFine_iff (offset_ne_zero hmem)).2 (heq c hmem)
    · intro hall
      refine ⟨_, hrun, fun d'' heq s hs b hb => ?_⟩
      obtain rfl : d' = d'' := Recovered.cleared.inj heq
      rw [hc s hs b hb, filter_eq_iff]
      exact fun c hmem => (he.entryFine_iff (offset_ne_zero hmem)).1 (hall s hs b hb c hmem)
  · refine iff_of_false ?_ fun hall => hint hall.1
    rintro ⟨r, hr, -⟩
    rw [Exits, not_or] at hexits
    rw [recoverDone, if_neg hexits.1, if_neg hexits.2, clearDoubt_none hint] at hr
    cases hr

def written : Part := { tiny with header := { tiny.header with writePos := 2 ^ 26 } }

/-- Two valid entries, of a document before the write position and of an older one behind it. -/
def writtenTwo : Option Part := do
  let d ← written.zeroDir.initDir.dirInsert ⟨0, 7⟩ ⟨50000, 0, 0, 0, 0⟩ 1
  d.dirInsert ⟨0, 9⟩ (dirSetPhase (dirSetOffset ⟨0, 0, 0, 0, 0⟩ 140000) true) 1

def earlier : Content := ⟨7, 50000, 0, 0, false, false, false, false⟩

def older : Content := ⟨9, 140000, 0, 0, true, false, false, false⟩

theorem writtenTwo_wf (h : writtenTwo = some d) : d.WF := by
  obtain ⟨-, hwf, -⟩ := initDir_spec written
  rw [writtenTwo] at h
  obtain ⟨d1, h1, h2⟩ := Option.bind_eq_some_iff.1 h
  exact dirInsert_wf (dirInsert_wf hwf _ (by decide) h1) _ (by decide) h2

theorem recoversExactly_iff_written : ∃ d, writtenTwo = some d ∧ d.contents 0 0 = {earlier, older} ∧
    d.InDoubt (.firstLap (2 ^ 26) false) older.offset ∧ d.RecoversExactly (.firstLap (2 ^ 26) false) 0 := by
  refine ⟨_, rfl, by decide, by decide, (recoversExactly_iff (writtenTwo_wf rfl) ?_).2 (.inr ⟨by decide, ?_⟩)⟩
  · exact ⟨by decide, by decide, by decide, by decide, by decide⟩
  · intro s hs b hb c hmem
    obtain rfl : s = 0 := Nat.lt_one_iff.1 hs
    obtain rfl : b = 0 := Nat.lt_one_iff.1 hb
    change c ∈ ({earlier, older} : Multiset Content) at hmem
    rw [insert_eq_cons, mem_cons, mem_singleton] at hmem
    rcases hmem with rfl | rfl <;> exact ⟨fun _ => by decide, fun _ _ => .inl (by decide)⟩

/-- The scan has wrapped around and ends at the start: the document of the earlier entry is not in
doubt, but its entry is cleared. -/
theorem wrapped_not_exact : ∃ d, writtenTwo = some d ∧ d.WF ∧ d.Reached (.secondLap 16384 true) ∧
    earlier ∈ d.contents 0 0 ∧ ¬d.InDoubt (.secondLap 16384 true) earlier.offset ∧
    ¬d.RecoversExactly (.secondLap 16384 true) 0 := by
  have hreached : written.Reached (.secondLap 16384 true) :=
    ⟨by decide, by decide, by decide, by decide, by decide⟩
  refine ⟨_, rfl, writtenTwo_wf rfl, hreached, by decide, by decide, ?_⟩
  rintro ⟨r, hr, hexact⟩
  obtain ⟨d', hrun, hcleared⟩ :=
    recoverDone_contents (e := .secondLap 16384 true) (writtenTwo_wf rfl) (by decide) (by decide) 0
  rw [hrun] at hr
  have heq := hexact d' (Option.some.inj hr).symm 0 (by decide) 0 (by decide)
  rw [hcleared 0 (by decide) 0 (by decide), filter_eq_iff] at heq
  exact ((heq earlier (by decide)).2 (by decide)).2 (by decide)

end Part

end TrafficServer
