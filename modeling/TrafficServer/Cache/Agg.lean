import TrafficServer.Cache.DirectoryRun

/-!
# Aggregation writes

Documents are copied into the aggregation buffer (`agg_copy`), the buffer is written at the write
position, and at the end of the partition the write position goes back to the start (`agg_wrap`).
A `World` is a partition with its blocks: every block on disk and in the buffer names the copy that
produced it, and every directory entry the copy it was created for. Blocks are counted from the
start of the data; `placed` lists the copies made so far, and a copy is its number there.

`Step` is one thing that can happen between two directory states; `aggWrite` is the function of the
source, and a run of steps (`aggWrite_steps`).
-/

namespace TrafficServer

def aggSize : Nat := 4 * 1024 * 1024
def aggHighWater : Nat := aggSize / 2

/-- A document in the aggregation queue: written by a user, or evacuated, which keeps the entry it
was found through but for its place. -/
inductive AggVC
  | write (len : Nat) (dir : Dir) (pinned head : Bool)
  | evacuate (len : Nat) (overwriteDir : Dir)

namespace AggVC

def len : AggVC → Nat
  | write len .. => len
  | evacuate len _ => len

def aggLen (c : AggVC) : Nat := roundToApproxSize c.len

def evacuator : AggVC → Bool
  | write .. => false
  | evacuate .. => true

end AggVC

def aggCopy (d : Part) : AggVC → Dir
  | .write len dir pinned head =>
    let dir := dirSetApproxSize dir (roundToApproxSize len)
    let dir := dirSetOffset dir (offsetToPartOffset d (d.header.writePos + d.aggBufPos)).toNat
    let dir := dirSetPhase dir d.header.phase
    dirSetHead (dirSetPinned dir pinned) head
  | .evacuate _ overwriteDir =>
    let dir :=
      dirSetOffset overwriteDir (offsetToPartOffset d (d.header.writePos + d.aggBufPos)).toNat
    dirSetPhase dir d.header.phase

/-- `agg_wrap`, without the evacuation bookkeeping. -/
def aggWrap (d : Part) : Option Part :=
  ({ d with
      header := { d.header with
        writePos := d.start
        phase := !d.header.phase
        cycle := d.header.cycle + 1
        aggPos := d.start } } : Part).dirCleanPart

def aggWriteDone (d : Part) : Part :=
  { d with
    aggBufPos := 0
    header := { d.header with
      lastWritePos := d.header.writePos
      writePos := d.header.writePos + d.aggBufPos
      writeSerial := d.header.writeSerial + 1 } }

namespace Part

def writeBlock (d : Part) : Nat := ((d.header.writePos - d.start).tdiv inkBlockSize).toNat

def bufBlocks (d : Part) : Nat := (d.aggBufPos.tdiv inkBlockSize).toNat

end Part

/-- One copy of a document into the aggregation buffer. -/
structure Placed where
  dir : Dir
  len : Nat
  cycle : Nat

structure World where
  part : Part
  io : Bool
  disk : Nat → Option Nat
  buf : Nat → Option Nat
  placed : List Placed
  entries : Nat → Nat → Multiset (Content × Nat)

namespace World

def Fits (w : World) (c : AggVC) : Prop :=
  w.part.aggBufPos + c.aggLen ≤ aggSize ∧
    w.part.header.writePos + w.part.aggBufPos + c.aggLen ≤ w.part.skip + w.part.len
deriving Decidable

def place (w : World) (c : AggVC) : World :=
  { w with
    part := { w.part with aggBufPos := w.part.aggBufPos + c.aggLen }
    buf := fun i =>
      if w.part.bufBlocks ≤ i ∧ i < w.part.bufBlocks + c.aggLen / inkBlockSize then
        some w.placed.length
      else w.buf i
    placed := w.placed ++ [⟨aggCopy w.part c, c.len, w.part.header.cycle⟩] }

def issue (w : World) : World :=
  { w with
    io := true
    part := { w.part with
      header := { w.part.header with aggPos := w.part.header.writePos + w.part.aggBufPos } } }

def Buffered (w : World) (k : Nat) : Prop :=
  w.part.writeBlock ≤ k ∧ k < w.part.writeBlock + w.part.bufBlocks
deriving Decidable

def land (w : World) (k : Nat) : World :=
  { w with disk := Function.update w.disk k (w.buf (k - w.part.writeBlock)) }

def done (w : World) : World :=
  { w with
    io := false
    part := aggWriteDone w.part
    disk := fun k => if w.Buffered k then w.buf (k - w.part.writeBlock) else w.disk k }

def wrap (w : World) : Option World :=
  (aggWrap w.part).map fun d =>
    { w with
      part := d
      entries := fun s b => (w.entries s b).filter fun x => x.1 ∈ d.contents s b }

/-- A document can be copied when it has a length and, if it is evacuated, was copied before: its
entry has the size of that copy. -/
def Ready (w : World) : AggVC → Prop
  | .write len .. => 0 < len
  | .evacuate len overwriteDir =>
    0 < len ∧ ∃ P ∈ w.placed, P.len = len ∧ dirApproxSize overwriteDir = dirApproxSize P.dir

/-- `e` is the entry that `agg_copy` made for copy `j`, which is of the current or the last
cycle. The tag, and what else is no matter of place, may have been set since. -/
def Recent (w : World) (j : Nat) (e : Dir) : Prop :=
  ∃ P, w.placed[j]? = some P ∧
    (P.cycle = w.part.header.cycle ∨ P.cycle + 1 = w.part.header.cycle) ∧
    dirOffset e = dirOffset P.dir ∧ dirPhase e = dirPhase P.dir ∧ dirSize e = dirSize P.dir ∧
    dirBig e = dirBig P.dir

/-- The directory operations of a run, and the entry they may add with the copy it is for. -/
def NewEntry (w : World) : Part.DirOp → Option (CacheKey × Dir × Nat) → Prop
  | .insert key e, new => ∃ j, w.Recent j e ∧ new = some (key, e, j)
  | .overwrite key e _ _, new => ∃ j, w.Recent j e ∧ new = some (key, e, j)
  | .initSegment _, _ => False
  | .moveHeader .., _ => False
  | _, new => new = none

/-- The entries that may be there after an operation: the old ones and the new one. -/
def withNew (w : World) (new : Option (CacheKey × Dir × Nat)) (s b : Nat) :
    Multiset (Content × Nat) :=
  match new with
  | some (key, e, j) =>
    if w.part.keySegment key = s ∧ w.part.keyBucket key = b then
      (e.under (key.word 2), j) ::ₘ w.entries s b
    else w.entries s b
  | none => w.entries s b

inductive Step : World → World → Prop
  | place (w : World) (c : AggVC) (ready : w.Ready c) (idle : w.io = false) (fits : w.Fits c) :
    Step w (w.place c)
  | issue (w : World) (idle : w.io = false) (pending : 0 < w.part.aggBufPos) : Step w w.issue
  | land (w : World) (k : Nat) (busy : w.io = true) (hk : w.Buffered k) : Step w (w.land k)
  | done (w : World) (busy : w.io = true) : Step w w.done
  | wrap (w w' : World) (idle : w.io = false) (empty : w.part.aggBufPos = 0)
      (moved : w.part.header.writePos ≠ w.part.start) (run : w.wrap = some w') : Step w w'
  | dirOp (w : World) (op : Part.DirOp) (fuel : Nat) (new : Option (CacheKey × Dir × Nat))
      (d : Part) (entries : Nat → Nat → Multiset (Content × Nat)) (ok : op.Admissible w.part)
      (hnew : w.NewEntry op new) (run : w.part.apply fuel op = some d)
      (from_old : ∀ s b, entries s b ≤ w.withNew new s b)
      (same : ∀ s < d.geo.segments, ∀ b < d.geo.buckets,
        (entries s b).map Prod.fst = d.contents s b) :
      Step w { w with part := d, entries := entries }

/-! ### The function `aggWrite` -/

section AggWrite
variable (handle : World → AggVC → Option World)

/-- The loop that fills the buffer. `handle` is what an evacuator's `handleEvent` does. -/
def copyLoop : List AggVC → World → Option (World × List AggVC)
  | [], w => some (w, [])
  | c :: q, w =>
    if w.Fits c then do
      let w ← if c.evacuator then handle (w.place c) c else some (w.place c)
      copyLoop q w
    else some (w, c :: q)

/-- From "evacuate space" on: the write is issued unless evacuation has to finish first
(`evacReady`) or the buffer can wait for more. -/
def aggIssue (evacReady syncWaiting : Bool) (q : List AggVC) (w : World) : World :=
  if !evacReady then w
  else if w.part.aggBufPos < aggHighWater ∧ q.isEmpty ∧ !syncWaiting then w
  else w.issue

/-- `aggWrite`, from `Lagain`. The result has what is left of the queue. -/
def aggWrite (evacReady syncWaiting : Bool) :
    Nat → List AggVC → World → Option (World × List AggVC)
  | 0, _, _ => none
  | n + 1, q, w => do
    let (w, q) ← copyLoop handle q w
    if w.part.aggBufPos = 0 then
      if q.isEmpty then return (w, q)
      if w.part.header.writePos = w.part.start then return (w, [])
      let w ← w.wrap
      aggWrite evacReady syncWaiting n q w
    else return (aggIssue evacReady syncWaiting q w, q)

end AggWrite

end World

end TrafficServer
