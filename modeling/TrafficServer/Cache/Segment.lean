import TrafficServer.Cache.Dir

/-!
# Operations on one directory segment

The segment functions of `CacheDir.cc`. A segment is an array of slots, `dirDepth` rows for each of
its buckets; a `Dir*` into it is a slot number, and the null pointer is `none`. The link fields
hold slot numbers too, with `0` for null: slot `0` heads bucket `0` and is never linked to.

`valid` stands for `dir_valid(part, ·)`: no operation here changes the header fields it reads. The
loops over a chain take fuel, one more than the number of slots, and give `none` when it runs out;
`Cache.Delete` shows that it does not on a segment with a layout. The second pass of `dirProbe` may
see a slot twice, so its loop has fuel for that. The retry loop of `dirInsert` and `dirOverwrite`
takes its fuel from the caller.
-/

namespace TrafficServer

/-- One segment: its slots, `header->freelist[s]` and `header->dirty`. -/
structure Segment where
  dir : Nat → Dir
  freelist : BitVec 16
  dirty : Bool

def dirFromOffset (i : Nat) : Option Nat := if i = 0 then none else some i

def dirBucket (b : Nat) : Nat := b * dirDepth

def dirBucketRow (b l : Nat) : Nat := b + l

namespace Segment

def set (sg : Segment) (i : Nat) (e : Dir) : Segment :=
  { sg with dir := Function.update sg.dir i e }

def setNext (sg : Segment) (i o : Nat) : Segment := sg.set i (dirSetNext (sg.dir i) o)

def setPrev (sg : Segment) (i o : Nat) : Segment := sg.set i (dirSetPrev (sg.dir i) o)

def nextDir (sg : Segment) (e : Nat) : Option Nat := dirFromOffset (dirNext (sg.dir e))

def prevDir (sg : Segment) (e : Nat) : Option Nat := dirFromOffset (dirPrev (sg.dir e))

/-! ### The freelist -/

def setPrevAt (sg : Segment) : Option Nat → Nat → Segment
  | some n, o => sg.setPrev n o
  | none, _ => sg

/-- The first half of `unlink_from_freelist`: the predecessor of `e`, or the list's head, gets its
successor. -/
def skipFree (sg : Segment) (e : Nat) : Segment :=
  match sg.prevDir e with
  | some p => sg.setNext p (dirNext (sg.dir e))
  | none => { sg with freelist := (sg.dir e).w3 }

def unlinkFromFreelist (sg : Segment) (e : Nat) : Segment :=
  (sg.skipFree e).setPrevAt ((sg.skipFree e).nextDir e) (dirPrev ((sg.skipFree e).dir e))

/-- The common tail of `dir_free_entry` and `dir_delete_entry`: `e` becomes the first free entry. -/
def pushFree (sg : Segment) (e : Nat) : Segment :=
  { (sg.setNext e sg.freelist.toNat).setPrevAt (dirFromOffset sg.freelist.toNat) e with
    freelist := BitVec.ofNat 16 e }

def dirFreeEntry (sg : Segment) (e : Nat) : Segment := sg.pushFree e

/-- The loops of `part_init_dir` for one segment: every slot behind a bucket head is freed, row by
row. -/
def freeRows (buckets : Nat) (sg : Segment) : Segment :=
  (List.range' 1 (dirDepth - 1)).foldl (fun sg l =>
    (List.range buckets).foldl (fun sg b => sg.dirFreeEntry (dirBucketRow (dirBucket b) l)) sg)
    { sg with freelist := 0 }

def dirInitSegment (buckets : Nat) (sg : Segment) : Segment :=
  { sg with dir := fun _ => dirClear }.freeRows buckets

/-! ### Deleting -/

def dirDeleteNext (sg : Segment) (e p : Nat) : Segment × Option Nat :=
  let no := dirNext (sg.dir e)
  let sg₁ := ({ sg with dirty := true }.set e dirClear).setNext p no
  (sg₁.pushFree e, dirFromOffset no)

/-- `dir_delete_entry`: a bucket head is overwritten by its successor, which is deleted instead. -/
def dirDeleteEntry (sg : Segment) (e : Nat) : Option Nat → Segment × Option Nat
  | some p => sg.dirDeleteNext e p
  | none =>
    match sg.nextDir e with
    | some n => ((({ sg with dirty := true }.set e (sg.dir n)).dirDeleteNext n e).1, some e)
    | none => ({ sg with dirty := true }.set e dirClear, none)

/-- The loop of `dir_clean_bucket`, at the entry `e` with predecessor `p`. -/
def cleanLoop (valid : Dir → Bool) : Nat → Segment → Nat → Option Nat → Option Segment
  | 0, _, _, _ => none
  | n + 1, sg, e, p =>
    if !valid (sg.dir e) || dirIsEmpty (sg.dir e) then
      match sg.dirDeleteEntry e p with
      | (sg, some e) => cleanLoop valid n sg e p
      | (sg, none) => some sg
    else
      match sg.nextDir e with
      | some e' => cleanLoop valid n sg e' (some e)
      | none => some sg

def dirCleanBucket (valid : Dir → Bool) (buckets : Nat) (sg : Segment) (b : Nat) : Option Segment :=
  cleanLoop valid (dirDepth * buckets + 1) sg b none

def dirCleanSegment (valid : Dir → Bool) (buckets : Nat) (sg : Segment) : Option Segment :=
  (List.range buckets).foldlM (fun sg i => sg.dirCleanBucket valid buckets (dirBucket i)) sg

/-- The body of the inner loops of `freelist_clean`; the counter `n` goes through the head
entries. -/
def purgeHead (st : Segment × Nat) (e : Nat) : Segment × Nat :=
  if dirHead (st.1.dir e) then
    (if st.2 % 10 = 0 then st.1.set e (dirSetOffset (st.1.dir e) 0) else st.1, st.2 + 1)
  else st

/-- The inner loops of `freelist_clean`: every tenth head entry loses its offset. -/
def purgeHeads (buckets : Nat) (sg : Segment) : Segment :=
  ((List.range buckets).foldl (fun st bi =>
    (List.range dirDepth).foldl (fun st l => purgeHead st (dirBucketRow (dirBucket bi) l)) st)
    (sg, 0)).1

def freelistClean (valid : Dir → Bool) (buckets : Nat) (sg : Segment) : Option Segment := do
  let sg ← sg.dirCleanSegment valid buckets
  if sg.freelist ≠ 0 then return sg
  (purgeHeads buckets sg).dirCleanSegment valid buckets

/-- `freelist_pop`: the popped entry, or `none` when the freelist was empty (and has been cleaned)
or bad (and the segment has been reinitialised). -/
def freelistPop (valid : Dir → Bool) (buckets : Nat) (sg : Segment) :
    Option (Segment × Option Nat) :=
  match dirFromOffset sg.freelist.toNat with
  | none => do
    let sg ← sg.freelistClean valid buckets
    return (sg, none)
  | some e =>
    let sg₁ := { sg with freelist := (sg.dir e).w3 }
    if dirIsEmpty (sg₁.dir e) then
      some (sg₁.setPrevAt (dirFromOffset sg₁.freelist.toNat) 0, some e)
    else some (sg₁.dirInitSegment buckets, none)

/-! ### Inserting and overwriting

`b` is the slot of the bucket head; `tag` is `key->word(2)`. -/

/-- `Llink`: `e` becomes the second entry of the bucket. -/
def linkEntry (sg : Segment) (b e : Nat) : Segment :=
  (sg.setNext e (dirNext (sg.dir b))).setNext b e

def fillEntry (sg : Segment) (e : Nat) (toPart : Dir) (tag : Nat) : Segment :=
  { sg.set e (dirSetTag (dirAssignData (sg.dir e) toPart) tag) with dirty := true }

/-- The first empty entry of the bucket's row behind its head. -/
def rowSlot (sg : Segment) (b : Nat) : Option Nat :=
  ((List.range' 1 (dirDepth - 1)).map (dirBucketRow b)).find? fun e => dirIsEmpty (sg.dir e)

/-- From "get from this row first" to `Lfill`: a slot of the bucket's chain to fill, or `none` to
go back to `Lagain`. -/
def takeSlot (valid : Dir → Bool) (buckets : Nat) (sg : Segment) (b : Nat) :
    Option (Segment × Option Nat) :=
  if dirIsEmpty (sg.dir b) then some (sg, some b)
  else
    match sg.rowSlot b with
    | some e => some ((sg.unlinkFromFreelist e).linkEntry b e, some e)
    | none => do
      match ← sg.freelistPop valid buckets with
      | (sg, some e) => return (sg.linkEntry b e, some e)
      | (sg, none) => return (sg, none)

def dirInsert (valid : Dir → Bool) (buckets : Nat) (b tag : Nat) (toPart : Dir) :
    Nat → Segment → Option Segment
  | 0, _ => none
  | n + 1, sg => do
    match ← sg.takeSlot valid buckets b with
    | (sg, some e) => return sg.fillEntry e toPart tag
    | (sg, none) => dirInsert valid buckets b tag toPart n sg

def findLoop (tag offset : Nat) : Nat → Segment → Nat → Option (Option Nat)
  | 0, _, _ => none
  | n + 1, sg, e =>
    if dirTag (sg.dir e) = tag ∧ dirOffset (sg.dir e) = offset then some (some e)
    else
      match sg.nextDir e with
      | some e' => findLoop tag offset n sg e'
      | none => some none

def findEntry (buckets : Nat) (sg : Segment) (b tag offset : Nat) : Option (Option Nat) :=
  if dirIsEmpty (sg.dir b) then some none
  else findLoop tag offset (dirDepth * buckets + 1) sg b

/-- `dir_overwrite`. The result code is `1` when an entry was overwritten at the first search;
`res` stays `0` once the search has failed. -/
def dirOverwriteLoop (valid : Dir → Bool) (buckets : Nat) (b tag : Nat) (dir overwrite : Dir)
    (mustOverwrite : Bool) : Nat → Nat → Segment → Option (Segment × Nat)
  | 0, _, _ => none
  | n + 1, res, sg => do
    match ← sg.findEntry buckets b (dirMaskTag tag) (dirOffset overwrite) with
    | some e => return (sg.fillEntry e dir (dirMaskTag tag), res)
    | none =>
      if mustOverwrite then return (sg, 0)
      match ← sg.takeSlot valid buckets b with
      | (sg, some e) => return (sg.fillEntry e dir (dirMaskTag tag), 0)
      | (sg, none) => dirOverwriteLoop valid buckets b tag dir overwrite mustOverwrite n 0 sg

def dirOverwrite (valid : Dir → Bool) (buckets : Nat) (b tag : Nat) (dir overwrite : Dir)
    (mustOverwrite : Bool) (fuel : Nat) (sg : Segment) : Option (Segment × Nat) :=
  dirOverwriteLoop valid buckets b tag dir overwrite mustOverwrite fuel 1 sg

/-- The loop of `dir_delete`, at the entry `e` with predecessor `p`. -/
def deleteLoop (tag offset : Nat) : Nat → Segment → Nat → Option Nat → Option (Segment × Nat)
  | 0, _, _, _ => none
  | n + 1, sg, e, p =>
    if dirTag (sg.dir e) = tag ∧ dirOffset (sg.dir e) = offset then
      some ((sg.dirDeleteEntry e p).1, 1)
    else
      match sg.nextDir e with
      | some e' => deleteLoop tag offset n sg e' (some e)
      | none => some (sg, 0)

def dirDelete (buckets : Nat) (b tag : Nat) (del : Dir) (sg : Segment) : Option (Segment × Nat) :=
  if dirIsEmpty (sg.dir b) then some (sg, 0)
  else deleteLoop (dirMaskTag tag) (dirOffset del) (dirDepth * buckets + 1) sg b none

/-! ### Probing

A collision pointer is the number of an entry in the whole directory (`dir_index`); `base` is the
number of the segment's slot `0`. -/

/-- The loop of `dir_probe`: the entry hit, if any, the predecessor `p` at the end and what is left
of the collision. -/
def probeLoop (valid : Dir → Bool) (base tag : Nat) :
    Nat → Segment → Nat → Option Nat → Option Nat →
      Option (Segment × Option Nat × Option Nat × Option Nat)
  | 0, _, _, _, _ => none
  | n + 1, sg, e, p, collision =>
    if dirTag (sg.dir e) = tag ∧ collision = none then
      if valid (sg.dir e) then some (sg, some e, p, none)
      else
        match sg.dirDeleteEntry e p with
        | (sg, some e) => probeLoop valid base tag n sg e p none
        | (sg, none) => some (sg, none, p, none)
    else
      -- only a matching tag can use the collision up
      let collision := if dirTag (sg.dir e) = tag ∧ collision = some (base + e) then none
        else collision
      match sg.nextDir e with
      | some e' => probeLoop valid base tag n sg e' (some e) collision
      | none => some (sg, none, some e, collision)

def probePass (valid : Dir → Bool) (buckets base b tag : Nat) (sg : Segment) (p collision : Option Nat) :
    Option (Segment × Option Nat × Option Nat × Option Nat) :=
  if dirIsEmpty (sg.dir b) then some (sg, none, p, collision)
  else probeLoop valid base tag (2 * (dirDepth * buckets) + 1) sg b p collision

/-- `dir_probe`: the slot of the entry found, or `none` for a miss. A collision that is no longer in
the chain makes it start again, once. -/
def dirProbe (valid : Dir → Bool) (buckets base b tag : Nat) (lastCollision : Option Nat)
    (sg : Segment) : Option (Segment × Option Nat) := do
  match ← sg.probePass valid buckets base b (dirMaskTag tag) none lastCollision with
  | (sg, none, p, some _) =>
    -- `p` is only set to null before `Lagain`: here it is the last entry of the chain
    let (sg, hit, _) ← sg.probePass valid buckets base b (dirMaskTag tag) p none
    return (sg, hit)
  | (sg, hit, _) => return (sg, hit)

end Segment

end TrafficServer
