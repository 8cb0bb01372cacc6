import TrafficServer.Lib.CInt

/-!
# The partition table of a disk

`CacheDisk` divides the usable blocks of a disk among partitions. The header has a table of blocks,
each free or used by the partition with its number; in memory a queue for every partition and one
for the free blocks lists them, with their number and total length. A queue is modelled by the
indices of its blocks in the table.
-/

namespace TrafficServer

open CInt (toInt32)

def storeBlockSize : Nat := 8192

/-- `PART_BLOCK_SIZE / STORE_BLOCK_SIZE`: partitions are made of 128 megabytes. -/
def blocksPerPart : Nat := 16384

def maxBlocks : Int := 2 ^ 36

/-- `DiskPartBlock`: `len` is a field of 26 bits, `type` of 3, and `number` an `unsigned short`. -/
structure DiskPartBlock where
  offset : Int
  number : Nat
  len : Nat
  type : Nat
  free : Bool

structure DiskPart where
  numPartblocks : Int
  partNumber : Int
  size : Int
  dpbQueue : List Nat

/-- `CacheDisk`, with the fields of its header. The arrays `part_info` and `disk_parts` have been
allocated with the given numbers of entries; `diskParts` are the `num_partitions` first of the
latter. -/
structure CacheDisk where
  start : Int
  numUsableBlocks : Nat
  partInfoLen : Nat
  diskPartsLen : Nat
  partInfo : Nat → DiskPartBlock
  numDiskpartBlks : Nat
  numFree : Int
  numUsed : Int
  diskParts : List DiskPart
  freeBlocks : DiskPart
  freeSpace : Int
  wastedSpace : Int

/-- The queue of partition `number` gets block `b`; a new partition goes to the end. -/
def addToPart (number : Int) (b len : Nat) : List DiskPart → List DiskPart
  | [] => [⟨1, number, len, [b]⟩]
  | p :: ps =>
    if p.partNumber = number then
      { p with
        dpbQueue := p.dpbQueue ++ [b]
        numPartblocks := p.numPartblocks + 1
        size := p.size + len } :: ps
    else p :: addToPart number b len ps

namespace CacheDisk
variable (d : CacheDisk)

/-- The block with the greatest length so far, when no block is large enough. -/
def closestMatch : Nat → List Nat → Nat
  | c, [] => c
  | c, q :: qs => closestMatch (if (d.partInfo c).len < (d.partInfo q).len then q else c) qs

def splitBlock (q : Nat) (size : Int) : CacheDisk :=
  let p := d.partInfo q
  let dpb := { p with
    len := ((p.len - size) % 2 ^ 26).toNat
    offset := p.offset + size * storeBlockSize }
  { d with
    partInfo := Function.update d.partInfo d.numDiskpartBlks dpb
    freeBlocks := { d.freeBlocks with
      dpbQueue := d.freeBlocks.dpbQueue ++ [d.numDiskpartBlks]
      size := d.freeBlocks.size + dpb.len }
    freeSpace := d.freeSpace + dpb.len
    numDiskpartBlks := d.numDiskpartBlks + 1 }

def takeBlock (q : Nat) : CacheDisk :=
  { d with
    freeBlocks := { d.freeBlocks with
      dpbQueue := d.freeBlocks.dpbQueue.erase q
      size := d.freeBlocks.size - (d.partInfo q).len }
    freeSpace := d.freeSpace - (d.partInfo q).len }

def useBlock (q : Nat) (number size scheme : Int) : CacheDisk :=
  let p := { d.partInfo q with
    len := (size % 2 ^ 26).toNat
    free := false
    number := (number % 2 ^ 16).toNat
    type := (scheme % 2 ^ 3).toNat }
  { d with
    partInfo := Function.update d.partInfo q p
    numUsed := d.numUsed + 1
    diskParts := addToPart number q p.len d.diskParts }

def allocate (q : Nat) (number size scheme : Int) : CacheDisk :=
  let newSize := toInt32 ((d.partInfo q).len - size)
  let d := d.takeBlock q
  let d :=
    if newSize ≥ blocksPerPart then d.splitBlock q size else { d with numFree := d.numFree - 1 }
  d.useBlock q number size scheme

/-- The search for a block that is large enough, with its conversion to `unsigned int`. -/
def findBlock (size : Int) : Option Nat :=
  d.freeBlocks.dpbQueue.find? fun q => decide (((d.partInfo q).len : Int) ≥ size % 2 ^ 32)

/-- `create_partition`; the result is the index of the block or `none` for the null pointer. -/
def createPartition (number size scheme : Int) : CacheDisk × Option Nat :=
  if size = 0 then (d, none)
  else
    match d.freeBlocks.dpbQueue with
    | [] => (d, none)
    | head :: _ =>
      let size := if size ≤ maxBlocks then size else maxBlocks
      match d.findBlock size with
      | some q => (d.allocate q number size scheme, some q)
      | none =>
        -- the remaining space is thrown away
        let q := d.closestMatch head d.freeBlocks.dpbQueue
        let len := (d.partInfo q).len
        (({ d with wastedSpace := d.wastedSpace + (len % blocksPerPart : Nat) } : CacheDisk).allocate q
          number (len - len % blocksPerPart : Nat) scheme, some q)

def freeBlock (b : Nat) : CacheDisk :=
  { d with
    partInfo := Function.update d.partInfo b { d.partInfo b with type := 0, free := true }
    freeSpace := d.freeSpace + (d.partInfo b).len
    numFree := d.numFree + 1
    numUsed := d.numUsed - 1
    freeBlocks := { d.freeBlocks with dpbQueue := d.freeBlocks.dpbQueue ++ [b] } }

def deletePartition (number : Int) : CacheDisk × Int :=
  match d.diskParts.find? fun p => p.partNumber = number with
  | none => (d, -1)
  | some p =>
    let d := p.dpbQueue.foldl freeBlock d
    ({ d with
        freeBlocks := { d.freeBlocks with
          numPartblocks := d.freeBlocks.numPartblocks + p.numPartblocks
          size := d.freeBlocks.size + p.size }
        diskParts := d.diskParts.eraseP fun p => p.partNumber = number }, 0)

def updateEntry (i : Nat) : CacheDisk :=
  let b := d.partInfo i
  if b.free then
    { d with
      freeBlocks := { d.freeBlocks with
        numPartblocks := d.freeBlocks.numPartblocks + 1
        size := d.freeBlocks.size + b.len
        dpbQueue := d.freeBlocks.dpbQueue ++ [i] }
      freeSpace := d.freeSpace + b.len }
  else { d with diskParts := addToPart b.number i b.len d.diskParts }

def updateHeader : CacheDisk :=
  (List.range d.numDiskpartBlks).foldl updateEntry
    { d with freeBlocks := ⟨0, -1, 0, []⟩, freeSpace := 0, diskParts := [] }

def deleteAllPartitions : CacheDisk :=
  ({ d with
      partInfo := Function.update d.partInfo 0 { d.partInfo 0 with
        offset := d.start
        len := d.numUsableBlocks % 2 ^ 26
        type := 0
        free := true }
      numUsed := 0
      numFree := 1
      numDiskpartBlks := 1
      diskParts := [] } : CacheDisk).updateHeader

end CacheDisk

end TrafficServer
