import Mathlib.Logic.Function.Basic
import Mathlib.Data.List.FinRange
import TrafficServer.Lib.Linked

/-!
# I/O buffers

A `MIOBuffer` writes to a chain of `IOBufferBlock`s, and its readers go along the chain at their own
pace. A block is the use of a part of the memory of an `IOBufferData`, which other blocks may use too.
Blocks and data are known by numbers that stand for their addresses; positions in the memory of a
data are relative to its first byte.

A loop along `next` runs over the list of the blocks from a pointer on (`IOHeap.blocksFrom`). The
functions are partial: `none` stands for a loop that does not end or the use of a null pointer.
-/

namespace TrafficServer

open Function

/-- `IOBufferBlock`; the positions are `_start`, `_end` and `_buf_end`. -/
structure IOBufferBlock where
  data : Nat
  start : Int
  endPos : Int
  bufEnd : Int
  next : Option Nat

namespace IOBufferBlock

variable (b : IOBufferBlock)

def readAvail : Int := b.endPos - b.start

def writeAvail : Int := b.bufEnd - b.endPos

/-- The clone that `MIOBuffer::write` makes of a part of the block: it has no room, since the room
stays with the original. -/
def clonePart (offset bytes : Int) : IOBufferBlock where
  data := b.data
  start := b.start + offset
  endPos := b.start + offset + bytes
  bufEnd := b.start + offset + bytes
  next := none

end IOBufferBlock

/-- The blocks and the memory of the data, numbered in the order of their allocation. -/
structure IOHeap where
  block : Nat → IOBufferBlock
  nextBlock : Nat
  byte : Nat → Int → UInt8
  nextData : Nat

def ink64Max : Int := 2 ^ 63 - 1

/-- `IOBufferReader`; it is allocated if its `mbuf` is set. -/
structure IOBufferReader where
  allocated : Bool
  block : Option Nat
  startOffset : Int
  sizeLimit : Int

namespace IOHeap

variable (h : IOHeap)

def next (b : Nat) : Option Nat := (h.block b).next

def blocksFrom (b : Option Nat) : Option (List Nat) := Linked.follow h.next h.nextBlock b

def bytesAt (data : Nat) (p n : Int) : List UInt8 :=
  (List.range n.toNat).map fun i : Nat => h.byte data (p + i)

/-! ### Readers -/

def readAvail (r : IOBufferReader) : Option Int := do
  let bs ← h.blocksFrom r.block
  let t := (bs.map fun b => (h.block b).readAvail).sum - r.startOffset
  if r.sizeLimit ≠ ink64Max ∧ t > r.sizeLimit then some r.sizeLimit else some t

/-- The loop of `skip_empty_blocks` and of `consume`: the blocks that are left, and the offset in the
first of them. -/
def skipLoop : List Nat → Int → List Nat × Int
  | b :: n :: bs, s =>
    if (h.block n).readAvail ≠ 0 ∧ (h.block b).readAvail ≤ s then
      skipLoop (n :: bs) (s - (h.block b).readAvail)
    else (b :: n :: bs, s)
  | bs, s => (bs, s)

def skipEmptyBlocks (r : IOBufferReader) : Option IOBufferReader := do
  let bs ← h.blocksFrom r.block
  let p := h.skipLoop bs r.startOffset
  some { r with block := p.1.head?, startOffset := p.2 }

def consume (r : IOBufferReader) (n : Int) : Option IOBufferReader :=
  h.skipEmptyBlocks
    { r with
      startOffset := r.startOffset + n
      sizeLimit := if r.sizeLimit ≠ ink64Max then r.sizeLimit - n else r.sizeLimit }

/-- The bytes from `start` to `end` of the block that `skip_empty_blocks` leaves; `block_read_avail`
is their number. -/
def blockBytes (r : IOBufferReader) : Option (IOBufferReader × List UInt8) := do
  let r ← h.skipEmptyBlocks r
  let b ← r.block
  let p := (h.block b).start + r.startOffset
  some (r, h.bytesAt (h.block b).data p ((h.block b).endPos - p))

def readLoop : Nat → IOBufferReader → Nat → List UInt8 → Option (IOBufferReader × List UInt8)
  | _, r, 0, out => some (r, out)
  | 0, _, _ + 1, _ => none
  | fuel + 1, r, n + 1, out => do
    let (r, bytes) ← h.blockBytes r
    let part := bytes.take (n + 1)
    let r ← h.consume r part.length
    readLoop fuel r (n + 1 - part.length) (out ++ part)

def read (r : IOBufferReader) (len : Nat) : Option (IOBufferReader × List UInt8) := do
  let maxBytes ← h.readAvail r
  let bytes := min len maxBytes.toNat
  h.readLoop bytes r bytes []

/-- The number of bytes that a scan takes of a block, of `maxBytes`. A negative `len` is no limit. -/
def scanBytes (len maxBytes : Int) : Int := if len < 0 ∨ maxBytes ≤ len then maxBytes else len

def memchrLoop (startOffset : Int) (c : UInt8) : List Nat → Int → Int → Int → Int
  | [], _, _, _ => -1
  | b :: bs, len, offset, o =>
    if len = 0 then -1
    else
      let maxBytes := (h.block b).readAvail - offset
      if maxBytes ≤ 0 then memchrLoop startOffset c bs len (-maxBytes) o
      else
        let bytes := scanBytes len maxBytes
        match (h.bytesAt (h.block b).data ((h.block b).start + offset) bytes).idxOf? c with
        | some i => o - startOffset + i
        | none => memchrLoop startOffset c bs (len - bytes) 0 (o + bytes)

def memchr (r : IOBufferReader) (c : UInt8) (len offset : Int) : Option Int := do
  let bs ← h.blocksFrom r.block
  some (h.memchrLoop r.startOffset c bs len (offset + r.startOffset) (offset + r.startOffset))

def memcpyLoop : List Nat → Int → Int → List UInt8
  | [], _, _ => []
  | b :: bs, len, offset =>
    if len = 0 then []
    else
      let maxBytes := (h.block b).readAvail - offset
      if maxBytes ≤ 0 then memcpyLoop bs len (-maxBytes)
      else
        let bytes := scanBytes len maxBytes
        h.bytesAt (h.block b).data ((h.block b).start + offset) bytes ++
          memcpyLoop bs (len - bytes) 0

def memcpy (r : IOBufferReader) (len offset : Int) : Option (List UInt8) := do
  let bs ← h.blocksFrom r.block
  some (h.memcpyLoop bs len (offset + r.startOffset))

def indexLoop : List Nat → Int → Option UInt8
  | [], _ => none
  | b :: bs, i =>
    let bytes := (h.block b).readAvail
    if bytes > i then some (h.byte (h.block b).data ((h.block b).start + i))
    else indexLoop bs (i - bytes)

/-- `operator[]`; out of range there is no character. -/
def index (r : IOBufferReader) (i : Int) : Option UInt8 := do
  let bs ← h.blocksFrom r.block
  h.indexLoop bs (i + r.startOffset)

end IOHeap

/-! ### Buffers -/

def defaultBufferSizes : Int := 10

/-- `index_to_buffer_size` for an index of `BUFFER_SIZE_ALLOCATED`. -/
def indexToBufferSize (idx : Int) : Int := if idx < 0 then -idx else 128 * 2 ^ idx.toNat

abbrev maxMIOBufferReaders : Nat := 5

/-- `MIOBuffer`; blocks of its `size_index` can be allocated. -/
structure MIOBuffer where
  writer : Option Nat
  sizeIndex : Int
  sizeAllocated : sizeIndex < defaultBufferSizes
  waterMark : Int
  reader : Fin maxMIOBufferReaders → IOBufferReader

namespace MIOBuffer

variable (m : MIOBuffer)

def initReaders : MIOBuffer :=
  { m with
    reader := fun j =>
      if (m.reader j).allocated ∧ (m.reader j).block = none then
        { m.reader j with block := m.writer }
      else m.reader j }

/-- The first reader that is not allocated; without one the program stops. -/
def freeReader : Option (Fin maxMIOBufferReaders) :=
  (List.finRange maxMIOBufferReaders).find? fun j => !(m.reader j).allocated

def allocReader : Option (MIOBuffer × Fin maxMIOBufferReaders) := do
  let j ← m.freeReader
  some ({ m with reader := update m.reader j ⟨true, m.writer, 0, ink64Max⟩ }, j)

def cloneReader (r : IOBufferReader) : Option (MIOBuffer × Fin maxMIOBufferReaders) := do
  let j ← m.freeReader
  some
    ({ m with
        reader := update m.reader j ⟨true, r.block, r.startOffset, r.sizeLimit⟩ }, j)

end MIOBuffer

namespace IOHeap

variable (h : IOHeap) (m : MIOBuffer)

def newBlock (b : IOBufferBlock) : IOHeap :=
  { h with block := update h.block h.nextBlock b, nextBlock := h.nextBlock + 1 }

def setNext (w b : Nat) : IOHeap :=
  { h with block := update h.block w { h.block w with next := some b } }

def appendLoop : List Nat → Nat → Nat
  | [], w => w
  | b :: bs, w => if (h.block b).readAvail ≠ 0 then appendLoop bs b else w

def settleLoop : List Nat → Option Nat
  | w :: n :: bs =>
    if (h.block w).writeAvail = 0 ∧ (h.block n).readAvail ≠ 0 then settleLoop (n :: bs) else some w
  | bs => bs.head?

def settle : Option (IOHeap × MIOBuffer) := do
  let bs ← h.blocksFrom m.writer
  some (h, { m with writer := h.settleLoop bs })

def appendBlockInternal (b : Nat) : Option (IOHeap × MIOBuffer) :=
  match m.writer with
  | none => h.settle ({ m with writer := some b } : MIOBuffer).initReaders
  | some w => do
    let bs ← (h.setNext w b).blocksFrom (some b)
    (h.setNext w b).settle { m with writer := some ((h.setNext w b).appendLoop bs w) }

def appendBlock (b : IOBufferBlock) : Option (IOHeap × MIOBuffer) :=
  (h.newBlock b).appendBlockInternal m h.nextBlock

/-- `add_block`: an empty block with data of its own. On a buffer without blocks this is also what
`MIOBuffer::alloc` does. -/
def addBlock : Option (IOHeap × MIOBuffer) :=
  ({ h with nextData := h.nextData + 1 } : IOHeap).appendBlock m
    ⟨h.nextData, 0, 0, indexToBufferSize m.sizeIndex, none⟩

def allocatedReaders : List IOBufferReader :=
  ((List.finRange maxMIOBufferReaders).map m.reader).filter (·.allocated)

def maxReadAvail : Option Int :=
  if allocatedReaders m = [] then
    match m.writer with
    | some w => some (h.block w).readAvail
    | none => some 0
  else do
    let avails ← (allocatedReaders m).mapM h.readAvail
    some (avails.foldl max 0)

def currentWriteAvail : Option Int := do
  let bs ← h.blocksFrom m.writer
  some (bs.map fun b => (h.block b).writeAvail).sum

def checkAddBlock : Option (IOHeap × MIOBuffer) := do
  let s ← h.maxReadAvail m
  let t ← h.currentWriteAvail m
  if ¬s > m.waterMark ∧ t ≤ m.waterMark then h.addBlock m else some (h, m)

def fillBlock (w : Nat) (len : Int) : IOHeap :=
  { h with block := update h.block w { h.block w with endPos := (h.block w).endPos + len } }

def store (data : Nat) (p : Int) (buf : List UInt8) : IOHeap :=
  { h with
    byte := fun d i =>
      if d = data ∧ p ≤ i ∧ i < p + buf.length then buf.getD (i - p).toNat 0 else h.byte d i }

/-- The part of `write` that copies to the writer's block as much as it has room for. -/
def copyToWriter (w : Nat) (buf : List UInt8) : IOHeap × List UInt8 :=
  let f := min (h.block w).writeAvail buf.length
  if f > 0 then
    ((h.store (h.block w).data (h.block w).endPos (buf.take f.toNat)).fillBlock w f,
      buf.drop f.toNat)
  else (h, buf)

def writeLoop : Nat → IOHeap → MIOBuffer → List UInt8 → Option (IOHeap × MIOBuffer)
  | _, h, m, [] => some (h, m)
  | 0, _, _, _ :: _ => none
  | fuel + 1, h, m, x :: xs =>
    match m.writer with
    | none => do
      let (h, m) ← h.addBlock m
      writeLoop fuel h m (x :: xs)
    | some w =>
      match h.copyToWriter w (x :: xs) with
      | (h, []) => some (h, m)
      | (h, buf) =>
        match h.next w with
        | none => do
          let (h, m) ← h.addBlock m
          writeLoop fuel h m buf
        | some n => writeLoop fuel h { m with writer := some n } buf

/-- `write` of bytes. A byte takes two rounds at most, one that goes to a new block and one that
copies; the first block may take one more. -/
def write (buf : List UInt8) : Option (IOHeap × MIOBuffer) := writeLoop (2 * buf.length + 1) h m buf

def fillLoop : IOHeap → List Nat → Int → Option (IOHeap × Nat)
  | _, [], _ => none
  | h, w :: bs, len =>
    let f := (h.block w).writeAvail
    if f < len then fillLoop (h.fillBlock w f) bs (len - f) else some (h.fillBlock w len, w)

def fill (len : Int) : Option (IOHeap × MIOBuffer) := do
  let bs ← h.blocksFrom m.writer
  let (h, w) ← fillLoop h bs len
  some (h, { m with writer := some w })

/-- The loop of `write` from a reader: what is left of `len` at the end. -/
def writeReaderLoop : Nat → IOHeap → MIOBuffer → Option Nat → Int → Int →
    Option (IOHeap × MIOBuffer × Int)
  | _, h, m, none, len, _ => some (h, m, len)
  | 0, _, _, some _, _, _ => none
  | fuel + 1, h, m, some b, len, offset =>
    if len ≤ 0 then some (h, m, len)
    else
      let maxBytes := (h.block b).readAvail - offset
      if maxBytes ≤ 0 then writeReaderLoop fuel h m (h.next b) len (-maxBytes)
      else do
        let bytes := scanBytes len maxBytes
        let (h, m) ← h.appendBlock m ((h.block b).clonePart offset bytes)
        writeReaderLoop fuel h m (h.next b) (len - bytes) 0

/-- `write` from a reader, perhaps of another buffer: the number of bytes added. -/
def writeReader (r : IOBufferReader) (alen offset : Int) : Option (IOHeap × MIOBuffer × Int) := do
  let (h, m, len) ←
    writeReaderLoop (h.nextBlock + alen.toNat + 1) h m r.block alen (offset + r.startOffset)
  some (h, m, alen - len)

end IOHeap

end TrafficServer
