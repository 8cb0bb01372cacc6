import TrafficServer.Hdrs.MIMECooked

/-!
# The chunked handler

`ChunkedHandler` of the tunnel takes a chunked message apart. It reads blocks of bytes; what the reader
has left is a list of blocks that are not empty. The sizes are of type `int`. How far the consumers are
behind, which decides on flow control, is any function of the handler.
-/

namespace TrafficServer

open ParseRules CInt

inductive ChunkedState where
  | readChunk
  | readSizeStart
  | readSize
  | readSizeCrlf
  | readTrailerBlank
  | readTrailerCr
  | readTrailerLine
  | readError
  | readDone
  | writeChunk
  | writeDone
  | flowControl
deriving DecidableEq

/-- The events of a producer that the tunnel translates, and the others. -/
inductive TunnelEvent where
  | none
  | readReady
  | readComplete
  | precomplete
  | eos
  | other
deriving DecidableEq

structure ChunkedHandler where
  /-- The blocks that are left to read. -/
  chunkedReader : List Bytes := []
  /-- The bytes written; without a buffer the message is passed through. -/
  dechunkedBuffer : Option Bytes
  dechunkedSize : Int := 0
  truncation : Bool := false
  state : ChunkedState
  curChunkSize : Int := 0
  bytesLeft : Int := 0
  lastServerEvent : TunnelEvent := .none
  runningSum : Int := 0
  numDigits : Int := 0
deriving DecidableEq

namespace ChunkedHandler

def maxChunkedAheadBytes : Nat := 2 ^ 15

def maxChunkedAheadBlocks : Nat := 128

def minBlockTransferBytes : Int := 256

/-- `init` of a producer that dechunks, in the state that `set_producer_chunking_action` sets. -/
def new : ChunkedHandler := { dechunkedBuffer := some [], state := .readSize }

def unread (h : ChunkedHandler) : Bytes := h.chunkedReader.flatten

def consumeBlocks : List Bytes → Nat → List Bytes
  | [], _ => []
  | b :: bs, n => if n < b.length then b.drop n :: bs else consumeBlocks bs (n - b.length)

def consume (h : ChunkedHandler) (n : Nat) : ChunkedHandler :=
  { h with chunkedReader := consumeBlocks h.chunkedReader n }

def hexDigit (c : UInt8) : Nat :=
  if MIMECooked.isDigit c then c.toNat - 48 else (inkTolower c).toNat - 97 + 10

/-! ### `read_size` -/

def readSizeByte (h : ChunkedHandler) (c : UInt8) : ChunkedHandler × Bool :=
  match h.state with
  | .readSize =>
    if isHex c then
      ({ h with
          numDigits := toInt32 (h.numDigits + 1)
          runningSum := toInt32 (toInt32 (h.runningSum * 16) + hexDigit c) }, false)
    else if h.numDigits = 0 ∨ h.runningSum < 0 then ({ h with state := .readError }, true)
    else ({ h with state := .readSizeCrlf }, false)
  | .readSizeCrlf =>
    if c = charLF then
      ({ h with
          bytesLeft := h.runningSum
          curChunkSize := h.runningSum
          state := if h.runningSum = 0 then .readTrailerBlank else .readChunk }, true)
    else (h, false)
  | .readSizeStart =>
    if c = charLF then ({ h with runningSum := 0, numDigits := 0, state := .readSize }, false)
    else (h, false)
  | _ => (h, false)

def blockLoop (byte : ChunkedHandler → UInt8 → ChunkedHandler × Bool) :
    Bytes → ChunkedHandler → Nat → ChunkedHandler × Nat × Bool
  | [], h, bytesUsed => (h, bytesUsed, false)
  | c :: cs, h, bytesUsed =>
    match byte h c with
    | (h, true) => (h, bytesUsed + 1, true)
    | (h, false) => blockLoop byte cs h (bytesUsed + 1)

def blocksLoop (byte : ChunkedHandler → UInt8 → ChunkedHandler × Bool) :
    Nat → ChunkedHandler → Option ChunkedHandler
  | 0, _ => none
  | fuel + 1, h =>
    match h.chunkedReader with
    | [] => some h
    | b :: _ =>
      match blockLoop byte b h 0 with
      | (h, bytesUsed, true) => some (h.consume bytesUsed)
      | (h, bytesUsed, false) => blocksLoop byte fuel (h.consume bytesUsed)

def readSize (h : ChunkedHandler) : Option ChunkedHandler :=
  blocksLoop readSizeByte (h.chunkedReader.length + 1) h

/-! ### `read_chunk` -/

def move (h : ChunkedHandler) (moved : Nat) : ChunkedHandler :=
  { h.consume moved with
    dechunkedBuffer := h.dechunkedBuffer.map (· ++ h.unread.take moved)
    bytesLeft := h.bytesLeft - moved
    dechunkedSize := toInt32 (h.dechunkedSize + moved) }

/-- Much data is moved by reference, from as many blocks as there are; little is copied. -/
def transferLoop : Nat → ChunkedHandler → Option ChunkedHandler
  | 0, _ => none
  | fuel + 1, h =>
    if h.bytesLeft > 0 then
      let blockReadAvail := (h.chunkedReader.headD []).length
      let toMove := min h.bytesLeft blockReadAvail
      if toMove ≤ 0 then some h
      else if toMove ≥ minBlockTransferBytes then
        transferLoop fuel (h.move (min h.bytesLeft.toNat h.unread.length))
      else transferLoop fuel (h.move toMove.toNat)
    else some h

def transferBytes (h : ChunkedHandler) : Option ChunkedHandler :=
  if h.dechunkedBuffer = none then
    let moved := min h.bytesLeft h.unread.length
    some { h.consume moved.toNat with bytesLeft := h.bytesLeft - moved }
  else transferLoop (h.chunkedReader.length + 1) h

section Ahead

-- the results of max_read_avail and of max_block_count of the buffer
variable (ahead : ChunkedHandler → Nat × Nat)

def readChunk (h : ChunkedHandler) : Option ChunkedHandler :=
  h.transferBytes.map fun h =>
    if h.bytesLeft = 0 then
      if h.dechunkedBuffer ≠ none ∧ ((ahead h).1 > maxChunkedAheadBytes ∨
          (ahead h).2 > maxChunkedAheadBlocks) then
        { h with state := .flowControl }
      else { h with state := .readSizeStart }
    else h

/-! ### `read_trailer` -/

def readTrailerByte (h : ChunkedHandler) (c : UInt8) : ChunkedHandler × Bool :=
  if c = charCR then
    ({ h with state := if h.state = .readTrailerBlank then .readTrailerCr else .readTrailerLine },
      false)
  else if c = charLF then
    if h.state = .readTrailerCr ∨ h.state = .readTrailerBlank then ({ h with state := .readDone }, true)
    else ({ h with state := .readTrailerBlank }, false)
  else ({ h with state := .readTrailerLine }, false)

def readTrailer (h : ChunkedHandler) : Option ChunkedHandler :=
  blocksLoop readTrailerByte (h.chunkedReader.length + 1) h

/-! ### `process_chunked_content` -/

def stopped (h : ChunkedHandler) : Bool := h.state = .readDone || h.state = .readError

def processLoop : Nat → ChunkedHandler → Option ChunkedHandler
  | 0, _ => none
  | fuel + 1, h =>
    if h.unread = [] ∨ h.stopped then some h
    else
      match h.state with
      | .readSize | .readSizeCrlf | .readSizeStart => do processLoop fuel (← h.readSize)
      | .readChunk => do processLoop fuel (← h.readChunk ahead)
      | .readTrailerBlank | .readTrailerCr | .readTrailerLine => do processLoop fuel (← h.readTrailer)
      | .flowControl => some h
      | _ => none

/-- `process_chunked_content`; `none` if it would not end, or fail an assertion. Its result is whether
the handler has stopped. -/
def processChunkedContent (h : ChunkedHandler) : Option ChunkedHandler :=
  processLoop ahead (h.unread.length + 1) h

/-! ### The tunnel -/

/-- What `producer_handler_chunked` makes of an event after the content has been processed. -/
def translateEvent (readVio : Bool) (event : TunnelEvent) (h : ChunkedHandler) :
    ChunkedHandler × TunnelEvent :=
  if h.state = .readError then ({ h with truncation := true }, .eos)
  else if readVio ∧ h.state = .flowControl then (h, .readReady)
  else if event = .readReady then (h, if h.stopped then .readComplete else .readReady)
  else (if h.stopped then h else { h with truncation := true }, event)

/-- `producer_handler_chunked`, and the event that the tunnel goes on with. -/
def producerHandlerChunked (readVio : Bool) (event : TunnelEvent) (h : ChunkedHandler) :
    Option (ChunkedHandler × TunnelEvent) :=
  match event with
  | .none | .other => some (h, event)
  | .readReady | .readComplete | .precomplete | .eos =>
    (processChunkedContent ahead { h with lastServerEvent := event }).map (translateEvent readVio event)

/-- `chunked_reenable`: what is in the buffer is processed as if it had just come. -/
def chunkedReenable (h : ChunkedHandler) : Option ChunkedHandler :=
  if h.state = .flowControl ∧ (ahead h).1 < maxChunkedAheadBytes ∧
      (ahead h).2 < maxChunkedAheadBlocks then
    (producerHandlerChunked ahead true h.lastServerEvent { h with state := .readSizeStart }).map (·.1)
  else some h

end Ahead

end ChunkedHandler

end TrafficServer
