import TrafficServer.Http2.ChunkedHandler
import TrafficServer.Lib.StreamDecoder

/-!
# Chunked content byte by byte

The routines of the handler go block by block; each does to the bytes it takes what a decoder does that
reads one byte after the other (`feed`). So a call of `process_chunked_content` changes neither what the
decoder makes of the bytes that are left, nor where it stops (`process_spec`). A handler that pauses for
flow control is, to the decoder, at the start of the next size.
-/

namespace TrafficServer.ChunkedHandler

open List CInt StreamDecoder

/-- The handler without its reader and what the tunnel notes in it. -/
def core (h : ChunkedHandler) : ChunkedHandler :=
  { h with
    chunkedReader := []
    truncation := false
    lastServerEvent := .none
    state := if h.state = .flowControl then .readSizeStart else h.state }

def put (h : ChunkedHandler) (l : Bytes) : ChunkedHandler :=
  { h with
    dechunkedBuffer := h.dechunkedBuffer.map (· ++ l)
    bytesLeft := h.bytesLeft - l.length
    dechunkedSize := if h.dechunkedBuffer = none then h.dechunkedSize
      else toInt32 (h.dechunkedSize + l.length) }

def feed (h : ChunkedHandler) (c : UInt8) : ChunkedHandler :=
  match h.state with
  | .readSize | .readSizeCrlf | .readSizeStart => (readSizeByte h c).1
  | .readChunk =>
    if h.bytesLeft = 1 then { h.put [c] with state := .readSizeStart } else h.put [c]
  | .readTrailerBlank | .readTrailerCr | .readTrailerLine => (readTrailerByte h c).1
  | _ => h

/-- What is made of the bytes that are left. -/
abbrev result (h : ChunkedHandler) : ChunkedHandler × Bytes := decode feed stopped h.core h.unread

/-- The reader has no empty block; a chunk has bytes left; a size that is not an error is not
negative; the total is an `int`. -/
structure Inv (h : ChunkedHandler) : Prop where
  blocks : ∀ b ∈ h.chunkedReader, b ≠ []
  chunk : h.state = .readChunk → 0 < h.bytesLeft
  size : h.state = .readSizeCrlf → 0 ≤ h.runningSum
  reads : h.state ≠ .writeChunk ∧ h.state ≠ .writeDone
  total : toInt32 h.dechunkedSize = h.dechunkedSize

variable {h h' h'' : ChunkedHandler} {n : Nat} {l : Bytes} {ahead : ChunkedHandler → Nat × Nat}

/-- What the routines keep. If the consumers are never behind there is no pause. -/
structure Kept (ahead : ChunkedHandler → Nat × Nat) (h h' : ChunkedHandler) : Prop where
  inv : h'.Inv
  result : h.result = h'.result
  flow : (∀ x, ahead x = (0, 0)) → h.state ≠ .flowControl → h'.state ≠ .flowControl

theorem Kept.refl (hi : h.Inv) : Kept ahead h h := ⟨hi, rfl, fun _ => id⟩

theorem Kept.trans (k : Kept ahead h h') (k' : Kept ahead h' h'') : Kept ahead h h'' :=
  ⟨k'.inv, k.result.trans k'.result, fun hz hs => k'.flow hz (k.flow hz hs)⟩

/-! ### The reader -/

theorem flatten_consumeBlocks (bs : List Bytes) (n : Nat) :
    (consumeBlocks bs n).flatten = bs.flatten.drop n := by
  induction bs generalizing n with
  | nil => simp [consumeBlocks]
  | cons b bs ih =>
    rw [consumeBlocks]
    split
    · next hn => rw [flatten_cons, flatten_cons, drop_append_of_le_length hn.le]
    · next hn => rw [ih, flatten_cons, drop_append, drop_eq_nil_of_le (not_lt.mp hn), nil_append]

variable {bs : List Bytes}

theorem mem_consumeBlocks (hbs : ∀ b ∈ bs, b ≠ []) (n : Nat) : ∀ b ∈ consumeBlocks bs n, b ≠ [] := by
  induction bs generalizing n with
  | nil => simp [consumeBlocks]
  | cons b bs ih =>
    rw [consumeBlocks]
    split
    · next hn =>
      intro x hx
      rcases mem_cons.mp hx with rfl | hx
      · exact ne_nil_of_length_pos (by rw [length_drop]; omega)
      · exact hbs x (mem_cons_of_mem _ hx)
    · exact ih (fun x hx => hbs x (mem_cons_of_mem _ hx)) _

theorem length_consumeBlocks_le (bs : List Bytes) (n : Nat) : (consumeBlocks bs n).length ≤ bs.length := by
  induction bs generalizing n with
  | nil => exact le_rfl
  | cons b bs ih =>
    rw [consumeBlocks]
    split
    · exact le_rfl
    · exact (ih _).trans (Nat.le_succ _)

theorem unread_consume (h : ChunkedHandler) (n : Nat) : (h.consume n).unread = h.unread.drop n :=
  flatten_consumeBlocks _ _

@[simp] theorem core_consume (h : ChunkedHandler) (n : Nat) : (h.consume n).core = h.core := rfl

theorem Inv.consume (hi : h.Inv) (n : Nat) : (h.consume n).Inv :=
  ⟨mem_consumeBlocks hi.blocks n, hi.chunk, hi.size, hi.reads, hi.total⟩

theorem unread_ne_nil (hi : h.Inv) {b : Bytes}
    (hr : h.chunkedReader = b :: bs) : 0 < b.length ∧ h.unread = b ++ bs.flatten := by
  refine ⟨length_pos_iff.mpr (hi.blocks b (by rw [hr]; exact mem_cons_self)), ?_⟩
  rw [unread, hr, flatten_cons]

/-! ### Sizes and trailers -/

/-- The states in which a routine goes on. -/
structure ReadsBytes (byte : ChunkedHandler → UInt8 → ChunkedHandler × Bool)
    (S : ChunkedState → Bool) : Prop where
  byte_eq : ∀ h c, S h.state = true → byte h c = (feed h c, !S (feed h c).state)
  core_feed : ∀ h c, S h.state = true → (feed h c).core = feed h.core c
  reader : ∀ h c, S h.state = true → (feed h c).chunkedReader = h.chunkedReader
  inv : ∀ h c, S h.state = true → h.Inv → (feed h c).Inv
  goes : ∀ h : ChunkedHandler, S h.state = true → h.core.stopped = false
  flow : ∀ h c, S h.state = true → (feed h c).state ≠ .flowControl

def inSize (s : ChunkedState) : Bool := s = .readSize || s = .readSizeCrlf || s = .readSizeStart

def inTrailer (s : ChunkedState) : Bool :=
  s = .readTrailerBlank || s = .readTrailerCr || s = .readTrailerLine

variable {s : ChunkedState}

theorem inSize_cases (hs : inSize s = true) : s = .readSize ∨ s = .readSizeCrlf ∨ s = .readSizeStart := by
  simpa [inSize, or_assoc] using hs

theorem inTrailer_cases (hs : inTrailer s = true) :
    s = .readTrailerBlank ∨ s = .readTrailerCr ∨ s = .readTrailerLine := by
  simpa [inTrailer, or_assoc] using hs

theorem feed_size {c : UInt8} (hs : inSize h.state = true) : feed h c = (readSizeByte h c).1 := by
  rcases inSize_cases hs with hs | hs | hs <;> rw [feed, hs]

theorem feed_trailer {c : UInt8} (hs : inTrailer h.state = true) : feed h c = (readTrailerByte h c).1 := by
  rcases inTrailer_cases hs with hs | hs | hs <;> rw [feed, hs]

theorem ReadsBytes.of_step {byte : ChunkedHandler → UInt8 → ChunkedHandler × Bool} {S : ChunkedState → Bool}
    (hcore : ∀ h c, S h.state = true → (feed h c).core = feed h.core c)
    (h : ∀ h c, S h.state = true → byte h c = (feed h c, !S (feed h c).state) ∧
      (feed h c).chunkedReader = h.chunkedReader ∧ (h.Inv → (feed h c).Inv) ∧ h.core.stopped = false ∧
      (feed h c).state ≠ .flowControl) : ReadsBytes byte S :=
  ⟨fun x c hs => (h x c hs).1, hcore, fun x c hs => (h x c hs).2.1, fun x c hs => (h x c hs).2.2.1,
    fun x hs => (h x 0 hs).2.2.2.1, fun x c hs => (h x c hs).2.2.2.2⟩

theorem readsBytes_size : ReadsBytes readSizeByte inSize := by
  refine .of_step (fun h c hs => ?_) fun h c hs => ?_ <;> rw [feed_size hs]
  · rcases inSize_cases hs with hs | hs | hs <;> simp only [readSizeByte, feed, core, hs] <;> split_ifs <;> simp_all
  · rcases inSize_cases hs with hs | hs | hs <;> simp only [readSizeByte, hs] <;> split_ifs <;>
      refine ⟨by simp [inSize, hs], rfl, fun ⟨hb, _, hsize, _, ht⟩ => ⟨hb, ?_, ?_, by simp [hs], ht⟩,
        by simp [stopped, core, hs], by simp [hs]⟩ <;> simp_all
    -- the size of a chunk that is not the last one
    omega

theorem readsBytes_trailer : ReadsBytes readTrailerByte inTrailer := by
  refine .of_step (fun h c hs => ?_) fun h c hs => ?_ <;> rw [feed_trailer hs]
  · rcases inTrailer_cases hs with hs | hs | hs <;> simp only [readTrailerByte, feed, core, hs] <;>
      split_ifs <;> simp_all
  · rcases inTrailer_cases hs with hs | hs | hs <;> simp only [readTrailerByte, hs] <;> split_ifs <;>
      exact ⟨by simp_all [inTrailer], rfl, fun hi => ⟨hi.blocks, by simp, by simp, by simp, hi.total⟩,
        by simp [stopped, core, hs], by simp⟩

section Blocks
variable {byte : ChunkedHandler → UInt8 → ChunkedHandler × Bool} {S : ChunkedState → Bool}

theorem blockLoop_spec (hb : ReadsBytes byte S) (l : Bytes) (used : Nat) (hs : S h.state = true) (hi : h.Inv) :
    ∃ h' n, blockLoop byte l h used = (h', used + n, !S h'.state) ∧ n ≤ l.length ∧
      (l ≠ [] → 0 < n) ∧ (S h'.state = true → n = l.length) ∧ h'.chunkedReader = h.chunkedReader ∧ h'.Inv ∧
      (h.state ≠ .flowControl → h'.state ≠ .flowControl) ∧ ∀ rest, decode feed stopped h.core (l ++ rest) =
        decode feed stopped h'.core (l.drop n ++ rest) := by
  induction l generalizing h used with
  | nil => exact ⟨h, 0, by simp [blockLoop, hs], le_rfl, by simp, by simp, rfl, hi, id, by simp⟩
  | cons c l ih =>
    have hdecode (rest : Bytes) : decode feed stopped h.core (c :: l ++ rest) =
        decode feed stopped (feed h c).core (l ++ rest) := by
      rw [cons_append, decode_cons (hb.goes h hs), hb.core_feed h c hs]
    rw [blockLoop, hb.byte_eq h c hs]
    cases hS : S (feed h c).state with
    | false =>
      refine ⟨feed h c, 1, by simp [hS], by simp, by simp, by simp [hS], hb.reader h c hs,
        hb.inv h c hs hi, fun _ => hb.flow h c hs, hdecode⟩
    | true =>
      obtain ⟨h', n, hloop, hn, -, hall, hreader, hinv, hflow, hdec⟩ := ih (used + 1) hS (hb.inv h c hs hi)
      refine ⟨h', n + 1, ?_, by simpa using hn, by simp, fun hS' => by simp [hall hS'],
        hreader.trans (hb.reader h c hs), hinv, fun _ => hflow (hb.flow h c hs), fun rest => ?_⟩
      · rw [show (!true) = false from rfl]
        dsimp only
        rw [hloop, add_assoc, add_comm 1 n]
      · rw [hdecode, hdec, drop_succ_cons]

theorem blocksLoop_spec (hb : ReadsBytes byte S) (fuel : Nat) (hf : h.chunkedReader.length < fuel)
    (hs : S h.state = true) (hi : h.Inv) :
    ∃ h', blocksLoop byte fuel h = some h' ∧ Kept ahead h h' ∧ h'.unread.length ≤ h.unread.length ∧
      (h.unread ≠ [] → h'.unread.length < h.unread.length) := by
  induction fuel generalizing h with
  | zero => omega
  | succ fuel ih =>
    rw [blocksLoop]
    cases hr : h.chunkedReader with
    | nil => exact ⟨h, rfl, .refl hi, le_rfl, fun hne => absurd (by rw [unread, hr]; rfl) hne⟩
    | cons b bs =>
      obtain ⟨hpos, hunread⟩ := unread_ne_nil hi hr
      obtain ⟨h1, n, hloop, hn, hn0, hall, hreader, hinv, hflow, hdec⟩ := blockLoop_spec hb b 0 hs hi
      have hn0 := hn0 (length_pos_iff.mp hpos)
      have hunread1 : h1.unread = b ++ bs.flatten := by rw [unread, hreader]; exact hunread
      have hkept : Kept ahead h (h1.consume n) := by
        refine ⟨hinv.consume n, ?_, fun _ => hflow⟩
        rw [result, result, unread_consume, hunread, hunread1, hdec, core_consume, drop_append_of_le_length hn]
      have hless : (h1.consume n).unread.length < h.unread.length := by
        rw [unread_consume, hunread, hunread1, length_drop, length_append]
        omega
      dsimp only
      rw [hloop, zero_add]
      cases hS : S h1.state with
      | false => exact ⟨h1.consume n, rfl, hkept, hless.le, fun _ => hless⟩
      | true =>
        -- the whole block has been read
        have hblocks : (h1.consume n).chunkedReader.length < fuel := by
          have hle := length_consumeBlocks_le bs (n - b.length)
          change (consumeBlocks h1.chunkedReader n).length < fuel
          rw [hreader, hr, consumeBlocks, if_neg (by rw [hall hS]; exact lt_irrefl _)]
          rw [hr, length_cons] at hf
          omega
        obtain ⟨h', hloop', hkept', hle', -⟩ := ih hblocks hS (hinv.consume n)
        exact ⟨h', hloop', hkept.trans hkept', hle'.trans hless.le, fun _ => hle'.trans_lt hless⟩

end Blocks

/-! ### Chunks -/

@[simp] theorem put_state (h : ChunkedHandler) (l : Bytes) : (h.put l).state = h.state := rfl

theorem put_nil (ht : toInt32 h.dechunkedSize = h.dechunkedSize) : h.put [] = h := by
  cases h
  simp_all [put]

theorem put_put (h : ChunkedHandler) (l l' : Bytes) : (h.put l).put l' = h.put (l ++ l') := by
  obtain ⟨r, d, ds, t, s, ccs, bl, e, rs, nd⟩ := h
  cases d with
  | none => simp [put]; omega
  | some d => simp [put, add_assoc, sub_sub]

theorem put_total (ht : toInt32 h.dechunkedSize = h.dechunkedSize) (l : Bytes) :
    toInt32 (h.put l).dechunkedSize = (h.put l).dechunkedSize := by
  dsimp only [put]
  split
  · exact ht
  · exact toInt32_toInt32 _

theorem not_stopped_of_chunk (hs : h.state = .readChunk) : h.stopped = false := by
  rw [stopped, hs]
  rfl

section
variable (hs : h.state = .readChunk) (ht : toInt32 h.dechunkedSize = h.dechunkedSize)

include hs ht

theorem decode_put (hl : (l.length : Int) < h.bytesLeft) (rest : Bytes) :
    decode feed stopped h (l ++ rest) = decode feed stopped (h.put l) rest := by
  induction l generalizing h with
  | nil => rw [put_nil ht]; rfl
  | cons c l ih =>
    rw [length_cons] at hl
    have hfeed : feed h c = h.put [c] := by
      rw [feed, hs]
      exact if_neg (by omega)
    have hleft : (h.put [c]).bytesLeft = h.bytesLeft - 1 := rfl
    rw [cons_append, decode_cons (not_stopped_of_chunk hs), hfeed,
      ih (h := h.put [c]) hs (put_total ht [c]) (by rw [hleft]; omega), put_put]
    rfl

theorem decode_put_all (hl : (l.length : Int) = h.bytesLeft) (hne : l ≠ []) (rest : Bytes) :
    decode feed stopped h (l ++ rest) = decode feed stopped { h.put l with state := .readSizeStart } rest := by
  obtain ⟨l, c, rfl⟩ := (eq_nil_or_concat' l).resolve_left hne
  rw [length_append, length_singleton] at hl
  have hfeed : feed (h.put l) c = { (h.put l).put [c] with state := .readSizeStart } := by
    rw [feed, put_state, hs]
    exact if_pos (by change h.bytesLeft - l.length = 1; omega)
  rw [append_assoc, decode_put hs ht (by omega), singleton_append,
    decode_cons (not_stopped_of_chunk (h := h.put l) hs), hfeed, put_put]

end

/-- The bytes `l` have gone from the reader to the buffer. -/
structure Moved (h : ChunkedHandler) (l : Bytes) (h' : ChunkedHandler) : Prop where
  core : h'.core = h.core.put l
  unread : h.unread = l ++ h'.unread
  blocks : ∀ b ∈ h'.chunkedReader, b ≠ []
  state : h'.state = h.state

theorem Moved.trans {h'' : ChunkedHandler} {l' : Bytes} (m : Moved h l h')
    (m' : Moved h' l' h'') : Moved h (l ++ l') h'' :=
  ⟨by rw [m'.core, m.core, put_put], by rw [m.unread, m'.unread, append_assoc], m'.blocks, m'.state.trans m.state⟩

theorem Moved.bytesLeft (m : Moved h l h') : h'.bytesLeft = h.bytesLeft - l.length :=
  congrArg ChunkedHandler.bytesLeft m.core

theorem Moved.dechunkedBuffer (m : Moved h l h') : h'.dechunkedBuffer = h.dechunkedBuffer.map (· ++ l) :=
  congrArg ChunkedHandler.dechunkedBuffer m.core

theorem moved_nil (hi : ∀ b ∈ h.chunkedReader, b ≠ [])
    (ht : toInt32 h.dechunkedSize = h.dechunkedSize) : Moved h [] h :=
  ⟨(put_nil (h := h.core) ht).symm, rfl, hi, rfl⟩

theorem moved_move (hi : ∀ b ∈ h.chunkedReader, b ≠ []) (hd : h.dechunkedBuffer ≠ none)
    (hn : n ≤ h.unread.length) : Moved h (h.unread.take n) (h.move n) where
  core := by
    dsimp only [core, move, put, consume]
    rw [if_neg hd, length_take, min_eq_left hn]
  unread := by
    change h.unread = h.unread.take n ++ (h.consume n).unread
    rw [unread_consume, take_append_drop]
  blocks := mem_consumeBlocks hi n
  state := rfl

theorem transferLoop_spec (fuel : Nat) (hd : h.dechunkedBuffer ≠ none)
    (hi : ∀ b ∈ h.chunkedReader, b ≠ []) (ht : toInt32 h.dechunkedSize = h.dechunkedSize)
    (hleft : 0 ≤ h.bytesLeft) (hf : 0 < fuel) (hf' : 0 < h.bytesLeft → h.chunkedReader.length < fuel) :
    ∃ l h', transferLoop fuel h = some h' ∧ Moved h l h' ∧ 0 ≤ h'.bytesLeft ∧
      (0 < h'.bytesLeft → h'.unread = []) := by
  induction fuel generalizing h with
  | zero => omega
  | succ fuel ih =>
    rw [transferLoop]
    split_ifs with hpos
    · dsimp only
      cases hr : h.chunkedReader with
      | nil =>
        have hempty : h.unread = [] := by rw [unread, hr]; rfl
        refine ⟨[], h, if_pos (by simp [hleft]), moved_nil hi ht, hleft, fun _ => hempty⟩
      | cons b bs =>
        have hb : 0 < b.length := length_pos_iff.mpr (hi b (by rw [hr]; exact mem_cons_self))
        have hunread : h.unread = b ++ bs.flatten := by rw [unread, hr, flatten_cons]
        have hlen : h.unread.length = b.length + bs.flatten.length := by rw [hunread, length_append]
        have hblocks : bs.length < fuel := by
          have := hf' hpos
          rw [hr, length_cons] at this
          omega
        -- what is moved ends the chunk or takes the whole block
        have hstep (n : Nat) (hn : n ≤ h.unread.length) (hle : (n : Int) ≤ h.bytesLeft)
            (hall : (n : Int) < h.bytesLeft → b.length ≤ n) :
            ∃ l h', transferLoop fuel (h.move n) = some h' ∧ Moved h l h' ∧ 0 ≤ h'.bytesLeft ∧
              (0 < h'.bytesLeft → h'.unread = []) := by
          have hm := moved_move hi hd hn
          have hleft' : (h.move n).bytesLeft = h.bytesLeft - n := rfl
          have hd' : (h.move n).dechunkedBuffer ≠ none := by
            rw [hm.dechunkedBuffer]
            simpa using hd
          have hblocks' : 0 < (h.move n).bytesLeft → (h.move n).chunkedReader.length < fuel := by
            intro hpos'
            have hle' := length_consumeBlocks_le bs (n - b.length)
            change (consumeBlocks h.chunkedReader n).length < fuel
            rw [hr, consumeBlocks, if_neg (by omega)]
            omega
          obtain ⟨l, h', hloop, hm', hres⟩ := ih hd' hm.blocks (toInt32_toInt32 _) (by omega) (by omega) hblocks'
          exact ⟨_, h', hloop, hm.trans hm', hres⟩
        rw [headD_cons, if_neg (by omega)]
        split
        · exact hstep _ (min_le_right _ _) (by omega) (by omega)
        · exact hstep _ (by omega) (by omega) (by omega)
    · exact ⟨[], h, rfl, moved_nil hi ht, hleft, fun h => absurd h hpos⟩

theorem transferBytes_spec (hi : h.Inv) (hs : h.state = .readChunk) :
    ∃ l h', transferBytes h = some h' ∧ Moved h l h' ∧ 0 ≤ h'.bytesLeft ∧ (0 < h'.bytesLeft → h'.unread = []) := by
  have hleft := hi.chunk hs
  rw [transferBytes]
  split
  · next hd =>
    have hn : (min h.bytesLeft h.unread.length).toNat ≤ h.unread.length := by omega
    refine ⟨h.unread.take (min h.bytesLeft h.unread.length).toNat, _, rfl,
      ⟨?_, ?_, mem_consumeBlocks hi.blocks _, rfl⟩, ?_, ?_⟩
    · dsimp only [core, put, consume]
      rw [if_pos hd, length_take, min_eq_left hn, hd, Int.toNat_of_nonneg (by omega)]
      rfl
    · change h.unread = _ ++ (h.consume _).unread
      rw [unread_consume, take_append_drop]
    · dsimp only
      omega
    · intro hpos
      change (h.consume _).unread = []
      dsimp only at hpos
      rw [unread_consume, drop_eq_nil_iff]
      omega
  · next hd => exact transferLoop_spec _ hd hi.blocks hi.total hleft.le (by omega) fun _ => by omega

theorem readChunk_spec (ahead : ChunkedHandler → Nat × Nat) (hi : h.Inv) (hs : h.state = .readChunk) :
    ∃ h', readChunk ahead h = some h' ∧ Kept ahead h h' ∧ (h.unread ≠ [] → h'.unread.length < h.unread.length) := by
  have hleft := hi.chunk hs
  obtain ⟨l, h1, htransfer, hm, hle, hall⟩ := transferBytes_spec hi hs
  have hcore : h.core.state = .readChunk := by rw [core, if_neg (by rw [hs]; decide)]; exact hs
  have htotal : toInt32 h1.dechunkedSize = h1.dechunkedSize := by
    have := put_total (h := h.core) hi.total l
    rwa [← hm.core] at this
  have hless : h.unread ≠ [] → h1.unread.length < h.unread.length := by
    intro hne
    rw [hm.unread, length_append]
    by_contra hcon
    obtain rfl := length_eq_zero_iff.mp (show l.length = 0 by omega)
    have hb := hm.bytesLeft
    exact hne (hm.unread.trans (hall (by omega)))
  have hb := hm.bytesLeft
  rw [readChunk, htransfer, Option.map_some]
  by_cases hzero : h1.bytesLeft = 0
  · -- the chunk is complete
    have hresult : h.result = decode feed stopped { h.core.put l with state := .readSizeStart } h1.unread := by
      have heq : (l.length : Int) = h.core.bytesLeft := by
        change (l.length : Int) = h.bytesLeft
        omega
      rw [result, hm.unread, decode_put_all hcore hi.total heq]
      exact ne_nil_of_length_pos (by omega)
    rw [if_pos hzero]
    split
    · next hahead =>
      refine ⟨_, rfl, ⟨⟨hm.blocks, nofun, nofun, ⟨nofun, nofun⟩, htotal⟩, ?_, fun hzero _ => ?_⟩, hless⟩
      · rw [hresult, ← hm.core]
        rfl
      · rw [hzero] at hahead
        exact absurd hahead.2 (by decide)
    · refine ⟨_, rfl, ⟨⟨hm.blocks, nofun, nofun, ⟨nofun, nofun⟩, htotal⟩, ?_, fun _ _ => nofun⟩, hless⟩
      rw [hresult, ← hm.core]
      rfl
  · rw [if_neg hzero]
    have hs1 := hm.state.trans hs
    refine ⟨h1, rfl, ⟨⟨hm.blocks, fun _ => by omega, ?_, ?_, htotal⟩, ?_, fun _ _ => ?_⟩, hless⟩
    · rw [hs1]
      nofun
    · rw [hs1]
      decide
    · have hlt : (l.length : Int) < h.core.bytesLeft := by
        change (l.length : Int) < h.bytesLeft
        omega
      rw [result, hm.unread, decode_put hcore hi.total hlt, ← hm.core]
    · rw [hs1]
      nofun

/-! ### `process_chunked_content` -/

theorem result_of_end (hend : h.unread = [] ∨ h.stopped = true) (hs : h.state ≠ .flowControl) :
    h.result = (h.core, h.unread) := by
  rcases hend with hend | hend
  · rw [result, hend, decode_nil]
  · refine decode_of_stopped ?_ _
    rw [stopped, core, if_neg hs]
    exact hend

theorem processLoop_spec (ahead : ChunkedHandler → Nat × Nat) (fuel : Nat)
    (hf : h.unread.length < fuel) (hi : h.Inv) : ∃ h', processLoop ahead fuel h = some h' ∧ Kept ahead h h' ∧
      (h'.unread = [] ∨ h'.stopped = true ∨ h'.state = .flowControl) := by
  induction fuel generalizing h with
  | zero => omega
  | succ fuel ih =>
    rw [processLoop]
    split_ifs with hend
    · exact ⟨h, rfl, .refl hi, hend.imp_right .inl⟩
    · rw [not_or] at hend
      obtain ⟨hne, hgoes⟩ := hend
      -- each routine takes at least one byte
      have hnext {step : Option ChunkedHandler} (hstep : ∃ h1, step = some h1 ∧ Kept ahead h h1 ∧
          h1.unread.length < h.unread.length) :
          ∃ h', (do processLoop ahead fuel (← step)) = some h' ∧ Kept ahead h h' ∧
            (h'.unread = [] ∨ h'.stopped = true ∨ h'.state = .flowControl) := by
        obtain ⟨h1, rfl, hkept, hless⟩ := hstep
        obtain ⟨h', hloop, hkept', hend'⟩ := ih (by omega) hkept.inv
        exact ⟨h', hloop, hkept.trans hkept', hend'⟩
      have hblocks {byte S} (hb : ReadsBytes byte S) (hs : S h.state = true) :
          ∃ h1, blocksLoop byte (h.chunkedReader.length + 1) h = some h1 ∧ Kept ahead h h1 ∧
            h1.unread.length < h.unread.length := by
        obtain ⟨h1, hread, hkept, -, hless⟩ := blocksLoop_spec hb _ (Nat.lt_succ_self _) hs hi
        exact ⟨h1, hread, hkept, hless hne⟩
      have hchunk (hs : h.state = .readChunk) : ∃ h1, h.readChunk ahead = some h1 ∧
          Kept ahead h h1 ∧ h1.unread.length < h.unread.length := by
        obtain ⟨h1, hread, hkept, hless⟩ := readChunk_spec ahead hi hs
        exact ⟨h1, hread, hkept, hless hne⟩
      cases hs : h.state with
      | readSize => exact hnext (hblocks readsBytes_size (by rw [hs]; rfl))
      | readSizeCrlf => exact hnext (hblocks readsBytes_size (by rw [hs]; rfl))
      | readSizeStart => exact hnext (hblocks readsBytes_size (by rw [hs]; rfl))
      | readChunk => exact hnext (hchunk hs)
      | readTrailerBlank => exact hnext (hblocks readsBytes_trailer (by rw [hs]; rfl))
      | readTrailerCr => exact hnext (hblocks readsBytes_trailer (by rw [hs]; rfl))
      | readTrailerLine => exact hnext (hblocks readsBytes_trailer (by rw [hs]; rfl))
      | flowControl => exact ⟨h, rfl, .refl hi, .inr (.inr hs)⟩
      | readError => exact absurd (by rw [stopped, hs]; rfl) hgoes
      | readDone => exact absurd (by rw [stopped, hs]; rfl) hgoes
      | writeChunk => exact absurd hs hi.reads.1
      | writeDone => exact absurd hs hi.reads.2

/-- **A call ends, and what the decoder makes of the bytes that are left stays the same.** -/
theorem process_spec (ahead : ChunkedHandler → Nat × Nat) (hi : h.Inv) :
    ∃ h', processChunkedContent ahead h = some h' ∧ Kept ahead h h' ∧
      (h'.state ≠ .flowControl → h'.result = (h'.core, h'.unread)) := by
  obtain ⟨h', hloop, hkept, hend⟩ := processLoop_spec ahead _ (Nat.lt_succ_self _) hi
  refine ⟨h', hloop, hkept, fun hs => result_of_end ?_ hs⟩
  exact hend.imp_right fun hend => hend.resolve_right hs

theorem translateEvent_kept (readVio : Bool) (event : TunnelEvent) (hi : h.Inv) :
    (translateEvent readVio event h).1.Inv ∧ h.result = (translateEvent readVio event h).1.result := by
  have htrunc : ({ h with truncation := true } : ChunkedHandler).Inv :=
    ⟨hi.blocks, hi.chunk, hi.size, hi.reads, hi.total⟩
  rw [translateEvent]
  split_ifs <;> first | exact ⟨hi, rfl⟩ | exact ⟨htrunc, rfl⟩

theorem producerHandlerChunked_spec (ahead : ChunkedHandler → Nat × Nat) (readVio : Bool)
    (event : TunnelEvent) (hi : h.Inv) :
    ∃ h' e, producerHandlerChunked ahead readVio event h = some (h', e) ∧ h'.Inv ∧ h.result = h'.result := by
  -- what the tunnel notes is not read by the handler
  have hnote : ({ h with lastServerEvent := event } : ChunkedHandler).Inv :=
    ⟨hi.blocks, hi.chunk, hi.size, hi.reads, hi.total⟩
  obtain ⟨h1, hprocess, hkept, -⟩ := process_spec ahead hnote
  obtain ⟨hi', hresult'⟩ := translateEvent_kept readVio event hkept.inv
  have hresult := hkept.result.trans hresult'
  have hmap := congrArg (Option.map (translateEvent readVio event)) hprocess
  cases event with
  | none | other => exact ⟨h, _, rfl, hi, rfl⟩
  | readReady | readComplete | precomplete | eos => exact ⟨_, _, hmap, hi', hresult⟩

theorem chunkedReenable_spec (ahead : ChunkedHandler → Nat × Nat) (hi : h.Inv) :
    ∃ h', chunkedReenable ahead h = some h' ∧ h'.Inv ∧ h.result = h'.result := by
  rw [chunkedReenable]
  split
  · next hflow =>
    have hresume : ({ h with state := .readSizeStart } : ChunkedHandler).Inv :=
      ⟨hi.blocks, nofun, nofun, ⟨nofun, nofun⟩, hi.total⟩
    obtain ⟨h', e, hrun, hi', hresult⟩ := producerHandlerChunked_spec ahead true h.lastServerEvent hresume
    refine ⟨h', by rw [hrun]; rfl, hi', hresult ▸ ?_⟩
    rw [result, core, if_pos hflow.1]
    rfl
  · exact ⟨h, rfl, hi, rfl⟩

end TrafficServer.ChunkedHandler
