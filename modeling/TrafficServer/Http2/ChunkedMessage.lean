import Mathlib.Logic.Relation
import TrafficServer.Http2.ChunkedDecode

/-!
# Chunked messages

What the handler makes of a chunked message, however the message is cut into blocks and whenever the
tunnel calls. In every run, decoding what is left from the handler's state gives what decoding all bytes
from the first state gives (`Reached`), so it is enough to decode a whole message (`decode_message`). The
handler counts the digits of a size, their value and the bytes delivered in an `int`, and each of the
three may wrap.
-/

namespace TrafficServer.ChunkedHandler

open List ParseRules CInt StreamDecoder

/-! ### Runs -/

/-- Bytes arrive, in any blocks, or the tunnel calls. The list has the bytes that have arrived. -/
inductive Step : ChunkedHandler × Bytes → ChunkedHandler × Bytes → Prop
  | arrive (h : ChunkedHandler) (arrived bytes : Bytes) (blocks : List Bytes)
      (hne : ∀ b ∈ blocks, b ≠ []) (hbytes : blocks.flatten = h.unread ++ bytes) :
      Step (h, arrived) ({ h with chunkedReader := blocks }, arrived ++ bytes)
  | process (ahead : ChunkedHandler → Nat × Nat) {h h' : ChunkedHandler} (arrived : Bytes)
      (hrun : processChunkedContent ahead h = some h') : Step (h, arrived) (h', arrived)
  | event (ahead : ChunkedHandler → Nat × Nat) (readVio : Bool) {e e' : TunnelEvent}
      {h h' : ChunkedHandler} (arrived : Bytes)
      (hrun : producerHandlerChunked ahead readVio e h = some (h', e')) :
      Step (h, arrived) (h', arrived)
  | reenable (ahead : ChunkedHandler → Nat × Nat) {h h' : ChunkedHandler} (arrived : Bytes)
      (hrun : chunkedReenable ahead h = some h') : Step (h, arrived) (h', arrived)

/-- The handler is on its way through what has arrived. -/
structure Reached (h₀ : ChunkedHandler) (x : ChunkedHandler × Bytes) : Prop where
  inv : x.1.Inv
  result : x.1.result = decode feed stopped h₀.core x.2

variable {h h' h₀ : ChunkedHandler} {x y : ChunkedHandler × Bytes} {arrived : Bytes}

theorem Reached.step (hr : Reached h₀ x) (hstep : Step x y) : Reached h₀ y := by
  obtain ⟨hi, hresult⟩ := hr
  cases hstep with
  | arrive h arrived bytes blocks hne hbytes =>
    refine ⟨⟨hne, hi.chunk, hi.size, hi.reads, hi.total⟩, ?_⟩
    change decode feed stopped h.core blocks.flatten = decode feed stopped h₀.core (arrived ++ bytes)
    rw [hbytes, decode_append h.core, decode_append h₀.core, ← hresult]
  | process ahead arrived hrun =>
    obtain ⟨h', hrun', hkept, -⟩ := process_spec ahead hi
    obtain rfl := Option.some.inj (hrun.symm.trans hrun')
    exact ⟨hkept.inv, hkept.result.symm.trans hresult⟩
  | event ahead readVio arrived hrun =>
    obtain ⟨h', e', hrun', hi', hsame⟩ := producerHandlerChunked_spec ahead readVio _ hi
    obtain ⟨rfl, -⟩ := Prod.mk.inj (Option.some.inj (hrun.symm.trans hrun'))
    exact ⟨hi', hsame.symm.trans hresult⟩
  | reenable ahead arrived hrun =>
    obtain ⟨h', hrun', hi', hsame⟩ := chunkedReenable_spec ahead hi
    obtain rfl := Option.some.inj (hrun.symm.trans hrun')
    exact ⟨hi', hsame.symm.trans hresult⟩

theorem Reached.run (hi : h₀.Inv) (hempty : h₀.unread = [])
    (hrun : Relation.ReflTransGen Step (h₀, []) x) : Reached h₀ x := by
  induction hrun with
  | refl => exact ⟨hi, by rw [ChunkedHandler.result, hempty]⟩
  | tail _ hstep ih => exact ih.step hstep

theorem exists_run (hi : h₀.Inv) (hempty : h₀.unread = []) (hs : h₀.state ≠ .flowControl)
    {bytes : Bytes} (hne : bytes ≠ []) : ∃ h, Relation.ReflTransGen Step (h₀, []) (h, bytes) ∧
      (h.core, h.unread) = decode feed stopped h₀.core bytes ∧ h.state ≠ .flowControl := by
  have harrive : Step (h₀, []) ({ h₀ with chunkedReader := [bytes] }, [] ++ bytes) :=
    .arrive h₀ [] bytes [bytes] (by simpa using hne) (by rw [hempty]; simp)
  have hreached := Reached.run hi hempty (.single harrive)
  obtain ⟨h, hrun, hkept, hend⟩ := process_spec (fun _ => (0, 0)) hreached.inv
  have hflow := hkept.flow (fun _ => rfl) hs
  refine ⟨h, .tail (.single harrive) (.process _ _ hrun), ?_, hflow⟩
  rw [← hend hflow, ← hkept.result]
  exact hreached.result

/-! ### Size lines -/

def hexValue (digits : Bytes) : Nat := digits.foldl (fun v c => v * 16 + hexDigit c) 0

/-- A size line: hex digits and perhaps an extension, before CR LF. -/
structure SizeLine where
  digits : Bytes
  ext : Bytes
  hex : ∀ c ∈ digits, isHex c = true
  ext_start : ∀ c ∈ ext.head?, isHex c = false
  ext_free : charLF ∉ ext

namespace SizeLine

variable (line : SizeLine)

def bytes : Bytes := line.digits ++ line.ext ++ [charCR, charLF]

def size : Nat := hexValue line.digits

/-- The handler does not take the size for an error: neither the number of the digits nor their value
wraps to one. -/
def Accepted : Prop := line.digits.length % 2 ^ 32 ≠ 0 ∧ line.size % 2 ^ 32 < 2 ^ 31
deriving Decidable

end SizeLine

/-- The handler is about to read a size. -/
structure AtSize (h : ChunkedHandler) : Prop where
  state : h.state = .readSize
  sum : h.runningSum = 0
  digits : h.numDigits = 0
  total : toInt32 h.dechunkedSize = h.dechunkedSize

def afterDigits (h : ChunkedHandler) (digits : Bytes) : ChunkedHandler :=
  { h with numDigits := toInt32 digits.length, runningSum := toInt32 (hexValue digits) }

theorem decode_digits (hs : h.state = .readSize) (digits : Bytes)
    (hx : ∀ c ∈ digits, isHex c = true) (v k : Nat) (rest : Bytes) :
    decode feed stopped { h with numDigits := toInt32 k, runningSum := toInt32 v } (digits ++ rest) =
      decode feed stopped
        { h with
          numDigits := toInt32 (k + digits.length : Nat)
          runningSum := toInt32 (digits.foldl (fun v c => v * 16 + hexDigit c) v : Nat) } rest := by
  induction digits generalizing v k with
  | nil => rfl
  | cons c digits ih =>
    have hc := hx c mem_cons_self
    have hfeed : feed { h with numDigits := toInt32 k, runningSum := toInt32 v } c =
        { h with numDigits := toInt32 (k + 1 : Nat), runningSum := toInt32 (v * 16 + hexDigit c : Nat) } := by
      simp only [feed, readSizeByte, hs, hc, if_true, toInt32_toInt32_add, toInt32_toInt32_mul]
      push_cast
      rfl
    rw [cons_append, decode_cons (by simp [stopped, hs]), hfeed, ih fun c hc => hx c (mem_cons_of_mem _ hc)]
    rw [foldl_cons, length_cons, add_assoc, add_comm 1]

theorem toInt32_eq_zero (k : Nat) : toInt32 k = 0 ↔ k % 2 ^ 32 = 0 := by
  unfold toInt32
  omega

theorem toInt32_nonneg (v : Nat) : 0 ≤ toInt32 v ↔ v % 2 ^ 32 < 2 ^ 31 := by
  unfold toInt32
  omega

theorem decode_crlf (hs : h.state = .readSizeCrlf) (l : Bytes) (hl : charLF ∉ l) (rest : Bytes) :
    decode feed stopped h (l ++ charLF :: rest) = decode feed stopped
        { h with
          bytesLeft := h.runningSum
          curChunkSize := h.runningSum
          state := if h.runningSum = 0 then .readTrailerBlank else .readChunk } rest := by
  have hgoes : h.stopped = false := by simp [stopped, hs]
  induction l with
  | nil =>
    rw [nil_append, decode_cons hgoes]
    simp only [feed, readSizeByte, hs, if_true]
  | cons c l ih =>
    rw [mem_cons, not_or] at hl
    have hfeed : feed h c = h := by simp only [feed, readSizeByte, hs, if_neg (Ne.symm hl.1)]
    rw [cons_append, decode_cons hgoes, hfeed, ih hl.2]

def afterSize (h : ChunkedHandler) (line : SizeLine) : ChunkedHandler :=
  let size := toInt32 line.size
  { h.afterDigits line.digits with
    bytesLeft := size
    curChunkSize := size
    state := if size = 0 then .readTrailerBlank else .readChunk }

theorem SizeLine.exists_tail (line : SizeLine) : ∃ c l, isHex c = false ∧ charLF ∉ l ∧
    line.bytes = line.digits ++ (c :: (l ++ [charLF])) := by
  have hfree := line.ext_free
  have hstart := line.ext_start
  rw [bytes]
  cases hext : line.ext with
  | nil => exact ⟨charCR, [], by decide, by simp, by simp⟩
  | cons c l =>
    rw [hext] at hfree hstart
    refine ⟨c, l ++ [charCR], hstart c rfl, ?_, by simp⟩
    rw [mem_append, not_or]
    exact ⟨fun h => hfree (mem_cons_of_mem _ h), by decide⟩

theorem decode_sizeLine (ha : AtSize h) (line : SizeLine) (rest : Bytes) : if line.Accepted then
      decode feed stopped h (line.bytes ++ rest) = decode feed stopped (h.afterSize line) rest
    else ∃ left, decode feed stopped h (line.bytes ++ rest) =
      ({ h.afterDigits line.digits with state := .readError }, left) := by
  obtain ⟨c, l, hc, hl, hbytes⟩ := line.exists_tail
  have hstart : h = { h with numDigits := toInt32 (0 : Nat), runningSum := toInt32 (0 : Nat) } := by
    obtain ⟨_, hsum, hdigits, _⟩ := ha
    cases h
    subst hsum hdigits
    rfl
  have hdigits : decode feed stopped h (line.bytes ++ rest) =
      decode feed stopped (h.afterDigits line.digits) (c :: (l ++ charLF :: rest)) := by
    have hread := decode_digits ha.state line.digits line.hex 0 0 (c :: (l ++ charLF :: rest))
    rw [← hstart, zero_add] at hread
    rw [hbytes, append_assoc, cons_append, append_assoc]
    exact hread
  have hstate : (h.afterDigits line.digits).state = .readSize := by rw [← ha.state, afterDigits]
  have hgoes : (h.afterDigits line.digits).stopped = false := by simp [stopped, hstate]
  rw [hdigits, decode_cons hgoes]
  have hsum : (h.afterDigits line.digits).runningSum = toInt32 line.size := rfl
  have hnum : (h.afterDigits line.digits).numDigits = toInt32 line.digits.length := rfl
  have hzero := toInt32_eq_zero line.digits.length
  have hneg := toInt32_nonneg line.size
  split
  · next hok =>
    have hfeed : feed (h.afterDigits line.digits) c = { h.afterDigits line.digits with state := .readSizeCrlf } := by
      simp only [feed, readSizeByte, hstate, hc, hsum, hnum]
      rw [if_neg (by decide), if_neg]
      obtain ⟨hok1, hok2⟩ := hok
      omega
    rw [hfeed, decode_crlf rfl l hl, afterSize]
    rw [hsum]
  · next hbad =>
    have hfeed : feed (h.afterDigits line.digits) c = { h.afterDigits line.digits with state := .readError } := by
      simp only [feed, readSizeByte, hstate, hc, hsum, hnum]
      rw [if_neg (by decide), if_pos]
      rw [SizeLine.Accepted, not_and_or] at hbad
      omega
    rw [hfeed, decode_of_stopped rfl]
    exact ⟨_, rfl⟩

/-! ### Chunks and trailers -/

structure Chunk where
  line : SizeLine
  data : Bytes
  size_eq : line.size = data.length
  nonempty : data ≠ []
  small : data.length < 2 ^ 31

def Chunk.bytes (c : Chunk) : Bytes := c.line.bytes ++ (c.data ++ [charCR, charLF])

structure ChunkedMessage where
  chunks : List Chunk
  last : SizeLine
  last_digits : last.digits ≠ []
  last_size : last.size = 0
  trailers : List Bytes
  trailer_line : ∀ t ∈ trailers, t ≠ [] ∧ charLF ∉ t

namespace ChunkedMessage

variable (M : ChunkedMessage)

def trailerBytes : Bytes := M.trailers.flatMap (· ++ [charCR, charLF]) ++ [charCR, charLF]

def bytes : Bytes := M.chunks.flatMap (·.bytes) ++ (M.last.bytes ++ M.trailerBytes)

def data : Bytes := M.chunks.flatMap (·.data)

def lines : List SizeLine := M.chunks.map (·.line) ++ [M.last]

end ChunkedMessage

theorem Chunk.accepted_iff (c : Chunk) : c.line.Accepted ↔ c.line.digits.length % 2 ^ 32 ≠ 0 := by
  have := c.small
  rw [SizeLine.Accepted, c.size_eq, and_iff_left_iff_imp]
  omega

/-- The handler has delivered `l`. -/
structure Delivered (l : Bytes) (h : ChunkedHandler) : Prop where
  buffer : h.dechunkedBuffer = some l
  size : h.dechunkedSize = toInt32 l.length

theorem decode_sizeStart (hs : h.state = .readSizeStart) (rest : Bytes) :
    decode feed stopped h (charCR :: charLF :: rest) =
      decode feed stopped { h with runningSum := 0, numDigits := 0, state := .readSize } rest := by
  have hgoes : h.stopped = false := by simp [stopped, hs]
  have hcr : feed h charCR = h := by simp only [feed, readSizeByte, hs, show charCR ≠ charLF by decide, if_false]
  have hlf : feed h charLF = { h with runningSum := 0, numDigits := 0, state := .readSize } := by
    simp only [feed, readSizeByte, hs, if_true]
  rw [decode_cons hgoes, hcr, decode_cons hgoes, hlf]

theorem decode_blank (hs : h.state = .readTrailerBlank) (rest : Bytes) :
    decode feed stopped h (charCR :: charLF :: rest) = ({ h with state := .readDone }, rest) := by
  have hgoes : h.stopped = false := by simp [stopped, hs]
  have hcr : feed h charCR = { h with state := .readTrailerCr } := by simp only [feed, readTrailerByte, hs, if_true]
  rw [decode_cons hgoes, hcr, decode_cons rfl]
  exact decode_of_stopped rfl rest

theorem afterSize_of_chunk (h : ChunkedHandler) (c : Chunk) : (h.afterSize c.line).state = .readChunk ∧
      (c.data.length : Int) = (h.afterSize c.line).bytesLeft := by
  have hlen : 0 < c.data.length := length_pos_iff.mpr c.nonempty
  have hsize : toInt32 c.line.size = c.data.length := by
    have := c.small
    rw [c.size_eq, toInt32_of_mem (by omega) (by omega)]
  rw [afterSize, hsize]
  exact ⟨if_neg (by omega), rfl⟩

@[simp] theorem afterSize_dechunkedBuffer (h : ChunkedHandler) (line : SizeLine) :
    (h.afterSize line).dechunkedBuffer = h.dechunkedBuffer := by rw [afterSize, afterDigits]

@[simp] theorem afterSize_dechunkedSize (h : ChunkedHandler) (line : SizeLine) :
    (h.afterSize line).dechunkedSize = h.dechunkedSize := by rw [afterSize, afterDigits]

variable {l : Bytes}

theorem Delivered.put {l' : Bytes} (hd : Delivered l h) : Delivered (l ++ l') (h.put l') := by
  refine ⟨?_, ?_⟩
  · simp only [ChunkedHandler.put, hd.buffer, Option.map_some]
  · simp only [ChunkedHandler.put, hd.buffer, hd.size, reduceCtorEq, if_false, toInt32_toInt32_add,
      length_append, Nat.cast_add]

theorem decode_chunk (ha : AtSize h) (hd : Delivered l h) (c : Chunk)
    (hok : c.line.Accepted) : ∃ h', AtSize h' ∧ Delivered (l ++ c.data) h' ∧
      ∀ rest, decode feed stopped h (c.bytes ++ rest) = decode feed stopped h' rest := by
  obtain ⟨hstate, hleft⟩ := afterSize_of_chunk h c
  have hd1 : Delivered l (h.afterSize c.line) :=
    ⟨by rw [afterSize_dechunkedBuffer, hd.buffer], by rw [afterSize_dechunkedSize, hd.size]⟩
  have htotal : toInt32 (h.afterSize c.line).dechunkedSize = (h.afterSize c.line).dechunkedSize := by
    rw [afterSize_dechunkedSize, ha.total]
  have hline := fun rest => decode_sizeLine ha c.line (c.data ++ [charCR, charLF] ++ rest)
  simp only [if_pos hok] at hline
  generalize h.afterSize c.line = g at hstate hleft hd1 htotal hline
  have hd2 : Delivered (l ++ c.data) (g.put c.data) := hd1.put
  refine ⟨{ g.put c.data with state := .readSize, runningSum := 0, numDigits := 0 },
    ⟨rfl, rfl, rfl, put_total htotal _⟩, ⟨hd2.buffer, hd2.size⟩, fun rest => ?_⟩
  rw [Chunk.bytes, append_assoc, hline, append_assoc, decode_put_all hstate htotal hleft c.nonempty]
  exact decode_sizeStart (h := { g.put c.data with state := .readSizeStart }) rfl rest

theorem decode_chunks (ha : AtSize h) (hd : Delivered l h) (chunks : List Chunk)
    (hok : ∀ c ∈ chunks, c.line.Accepted) : ∃ h', AtSize h' ∧ Delivered (l ++ chunks.flatMap (·.data)) h' ∧
      ∀ rest, decode feed stopped h (chunks.flatMap (·.bytes) ++ rest) = decode feed stopped h' rest := by
  induction chunks generalizing h l with
  | nil => exact ⟨h, ha, by simpa using hd, fun rest => rfl⟩
  | cons c chunks ih =>
    obtain ⟨h1, ha1, hd1, hdecode1⟩ := decode_chunk ha hd c (hok c mem_cons_self)
    obtain ⟨h', ha', hd', hdecode⟩ := ih ha1 hd1 fun c hc => hok c (mem_cons_of_mem _ hc)
    refine ⟨h', ha', by rwa [flatMap_cons, ← append_assoc], fun rest => ?_⟩
    rw [flatMap_cons, append_assoc, hdecode1, hdecode]

theorem decode_trailer_line {s : ChunkedState} (hs : s = .readTrailerCr ∨ s = .readTrailerLine)
    (t : Bytes) (ht : charLF ∉ t) (rest : Bytes) :
    decode feed stopped { h with state := s } (t ++ charCR :: charLF :: rest) =
      decode feed stopped { h with state := .readTrailerBlank } rest := by
  induction t generalizing s with
  | nil => rcases hs with rfl | rfl <;> rfl
  | cons c t ih =>
    rw [mem_cons, not_or] at ht
    have hfeed : feed { h with state := s } c = { h with state := .readTrailerLine } := by
      rcases hs with rfl | rfl <;>
        simp only [feed, readTrailerByte, if_neg (Ne.symm ht.1)] <;> split <;> rfl
    have hgoes : ({ h with state := s } : ChunkedHandler).stopped = false := by rcases hs with rfl | rfl <;> rfl
    rw [cons_append, decode_cons hgoes, hfeed, ih (.inr rfl) ht.2]

theorem decode_trailers (hs : h.state = .readTrailerBlank) (trailers : List Bytes)
    (ht : ∀ t ∈ trailers, t ≠ [] ∧ charLF ∉ t) (rest : Bytes) :
    decode feed stopped h (trailers.flatMap (· ++ [charCR, charLF]) ++ rest) = decode feed stopped h rest := by
  induction trailers with
  | nil => rfl
  | cons t trailers ih =>
    obtain ⟨hne, hfree⟩ := ht t mem_cons_self
    obtain ⟨c, t, rfl⟩ := exists_cons_of_ne_nil hne
    rw [mem_cons, not_or] at hfree
    obtain ⟨s, hs', hfeed⟩ : ∃ s, (s = .readTrailerCr ∨ s = .readTrailerLine) ∧ feed h c = { h with state := s } := by
      simp only [feed, readTrailerByte, hs, if_neg (Ne.symm hfree.1)]
      split
      · exact ⟨_, .inl rfl, rfl⟩
      · exact ⟨_, .inr rfl, rfl⟩
    have hblank : ({ h with state := .readTrailerBlank } : ChunkedHandler) = h := by rw [← hs]
    rw [flatMap_cons, append_assoc, append_assoc, cons_append,
      decode_cons (by simp [stopped, hs]), hfeed, cons_append, cons_append, nil_append,
      decode_trailer_line hs' t hfree.2, hblank, ih fun t ht' => ht t (mem_cons_of_mem _ ht')]

/-! ### Messages -/

namespace ChunkedMessage

variable (M : ChunkedMessage)

def CountsDigits : Prop := ∀ line ∈ M.lines, line.digits.length % 2 ^ 32 ≠ 0

theorem last_accepted_iff : M.last.Accepted ↔ M.last.digits.length % 2 ^ 32 ≠ 0 := by
  rw [SizeLine.Accepted, M.last_size, and_iff_left_iff_imp]
  omega

theorem countsDigits_iff : M.CountsDigits ↔ (∀ c ∈ M.chunks, c.line.Accepted) ∧ M.last.Accepted := by
  simp only [CountsDigits, lines, mem_append, mem_map, mem_singleton, Chunk.accepted_iff, M.last_accepted_iff]
  constructor
  · exact fun h => ⟨fun c hc => h _ (.inl ⟨c, hc, rfl⟩), h _ (.inr rfl)⟩
  · rintro ⟨h, h'⟩ line (⟨c, hc, rfl⟩ | rfl)
    · exact h c hc
    · exact h'

end ChunkedMessage

theorem atSize_new : AtSize new := ⟨rfl, rfl, rfl, rfl⟩

theorem delivered_new : Delivered [] new := ⟨rfl, rfl⟩

theorem decode_message (M : ChunkedMessage) (hok : M.CountsDigits) :
    ∃ h', h'.state = .readDone ∧ Delivered M.data h' ∧
      ∀ rest, decode feed stopped new (M.bytes ++ rest) = (h', rest) := by
  obtain ⟨hchunks, hlast⟩ := M.countsDigits_iff.mp hok
  obtain ⟨h1, ha1, hd1, hdecode⟩ := decode_chunks atSize_new delivered_new M.chunks hchunks
  have hstate : (h1.afterSize M.last).state = .readTrailerBlank := by
    rw [afterSize, M.last_size]
    rfl
  have hd : Delivered M.data { h1.afterSize M.last with state := .readDone } :=
    ⟨by rw [afterSize_dechunkedBuffer]; exact hd1.buffer, by rw [afterSize_dechunkedSize]; exact hd1.size⟩
  refine ⟨{ h1.afterSize M.last with state := .readDone }, rfl, hd, fun rest => ?_⟩
  have hline := decode_sizeLine ha1 M.last (M.trailerBytes ++ rest)
  rw [if_pos hlast] at hline
  rw [ChunkedMessage.bytes, append_assoc, hdecode, append_assoc, hline,
    ChunkedMessage.trailerBytes, append_assoc, decode_trailers hstate _ M.trailer_line]
  exact decode_blank hstate rest

theorem decode_chunks_error (ha : AtSize h) (hd : Delivered l h)
    (chunks : List Chunk) (hbad : ∃ c ∈ chunks, ¬c.line.Accepted) (rest : Bytes) :
    (decode feed stopped h (chunks.flatMap (·.bytes) ++ rest)).1.state = .readError := by
  induction chunks generalizing h l with
  | nil => simp at hbad
  | cons c chunks ih =>
    rw [flatMap_cons, append_assoc]
    by_cases hok : c.line.Accepted
    · obtain ⟨h1, ha1, hd1, hdecode1⟩ := decode_chunk ha hd c hok
      rw [hdecode1]
      obtain ⟨c', hc', hbad'⟩ := hbad
      rcases mem_cons.mp hc' with rfl | hc'
      · exact absurd hok hbad'
      · exact ih ha1 hd1 ⟨c', hc', hbad'⟩
    · have hline := decode_sizeLine ha c.line (c.data ++ [charCR, charLF] ++ (chunks.flatMap (·.bytes) ++ rest))
      rw [if_neg hok] at hline
      obtain ⟨left, hline⟩ := hline
      rw [Chunk.bytes, append_assoc, hline]

theorem decode_message_error (M : ChunkedMessage) (hbad : ¬M.CountsDigits) :
    (decode feed stopped new M.bytes).1.state = .readError := by
  rw [M.countsDigits_iff, not_and_or] at hbad
  rw [ChunkedMessage.bytes]
  by_cases hchunks : ∀ c ∈ M.chunks, c.line.Accepted
  · obtain ⟨h1, ha1, -, hdecode⟩ := decode_chunks atSize_new delivered_new M.chunks hchunks
    have hline := decode_sizeLine ha1 M.last M.trailerBytes
    rw [if_neg (hbad.resolve_left (not_not_intro hchunks))] at hline
    obtain ⟨left, hline⟩ := hline
    rw [hdecode, hline]
  · push Not at hchunks
    exact decode_chunks_error atSize_new delivered_new M.chunks hchunks _

end TrafficServer.ChunkedHandler
