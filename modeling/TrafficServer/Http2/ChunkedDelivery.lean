import TrafficServer.Http2.ChunkedMessage

/-!
# What the chunked handler delivers

A message arrives in any pieces, with any bytes behind it, and the tunnel calls at any times. The handler
delivers the data and leaves what is behind the blank line unread if neither the total nor the number of
digits of a size wraps (`chunked_decoding_iff`). A size stands for what its digits stand for if it does
not wrap to another one that is not negative (`chunk_size_exact_iff`).
-/

namespace TrafficServer.ChunkedHandler

open List CInt StreamDecoder Relation

variable {h h₀ : ChunkedHandler} {arrived : Bytes}

/-! ### What is delivered -/

/-- What has arrived of a message is treated as it should be. A call ends, and unless it pauses for flow
control it has read up to the blank line, or all there is. -/
structure Faithful (M : ChunkedMessage) (h : ChunkedHandler) (arrived : Bytes) : Prop where
  no_error : h.state ≠ .readError
  buffer : ∃ l, h.dechunkedBuffer = some l ∧ l <+: M.data
  done : h.state = .readDone → h.dechunkedBuffer = some M.data ∧
    h.dechunkedSize = M.data.length ∧ arrived = M.bytes ++ h.unread
  ends : ∀ ahead, ∃ h', processChunkedContent ahead h = some h' ∧
    (h'.state ≠ .flowControl → (h'.state = .readDone ↔ M.bytes <+: arrived) ∧
      (h'.state ≠ .readDone → h'.unread = []))

/-- The message is treated so in every run in which it arrives, with any bytes behind it. -/
def Delivers (M : ChunkedMessage) : Prop :=
  ∀ (rest : Bytes) (h : ChunkedHandler) (arrived : Bytes),
    ReflTransGen Step (new, []) (h, arrived) → arrived <+: M.bytes ++ rest →
      Faithful M h arrived

theorem inv_new : new.Inv := ⟨by simp [new], nofun, nofun, ⟨nofun, nofun⟩, rfl⟩

theorem readSizeByte_buffer (h : ChunkedHandler) (c : UInt8) :
    (readSizeByte h c).1.dechunkedBuffer = h.dechunkedBuffer := by
  rw [readSizeByte]
  split
  case h_4 => rfl
  all_goals split_ifs <;> rfl

theorem readTrailerByte_buffer (h : ChunkedHandler) (c : UInt8) :
    (readTrailerByte h c).1.dechunkedBuffer = h.dechunkedBuffer := by
  rw [readTrailerByte]
  split_ifs <;> rfl

theorem feed_buffer (h : ChunkedHandler) (c : UInt8) :
    ∃ l, (feed h c).dechunkedBuffer = h.dechunkedBuffer.map (· ++ l) := by
  rw [feed]
  split
  case h_4 => split_ifs <;> exact ⟨[c], rfl⟩
  all_goals
    refine ⟨[], ?_⟩
    simp [readSizeByte_buffer, readTrailerByte_buffer]

theorem decode_buffer (h : ChunkedHandler) (bytes : Bytes) :
    ∃ l, (decode feed stopped h bytes).1.dechunkedBuffer = h.dechunkedBuffer.map (· ++ l) := by
  refine decode_induction (P := fun g : ChunkedHandler => ∃ l, g.dechunkedBuffer = h.dechunkedBuffer.map (· ++ l))
    (fun g c hg => ?_) ⟨[], by simp⟩ bytes
  obtain ⟨l, hl⟩ := hg
  obtain ⟨l', hl'⟩ := feed_buffer g c
  exact ⟨l ++ l', by rw [hl', hl]; simp [Function.comp_def]⟩

theorem state_of_core {s : ChunkedState} (h_core : h.core.state = s) (hs : s ≠ .readSizeStart) : h.state = s := by
  rw [core] at h_core
  by_cases hf : h.state = .flowControl
  · simp [hf, hs.symm] at h_core
  · simpa [hf] using h_core

theorem result_of_read (hend : h.unread = [] ∨ h.stopped = true) : h.result = (h.core, h.unread) := by
  by_cases hf : h.state = .flowControl
  · rcases hend with hend | hend
    · rw [result, hend, decode_nil]
    · rw [stopped, hf] at hend
      cases hend
  · exact result_of_end hend hf

section Message
variable {M : ChunkedMessage} {fin : ChunkedHandler} {rest tail : Bytes}

section Reached
variable (hfin : ∀ rest, decode feed stopped new (M.bytes ++ rest) = (fin, rest))
  (hr : Reached new (h, arrived)) (htail : arrived ++ tail = M.bytes ++ rest)
include hfin hr htail

theorem Reached.decode_left : decode feed stopped h.core (h.unread ++ tail) = (fin, rest) := by
  rw [decode_append, ← ChunkedHandler.result, hr.result, ← hfin rest, ← htail]
  exact (decode_append _ _ _).symm

theorem Reached.stopped_eq (hstop : h.core.stopped = true) : h.core = fin ∧ arrived = M.bytes ++ h.unread := by
  have hleft := hr.decode_left hfin htail
  rw [decode_of_stopped hstop, Prod.mk.injEq] at hleft
  refine ⟨hleft.1, append_cancel_right (?_ : arrived ++ tail = M.bytes ++ h.unread ++ tail)⟩
  rw [htail, ← hleft.2, append_assoc]

end Reached

end Message

theorem faithful_of_small {M : ChunkedMessage} (hsmall : M.data.length < 2 ^ 31)
    (hok : M.CountsDigits) : Delivers M := by
  intro rest h arrived hrun hprefix
  obtain ⟨tail, htail⟩ := hprefix
  obtain ⟨fin, hdone, hd, hfin⟩ := decode_message M hok
  have hr := Reached.run inv_new rfl hrun
  have hsize : fin.dechunkedSize = M.data.length := by rw [hd.size, toInt32_of_mem (by omega) (by omega)]
  -- a handler that has stopped has stopped at the end of the message
  have hstop {g : ChunkedHandler} (hg : Reached new (g, arrived)) (hs : g.core.stopped = true) :
      g.state = .readDone ∧ g.core = fin ∧ arrived = M.bytes ++ g.unread := by
    obtain ⟨hcore, harrived⟩ := hg.stopped_eq hfin htail hs
    exact ⟨state_of_core (by rw [hcore, hdone]) nofun, hcore, harrived⟩
  have hstopped {g : ChunkedHandler} (hs : g.state = .readDone ∨ g.state = .readError) : g.core.stopped = true := by
    rw [stopped, core]
    rcases hs with hs | hs <;> simp [hs]
  have hno {g : ChunkedHandler} (hg : Reached new (g, arrived)) : g.state ≠ .readError := by
    intro hs
    have := (hstop hg (hstopped (.inr hs))).1
    rw [hs] at this
    cases this
  refine ⟨hno hr, ?_, fun hs => ?_, fun ahead => ?_⟩
  · obtain ⟨l, hl⟩ := decode_buffer h.core (h.unread ++ tail)
    rw [hr.decode_left hfin htail, hd.buffer] at hl
    obtain ⟨l', hl', hl⟩ := Option.map_eq_some_iff.mp hl.symm
    exact ⟨l', hl', l, hl⟩
  · obtain ⟨-, hcore, harrived⟩ := hstop hr (hstopped (.inl hs))
    refine ⟨?_, ?_, harrived⟩
    · rw [← hd.buffer, ← hcore]
      rfl
    · rw [← hsize, ← hcore]
      rfl
  · obtain ⟨h', hprocess, hkept, hend⟩ := process_spec ahead hr.inv
    have hr' : Reached new (h', arrived) := hr.step (.process ahead arrived hprocess)
    refine ⟨h', hprocess, fun hflow => ⟨⟨fun hs => ?_, fun hpre => ?_⟩, fun hs => ?_⟩⟩
    · exact ⟨h'.unread, (hstop hr' (hstopped (.inl hs))).2.2.symm⟩
    · obtain ⟨x, rfl⟩ := hpre
      have hresult := (hend hflow).symm.trans hr'.result
      have hcore : h'.core = fin := congrArg Prod.fst (hresult.trans (hfin x))
      exact state_of_core (by rw [hcore, hdone]) nofun
    · by_contra hne
      have hleft : (decode feed stopped h'.core h'.unread).2 ≠ [] := by
        rw [← result, hend hflow]
        exact hne
      have hstop' := stopped_of_left hleft
      rw [← result, hend hflow] at hstop'
      exact hs (hstop hr' hstop').1

/-- **Every call ends, whatever bytes have come and how**, and unless it pauses for flow control it is
where those bytes lead one by one. -/
theorem process_decodes (hrun : ReflTransGen Step (new, []) (h, arrived))
    (ahead : ChunkedHandler → Nat × Nat) : ∃ h', processChunkedContent ahead h = some h' ∧
      (h'.state ≠ .flowControl → (h'.core, h'.unread) = decode feed stopped new arrived) := by
  have hr := Reached.run inv_new rfl hrun
  obtain ⟨h', hprocess, hkept, hend⟩ := process_spec ahead hr.inv
  exact ⟨h', hprocess, fun hflow => (hend hflow).symm.trans (hkept.result.symm.trans hr.result)⟩

/-- A chunk of three bytes in two blocks, and the end. -/
def abcBlocks : List Bytes := [strBytes "3\r\nab", strBytes "c\r\n0\r\n\r\n"]

theorem process_decodes_abc : ∃ h', processChunkedContent (fun _ => (0, 0)) { new with chunkedReader := abcBlocks } =
    some h' ∧ h'.state = .readDone ∧ (h'.core, h'.unread) = decode feed stopped new abcBlocks.flatten := by
  have hstate : (processChunkedContent (fun _ => (0, 0)) { new with chunkedReader := abcBlocks }).map (·.state) =
      some .readDone := by
    decide +kernel
  obtain ⟨h', hrun, hdecode⟩ :=
    process_decodes (.single (.arrive new [] abcBlocks.flatten abcBlocks (by decide +kernel) rfl)) fun _ => (0, 0)
  rw [hrun] at hstate
  have hdone : h'.state = .readDone := Option.some.inj hstate
  exact ⟨h', hrun, hdone, hdecode (by rw [hdone]; decide)⟩

theorem ChunkedMessage.bytes_ne_nil (M : ChunkedMessage) : M.bytes ≠ [] := by
  simp [ChunkedMessage.bytes, SizeLine.bytes]

theorem exists_run_message (M : ChunkedMessage) : ∃ h, ReflTransGen Step (new, []) (h, M.bytes) ∧
      h.core = (decode feed stopped new M.bytes).1 ∧ h.state ≠ .flowControl := by
  obtain ⟨h, hrun, hdecode, hflow⟩ := exists_run inv_new rfl nofun M.bytes_ne_nil
  exact ⟨h, hrun, congrArg Prod.fst hdecode, hflow⟩

theorem exists_run_total (M : ChunkedMessage) (hok : M.CountsDigits) :
    ∃ h, ReflTransGen Step (new, []) (h, M.bytes) ∧ h.state = .readDone ∧
      h.dechunkedBuffer = some M.data ∧ h.dechunkedSize = toInt32 M.data.length := by
  obtain ⟨h, hrun, hcore, -⟩ := exists_run_message M
  obtain ⟨fin, hdone, hd, hfin⟩ := decode_message M hok
  have hdecode := hfin []
  rw [append_nil] at hdecode
  rw [hdecode] at hcore
  dsimp only at hcore
  refine ⟨h, hrun, state_of_core (by rw [hcore, hdone]) nofun, ?_, ?_⟩
  · rw [← hd.buffer, ← hcore]
    rfl
  · rw [← hd.size, ← hcore]
    rfl

/-- **Which messages are delivered**: those for which neither the total nor the number of the digits of
a size wraps. -/
theorem chunked_decoding_iff (M : ChunkedMessage) : Delivers M ↔ M.data.length < 2 ^ 31 ∧ M.CountsDigits := by
  refine ⟨fun hM => ?_, fun ⟨hsmall, hok⟩ => faithful_of_small hsmall hok⟩
  have hpre : M.bytes <+: M.bytes ++ [] := ⟨[], rfl⟩
  have hok : M.CountsDigits := by
    by_contra hbad
    obtain ⟨h, hrun, hcore, -⟩ := exists_run_message M
    refine (hM [] h M.bytes hrun hpre).no_error (state_of_core ?_ nofun)
    rw [hcore, decode_message_error M hbad]
  refine ⟨?_, hok⟩
  obtain ⟨h, hrun, hs, -, hsize⟩ := exists_run_total M hok
  have htotal := ((hM [] h M.bytes hrun hpre).done hs).2.1
  have hlt := toInt32_lt M.data.length
  omega

def gigaChunk : Chunk where
  line := ⟨52 :: List.replicate 7 48, [], by decide +kernel, nofun, nofun⟩
  data := List.replicate (2 ^ 30) 0
  size_eq := by
    rw [List.length_replicate]
    decide
  nonempty := by
    rw [ne_eq, List.replicate_eq_nil_iff]
    decide
  small := by
    rw [List.length_replicate]
    decide

def gigaMessage : ChunkedMessage where
  chunks := [gigaChunk, gigaChunk]
  last := ⟨[48], [], by decide +kernel, nofun, nofun⟩
  last_digits := by decide
  last_size := by decide
  trailers := []
  trailer_line := nofun

theorem dechunked_size_wraps : ∃ h, ReflTransGen Step (new, []) (h, gigaMessage.bytes) ∧
    h.state = .readDone ∧ h.dechunkedBuffer = some gigaMessage.data ∧
    gigaMessage.data.length = 2 ^ 31 ∧ h.dechunkedSize = -2 ^ 31 := by
  have hlen : gigaMessage.data.length = 2 ^ 31 := by
    have hchunk : gigaChunk.data.length = 2 ^ 30 := length_replicate
    have hchunks : gigaMessage.chunks = [gigaChunk, gigaChunk] := rfl
    rw [ChunkedMessage.data, hchunks, flatMap_cons, flatMap_singleton, length_append, hchunk]
    norm_num
  have hok : gigaMessage.CountsDigits := by
    rw [ChunkedMessage.countsDigits_iff]
    refine ⟨fun c hc => ?_, by decide⟩
    obtain rfl : c = gigaChunk := by simpa [gigaMessage] using hc
    rw [Chunk.accepted_iff]
    decide
  obtain ⟨h, hrun, hs, hbuffer, hsize⟩ := exists_run_total gigaMessage hok
  refine ⟨h, hrun, hs, hbuffer, hlen, ?_⟩
  rw [hsize, hlen]
  decide

/-! ### What a size stands for -/

/-- The size line, wherever it comes and however it is cut, is an error or stands for the number that
its digits stand for. -/
def SizeExact (line : SizeLine) : Prop :=
  ∀ h₀ : ChunkedHandler, AtSize h₀ → h₀.chunkedReader = [] →
    ∀ h, ReflTransGen Step (h₀, []) (h, line.bytes) → h.unread = [] ∨ h.stopped = true →
      h.state = .readError ∨ h.bytesLeft = line.size ∧
        h.state = if line.size = 0 then .readTrailerBlank else .readChunk

theorem AtSize.inv (ha : AtSize h) (hr : h.chunkedReader = []) : h.Inv := by
  refine ⟨by simp [hr], ?_, ?_, ?_, ha.total⟩ <;> rw [ha.state] <;> simp

theorem AtSize.core (ha : AtSize h) : AtSize h.core := by
  refine ⟨?_, ha.sum, ha.digits, ha.total⟩
  simp [ChunkedHandler.core, ha.state]

theorem reached_sizeLine {line : SizeLine} (ha : AtSize h₀) (hr : Reached h₀ (h, line.bytes))
    (hend : h.unread = [] ∨ h.stopped = true) : if line.Accepted then h.bytesLeft = toInt32 line.size ∧
      h.state = if toInt32 line.size = 0 then .readTrailerBlank else .readChunk else h.state = .readError := by
  have hline := decode_sizeLine ha.core line []
  rw [append_nil, ← show h.result = _ from hr.result, result_of_read hend] at hline
  split at hline
  · next hok =>
    rw [if_pos hok]
    have hcore : h.core = h₀.core.afterSize line := congrArg Prod.fst hline
    refine ⟨?_, state_of_core ?_ ?_⟩
    · calc h.bytesLeft = h.core.bytesLeft := rfl
        _ = toInt32 line.size := by rw [hcore, afterSize]
    · rw [hcore, afterSize]
    · split <;> exact ChunkedState.noConfusion
  · next hbad =>
    rw [if_neg hbad]
    obtain ⟨left, hline⟩ := hline
    have hcore : h.core = _ := congrArg Prod.fst hline
    exact state_of_core (by rw [hcore]) ChunkedState.noConfusion

theorem exists_run_size (line : SizeLine) (hok : line.Accepted) :
    ∃ h, ReflTransGen Step (new, []) (h, line.bytes) ∧ h.unread = [] ∧ h.bytesLeft = toInt32 line.size ∧
      h.state = if toInt32 line.size = 0 then .readTrailerBlank else .readChunk := by
  have hne : line.bytes ≠ [] := by simp [SizeLine.bytes]
  obtain ⟨h, hrun, hdecode, -⟩ := exists_run inv_new rfl ChunkedState.noConfusion hne
  have hunread : h.unread = [] := by
    have hline := decode_sizeLine atSize_new.core line []
    rw [if_pos hok, append_nil, ← hdecode] at hline
    exact congrArg Prod.snd hline
  have hreached := reached_sizeLine atSize_new (Reached.run inv_new rfl hrun) (.inl hunread)
  rw [if_pos hok] at hreached
  exact ⟨h, hrun, hunread, hreached⟩

/-- **Which size lines are exact**: those with a value that is an `int`, and those that are taken for an
error because the value wraps to a negative `int` or the number of digits to 0. -/
theorem chunk_size_exact_iff (line : SizeLine) : SizeExact line ↔
      line.size < 2 ^ 31 ∨ 2 ^ 31 ≤ line.size % 2 ^ 32 ∨ line.digits.length % 2 ^ 32 = 0 := by
  refine ⟨fun hexact => ?_, fun hcases h₀ ha hreader h hrun hend => ?_⟩
  · by_contra hcon
    push Not at hcon
    obtain ⟨hbig, hwrap, hdigits⟩ := hcon
    obtain ⟨h, hrun, hunread, hleft, hstate⟩ := exists_run_size line ⟨hdigits, hwrap⟩
    rcases hexact new atSize_new rfl h hrun (.inl hunread) with herror | ⟨hleft', -⟩
    · rw [herror] at hstate
      split at hstate <;> cases hstate
    · have := toInt32_lt line.size
      omega
  · have hempty : h₀.unread = [] := by rw [unread, hreader]; rfl
    have hreached := reached_sizeLine ha (Reached.run (ha.inv hreader) hempty hrun) hend
    split at hreached
    · next hok =>
      obtain ⟨hdigits, hwrap⟩ := hok
      have hsize : toInt32 line.size = line.size := toInt32_of_mem (by omega) (by omega)
      rw [hsize] at hreached
      refine .inr ⟨hreached.1, ?_⟩
      rw [hreached.2]
      simp
    · exact .inl hreached

def hugeSize : SizeLine := ⟨49 :: List.replicate 8 48, [], by decide +kernel, nofun, nofun⟩

theorem huge_chunk_is_last : ∃ h, ReflTransGen Step (new, []) (h, hugeSize.bytes) ∧
    h.unread = [] ∧ hugeSize.size = 2 ^ 32 ∧ h.bytesLeft = 0 ∧ h.state = .readTrailerBlank := by
  have hsize : hugeSize.size = 2 ^ 32 := by decide +kernel
  obtain ⟨h, hrun, hunread, hleft, hstate⟩ := exists_run_size hugeSize (by decide +kernel)
  have hzero : toInt32 hugeSize.size = 0 := by
    rw [hsize]
    decide
  rw [hzero] at hleft hstate
  exact ⟨h, hrun, hunread, hsize, hleft, hstate⟩

end TrafficServer.ChunkedHandler
