import Mathlib.Algebra.Group.Nat.Defs
import Mathlib.Data.List.Pairwise
import Mathlib.Data.Set.Defs
import Mathlib.Order.Basic

/-!
# Log buffers

A `LogBuffer` is filled by many threads at once. Where the next entry goes, how many entries and bytes
there are, whether the buffer is full and how many threads still write to it stand in one 64-bit word
(`LB_State`), which `checkout_write` and `checkin_write` change by a compare-and-swap. This module has
the word, what one turn of the loops of the two functions computes from the word it has read, and the
invariant of a single buffer: the entries lie one after the other behind the header, and the counters
of the word say how many there are and where they end.

The offset and the byte count have sixteen bits. The invariant therefore needs a buffer of less than
64 KB whose header ends below 64 KB (`Params.Sound`), or one in which no entry has room.
-/

namespace TrafficServer

open Option List

namespace Log

/-- `sizeof(LogEntryHeader)`: two `long` and an `unsigned`. -/
def sizeofLogEntryHeader : Nat := 24

/-- `MIN_ALIGN`; `m_write_align_mask` is `MIN_ALIGN - 1`. -/
def minAlign : Nat := 8

structure LBState where
  /-- 16 bits -/
  offset : Nat
  /-- 16 bits -/
  numEntries : Nat
  /-- 16 bits -/
  byteCount : Nat
  full : Bool
  /-- 15 bits -/
  numWriters : Nat
deriving DecidableEq, Repr

inductive LBResultCode
  | ok
  | fullNoWriters
  | fullActiveWriters
  | retry
  | allWritersDone
  | busy
  | bufferTooSmall
deriving DecidableEq, Repr

/-- What the constructor of a buffer of at most 64 KB is given: the size, the length of the header
that `_add_buffer_header` has laid down, rounded up to the alignment, and `max_entries_per_buffer`. -/
structure Params where
  size : Nat
  hdrSize : Nat
  maxEntries : Int
  size_le : size ≤ 2 ^ 16
  aligned : minAlign ∣ hdrSize

/-- The size of an entry that a thread has in memory. -/
abbrev WriteSize : Type := { n : Nat // n < 2 ^ 63 }

/-- `actual_write_size`: the entry and its header, rounded up to the alignment. -/
def actualWriteSize (writeSize : WriteSize) : Nat :=
  (writeSize.val + sizeofLogEntryHeader + (minAlign - 1)) % 2 ^ 64 / minAlign * minAlign

variable {ret : LBResultCode} {request : Option WriteSize} {p : Params}

theorem le_actualWriteSize (w : WriteSize) : sizeofLogEntryHeader + w.val ≤ actualWriteSize w := by
  simp only [actualWriteSize, sizeofLogEntryHeader, minAlign]
  omega

theorem actualWriteSize_lt (w : WriteSize) : actualWriteSize w < 2 ^ 63 + 32 := by
  simp only [actualWriteSize, sizeofLogEntryHeader, minAlign]
  omega

/-! ### One turn of the loops -/

/-- What a turn of the loop of `checkout_write` has come to before its compare-and-swap: it leaves the
loop at once, or tries to put a new word in the place of the one it has read. -/
inductive Attempt
  | leave (ret : LBResultCode)
  | switch (new : LBState) (ret : LBResultCode)
deriving DecidableEq, Repr

/-- The word once the buffer is set to full, and the code that says who has to flush it. -/
def setFull (old : LBState) : Attempt :=
  .switch { old with full := true }
    (if old.numWriters ≠ 0 then .fullActiveWriters else .fullNoWriters)

/-- A turn of the loop of `LogBuffer::checkout_write`; the request is `none` if `write_offset` is
null. -/
def checkoutWrite (p : Params) (request : Option WriteSize) (old : LBState) : Attempt :=
  if old.full then .leave .retry
  else
    match request with
    | some writeSize =>
      if (old.numEntries : Int) < p.maxEntries ∧
          (old.offset + actualWriteSize writeSize) % 2 ^ 64 ≤ p.size then
        .switch
          { old with
            numWriters := (old.numWriters + 1) % 2 ^ 15
            offset := (old.offset + actualWriteSize writeSize) % 2 ^ 16
            numEntries := (old.numEntries + 1) % 2 ^ 16
            byteCount := (old.byteCount + actualWriteSize writeSize) % 2 ^ 16 } .ok
      else if old.numEntries = 0 then .switch old .bufferTooSmall
      else setFull old
    | none => if old.numEntries ≠ 0 then setFull old else .leave .ok

/-- A turn of the loop of `LogBuffer::checkin_write`; `ret` is `ret_val` as the turn before has left
it. -/
def checkinWrite (old : LBState) (ret : LBResultCode) : LBState × LBResultCode :=
  let new := { old with numWriters := (old.numWriters + (2 ^ 15 - 1)) % 2 ^ 15 }
  (new, if new.numWriters = 0 then (if old.full then .allWritersDone else .ok) else ret)

/-! ### A buffer and its history -/

/-- The place that a successful checkout has handed out. -/
structure Handed where
  offset : Nat
  writeSize : WriteSize
deriving DecidableEq

/-- The end of the bytes that belong to the entry, its header and the padding included. -/
def Handed.stop (h : Handed) : Nat := h.offset + actualWriteSize h.writeSize

/-- `LogBuffer`, with the places handed out in it, and `entry_count` and `byte_count` as
`update_header_data` has written them to the header. -/
structure LogBuffer where
  params : Params
  state : LBState
  handed : List Handed
  header : Option (Nat × Nat)

namespace LogBuffer

def new (p : Params) : LogBuffer where
  params := p
  state := ⟨p.hdrSize % 2 ^ 16, 0, p.hdrSize % 2 ^ 16, false, 0⟩
  handed := []
  header := none

def switchState (b : LogBuffer) (state : LBState) : LogBuffer := { b with state := state }

def recordHanded (b : LogBuffer) (request : Option WriteSize) (offset : Nat) (ret : LBResultCode) :
    LogBuffer :=
  match request, ret with
  | some writeSize, .ok => { b with handed := b.handed ++ [⟨offset, writeSize⟩] }
  | _, _ => b

def updateHeaderData (b : LogBuffer) : LogBuffer :=
  { b with header := some (b.state.numEntries, b.state.byteCount) }

def endOffset (b : LogBuffer) : Nat := (b.handed.getLast?.map Handed.stop).getD b.params.hdrSize

section Fields
variable (b : LogBuffer) (state : LBState) (request : Option WriteSize) (offset : Nat)
  (ret : LBResultCode)

@[simp] theorem switchState_params : (b.switchState state).params = b.params := rfl
@[simp] theorem switchState_state : (b.switchState state).state = state := rfl
@[simp] theorem switchState_handed : (b.switchState state).handed = b.handed := rfl
@[simp] theorem updateHeaderData_handed : b.updateHeaderData.handed = b.handed := rfl
@[simp] theorem recordHanded_params : (b.recordHanded request offset ret).params = b.params := by
  unfold recordHanded
  split <;> rfl

@[simp] theorem recordHanded_state : (b.recordHanded request offset ret).state = b.state := by
  unfold recordHanded
  split <;> rfl

@[simp] theorem recordHanded_ok (w : WriteSize) :
    (b.recordHanded (some w) offset .ok).handed = b.handed ++ [⟨offset, w⟩] := rfl

theorem recordHanded_of_ne (h : ret ≠ .ok) : b.recordHanded request offset ret = b := by
  unfold recordHanded
  split
  · exact absurd rfl h
  · rfl

end Fields

end LogBuffer

/-! ### What a turn can do -/

theorem checkinWrite_cases {old new : LBState} (h : checkinWrite old .ok = (new, ret)) :
    new = { old with numWriters := (old.numWriters + (2 ^ 15 - 1)) % 2 ^ 15 } ∧
      (ret = .allWritersDone ∧ new.numWriters = 0 ∧ old.full = true ∨
        ret = .ok ∧ ¬(new.numWriters = 0 ∧ old.full = true)) := by
  obtain ⟨rfl, rfl⟩ := h
  refine ⟨rfl, ?_⟩
  split_ifs <;> simp_all

theorem checkoutWrite_cases {old new : LBState} (h : checkoutWrite p request old = .switch new ret) :
    old.full = false ∧
    ((∃ w, request = some w ∧ ret = .ok ∧ (old.numEntries : Int) < p.maxEntries ∧
        (old.offset + actualWriteSize w) % 2 ^ 64 ≤ p.size ∧
        new = { old with
          numWriters := (old.numWriters + 1) % 2 ^ 15
          offset := (old.offset + actualWriteSize w) % 2 ^ 16
          numEntries := (old.numEntries + 1) % 2 ^ 16
          byteCount := (old.byteCount + actualWriteSize w) % 2 ^ 16 }) ∨
      (ret = .bufferTooSmall ∧ new = old) ∨
      (old.numEntries ≠ 0 ∧ ret = (if old.numWriters ≠ 0 then .fullActiveWriters else .fullNoWriters) ∧
        new = { old with full := true })) := by
  unfold checkoutWrite at h
  split at h
  · cases h
  rename_i hfull
  refine ⟨by simpa using hfull, ?_⟩
  split at h
  · rename_i w
    split at h
    · rename_i hroom
      injection h with hnew hret
      exact .inl ⟨w, rfl, hret.symm, hroom.1, hroom.2, hnew.symm⟩
    split at h
    · injection h with hnew hret
      exact .inr (.inl ⟨hret.symm, hnew.symm⟩)
    · rename_i hentries
      injection h with hnew hret
      exact .inr (.inr ⟨hentries, hret.symm, hnew.symm⟩)
  · split at h
    · rename_i hentries
      injection h with hnew hret
      exact .inr (.inr ⟨hentries, hret.symm, hnew.symm⟩)
    · cases h

theorem checkoutWrite_leave {old : LBState} (h : checkoutWrite p request old = .leave ret) :
    ret = .retry ∨ (request = none ∧ ret = .ok) := by
  unfold checkoutWrite setFull at h
  split at h
  · injection h with hret
    exact .inl hret.symm
  split at h
  · split at h
    · cases h
    · split at h <;> cases h
  · split at h
    · cases h
    · injection h with hret
      exact .inr ⟨rfl, hret.symm⟩

/-! ### The invariant of one buffer -/

/-- The limit up to which the sixteen bits of the offset do not overflow; it does not matter if no
entry has room in the buffer. -/
def Params.Sound (p : Params) : Prop :=
  p.maxEntries ≤ 0 ∨ p.size < p.hdrSize % 2 ^ 16 + sizeofLogEntryHeader ∨
    (p.size < 2 ^ 16 ∧ p.hdrSize < 2 ^ 16)

namespace LogBuffer

/-- The entries lie one after the other behind the header, and the counters tell their number and
their end. -/
structure WF (b : LogBuffer) : Prop where
  sound : b.params.Sound
  behind : ∀ h ∈ b.handed, b.params.hdrSize ≤ h.offset
  ordered : b.handed.Pairwise fun h k => h.stop ≤ k.offset
  below : ∀ h ∈ b.handed, h.stop ≤ b.state.offset
  offset_eq : b.state.offset =
    (b.handed.getLast?.map Handed.stop).getD (b.params.hdrSize % 2 ^ 16)
  byteCount_eq : b.state.byteCount = b.state.offset
  numEntries_eq : b.state.numEntries = b.handed.length
  room : sizeofLogEntryHeader * b.state.numEntries ≤ b.state.offset
  numWriters_le : b.state.numWriters ≤ b.state.numEntries
  nonempty : b.state.full = true → b.state.numEntries ≠ 0
  fits : b.handed ≠ [] →
    b.state.offset ≤ b.params.size ∧ b.params.size < 2 ^ 16 ∧ b.params.hdrSize < 2 ^ 16

namespace WF

theorem new (hp : p.Sound) : (LogBuffer.new p).WF where
  sound := hp
  behind := fun _ hh => absurd hh not_mem_nil
  ordered := List.Pairwise.nil
  below := fun _ hh => absurd hh not_mem_nil
  offset_eq := rfl
  byteCount_eq := rfl
  numEntries_eq := rfl
  room := Nat.zero_le _
  numWriters_le := Nat.le_refl _
  nonempty := fun hfull => nomatch hfull
  fits := fun h => absurd rfl h

variable {b : LogBuffer}

theorem offset_lt (hb : b.WF) : b.state.offset < 2 ^ 16 := by
  by_cases hne : b.handed = []
  · have hoff := hb.offset_eq
    rw [hne] at hoff
    simp only [getLast?_nil, map_none, getD_none] at hoff
    omega
  · have hfits := hb.fits hne
    omega

theorem numWriters_lt (h : b.WF) : b.state.numWriters + 1 < 2 ^ 15 := by
  have hwriters := h.numWriters_le
  have hroom := h.room
  have hoffset := h.offset_lt
  simp only [sizeofLogEntryHeader] at hroom
  omega

theorem sound_of_room (hb : b.WF) {w : WriteSize} (hmax : (b.state.numEntries : Int) < b.params.maxEntries)
    (hroom : (b.state.offset + actualWriteSize w) % 2 ^ 64 ≤ b.params.size) :
    b.state.offset + actualWriteSize w ≤ b.params.size ∧ b.params.size < 2 ^ 16 ∧ b.params.hdrSize < 2 ^ 16 := by
  have hoff := hb.offset_lt
  have hle := le_actualWriteSize w
  have hlt := actualWriteSize_lt w
  have hstart : b.params.hdrSize % 2 ^ 16 ≤ b.state.offset ∨ b.handed ≠ [] := by
    by_cases hne : b.handed = []
    · left
      rw [hb.offset_eq, hne]
      exact Nat.le_refl _
    · exact Or.inr hne
  have hsum : b.state.offset + actualWriteSize w ≤ b.params.size := by omega
  refine ⟨hsum, ?_⟩
  rcases hstart with hstart | hne
  · rcases hb.sound with h | h | h
    · omega
    · omega
    · exact h
  · exact (hb.fits hne).2

theorem checkout (hb : b.WF) {w : WriteSize} (hmax : (b.state.numEntries : Int) < b.params.maxEntries)
    (hroom : (b.state.offset + actualWriteSize w) % 2 ^ 64 ≤ b.params.size) : ((b.switchState { b.state with
        numWriters := (b.state.numWriters + 1) % 2 ^ 15
        offset := (b.state.offset + actualWriteSize w) % 2 ^ 16
        numEntries := (b.state.numEntries + 1) % 2 ^ 16
        byteCount := (b.state.byteCount + actualWriteSize w) % 2 ^ 16 }).recordHanded
      (some w) b.state.offset .ok).WF := by
  obtain ⟨hsum, hsize, hhdr⟩ := hb.sound_of_room hmax hroom
  have hle := le_actualWriteSize w
  have hentries := hb.room
  have hwriters := hb.numWriters_le
  have hbytes := hb.byteCount_eq
  simp only [sizeofLogEntryHeader] at hle hentries
  have hoffset : (b.state.offset + actualWriteSize w) % 2 ^ 16 =
      b.state.offset + actualWriteSize w := Nat.mod_eq_of_lt (by omega)
  have hbehind : b.params.hdrSize ≤ b.state.offset := by
    rw [hb.offset_eq]
    cases hlast : b.handed.getLast? with
    | none =>
      simp only [map_none, getD_none]
      omega
    | some h =>
      have hmem := hb.behind h (mem_of_getLast? hlast)
      simp only [map_some, getD_some, Handed.stop]
      omega
  constructor
  case sound => simpa using hb.sound
  case behind =>
    intro h hh
    simp only [recordHanded_ok, switchState_handed, mem_append, mem_singleton] at hh
    rcases hh with hh | rfl
    · simpa using hb.behind h hh
    · simpa using hbehind
  case ordered =>
    simp only [recordHanded_ok, switchState_handed]
    rw [pairwise_append]
    refine ⟨hb.ordered, pairwise_singleton _ _, ?_⟩
    intro h hh k hk
    rw [mem_singleton] at hk
    subst hk
    exact hb.below h hh
  case below =>
    intro h hh
    simp only [recordHanded_ok, switchState_handed, mem_append, mem_singleton] at hh
    simp only [recordHanded_state, switchState_state, hoffset]
    rcases hh with hh | rfl
    · have hbelow := hb.below h hh
      omega
    · exact Nat.le_refl _
  case offset_eq =>
    simp only [recordHanded_state, switchState_state, hoffset, recordHanded_ok, Handed.stop,
      getLast?_append, getLast?_singleton, some_or, map_some, getD_some]
  case byteCount_eq => simp only [recordHanded_state, switchState_state, hbytes]
  case numEntries_eq =>
    have hlen := hb.numEntries_eq
    simp only [recordHanded_state, switchState_state, recordHanded_ok, switchState_handed,
      length_append, length_singleton]
    omega
  case room =>
    simp only [recordHanded_state, switchState_state, hoffset, sizeofLogEntryHeader]
    omega
  case numWriters_le =>
    simp only [recordHanded_state, switchState_state]
    omega
  case nonempty =>
    intro _
    simp only [recordHanded_state, switchState_state]
    omega
  case fits =>
    intro hne
    simp only [recordHanded_state, switchState_state, recordHanded_params, switchState_params, hoffset]
    exact ⟨hsum, hsize, hhdr⟩

theorem switchState (hb : b.WF) (state : LBState) (hoffset : state.offset = b.state.offset)
    (hentries : state.numEntries = b.state.numEntries) (hbytes : state.byteCount = b.state.byteCount)
    (hwriters : state.numWriters ≤ b.state.numWriters)
    (hfull : state.full = true → b.state.numEntries ≠ 0) : (b.switchState state).WF where
  sound := hb.sound
  behind := hb.behind
  ordered := hb.ordered
  below := by simpa [hoffset] using hb.below
  offset_eq := by simpa [hoffset] using hb.offset_eq
  byteCount_eq := by simpa [hoffset, hbytes] using hb.byteCount_eq
  numEntries_eq := by simpa [hentries] using hb.numEntries_eq
  room := by simpa [hoffset, hentries] using hb.room
  numWriters_le := by
    simp only [switchState_state, hentries]
    exact Nat.le_trans hwriters hb.numWriters_le
  nonempty := by simpa [hentries] using hfull
  fits := by simpa [hoffset] using hb.fits

theorem updateHeaderData (hb : b.WF) : b.updateHeaderData.WF :=
  ⟨hb.sound, hb.behind, hb.ordered, hb.below, hb.offset_eq, hb.byteCount_eq, hb.numEntries_eq,
    hb.room, hb.numWriters_le, hb.nonempty, hb.fits⟩

theorem endOffset_eq (hb : b.WF) (hfull : b.state.full = true) : b.endOffset = b.state.offset := by
  have hne : b.handed ≠ [] := by
    have hentries := hb.nonempty hfull
    rw [hb.numEntries_eq] at hentries
    exact ne_nil_of_length_pos (Nat.pos_of_ne_zero hentries)
  rw [hb.offset_eq, endOffset, getLast?_eq_some_getLast hne]
  rfl

end WF

end LogBuffer

end Log

end TrafficServer
