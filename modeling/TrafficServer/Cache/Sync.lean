import Mathlib.Logic.Relation
import TrafficServer.Cache.Part
import TrafficServer.Lib.TwoSlot

/-!
# The two directory copies on disk

`CacheSync::mainEvent` writes the directory to copy A or B by the parity of its serial number: the
header block, the body in chunks, the footer block. At a restart `handle_header_read` reads the four
header and footer blocks, selects a copy, and recovery may write the directory once more.

A byte of a copy is known by the directory write that put it there (`DirImage`): what the write
stored at an offset is what the directory had there at the time, so the number of the write says it
all but for the fields that these functions read.
-/

namespace TrafficServer

open TwoSlot (write)

def syncMaxWrite : Nat := 2 * 1024 * 1024

/-- `ROUND_TO_BLOCK(sizeof(PartHeaderFooter))`, the length of a header or footer block, and
`part_dirlen`. -/
structure DirArea where
  headerlen : Nat
  dirlen : Nat
  headerlen_pos : 0 < headerlen
  body_pos : 2 * headerlen < dirlen

namespace DirArea

def sizeofPartHeaderFooter : Nat := 72

def ofGeometry (geo : Geometry) : DirArea where
  headerlen := roundTo sizeofPartHeaderFooter inkBlockSize
  dirlen := roundTo (geo.buckets * dirDepth * geo.segments * 10) inkBlockSize +
    roundTo (sizeofPartHeaderFooter + 2 * (geo.segments - 1)) inkBlockSize +
    roundTo sizeofPartHeaderFooter inkBlockSize
  headerlen_pos := by decide
  body_pos := by
    have hentries : 0 < geo.buckets * dirDepth * geo.segments * 10 :=
      Nat.mul_pos (Nat.mul_pos (Nat.mul_pos geo.buckets_pos (by decide)) geo.segments_pos) (by decide)
    have hblock : 0 < inkBlockSize := by decide
    have hdir := hentries.trans_le (roundTo_spec hblock).2.1
    obtain ⟨hdvd, hheader, -⟩ :=
      roundTo_spec (x := sizeofPartHeaderFooter + 2 * (geo.segments - 1)) hblock
    have hfree := Nat.le_of_dvd (Nat.lt_of_lt_of_le (Nat.add_pos_left (by decide) _) hheader) hdvd
    rw [Nat.two_mul]
    exact Nat.add_lt_add_right (hfree.trans_lt (Nat.lt_add_of_pos_left hdir)) _

variable (g : DirArea)

def footer : Nat := g.dirlen - g.headerlen

end DirArea

/-- The directory in memory at the time of a write: the number of the write, and what its header and
footer say. -/
structure DirImage where
  write : Nat
  syncSerial : Nat
  magic : Bool
deriving DecidableEq, Repr

def copyOf (syncSerial : Nat) : Bool := syncSerial % 2 = 1

/-- The state of the process that has the partition. `up` has the serial number in memory and the
`writepos` and `buf` of the sync. -/
inductive SyncMode
  | down
  | clearing (raw : DirImage)
  | recovering (raw : DirImage) (writes : Nat)
  | up (syncSerial writepos : Nat) (buf : DirImage)

/-- The two copies, and what was written to them last. -/
structure DirStore where
  disk : Bool → Nat → DirImage
  nextWrite : Nat
  completed : Option DirImage
  mode : SyncMode

def handleHeaderRead (hf₀ hf₁ hf₂ hf₃ : Nat) : Option Bool :=
  if hf₀ = hf₁ ∧ (hf₀ ≥ hf₂ ∨ hf₂ ≠ hf₃) then some false
  else if hf₂ = hf₃ then some true
  else none

/-- The serial number that recovery gives the directory; `max` is the greatest one it has seen. -/
def nextSyncSerial (syncSerial max : Nat) : Nat :=
  let next := (max + 1) % 2 ^ 32
  if copyOf syncSerial = copyOf next then (next + 1) % 2 ^ 32 else next

namespace DirStore
variable (g : DirArea) (s : DirStore)

def selected : Option Bool :=
  handleHeaderRead (s.disk false 0).syncSerial (s.disk false g.footer).syncSerial
    (s.disk true 0).syncSerial (s.disk true g.footer).syncSerial

/-- One call of `mainEvent` that finds the partition's lock free, up to the write that it issues.
`dirty` is the flag in the header, and `busy` that a write is in progress or the aggregation buffer
is not empty. -/
def mainEvent (dirty busy : Bool) (syncSerial writepos : Nat) (buf : DirImage) : DirStore :=
  if writepos = 0 then
    if !dirty || busy then s
    else
      let syncSerial := (syncSerial + 1) % 2 ^ 32
      let buf := ⟨s.nextWrite, syncSerial, true⟩
      { s with
        disk := write s.disk (copyOf syncSerial) 0 g.headerlen buf
        nextWrite := s.nextWrite + 1
        mode := .up syncSerial g.headerlen buf }
  else if writepos < g.dirlen - g.headerlen then
    let l :=
      if writepos + syncMaxWrite > g.dirlen - g.headerlen then g.dirlen - g.headerlen - writepos
      else syncMaxWrite
    { s with
      disk := write s.disk (copyOf syncSerial) writepos l buf
      mode := .up syncSerial (writepos + l) buf }
  else if writepos < g.dirlen then
    { s with
      disk := write s.disk (copyOf syncSerial) writepos g.headerlen buf
      mode := .up syncSerial (writepos + g.headerlen) buf
      -- the footer is the last of its writes
      completed := some buf }
  else { s with mode := .up syncSerial 0 buf }

def clearDir : DirStore :=
  let raw := ⟨s.nextWrite, 0, true⟩
  { s with
    disk := write s.disk false 0 g.dirlen raw
    nextWrite := s.nextWrite + 1
    mode := .clearing raw }

/-- `handle_dir_clear`, when copy A is written: the header block of copy B. -/
def handleDirClear (raw : DirImage) : DirStore :=
  { s with
    disk := write s.disk true 0 g.headerlen raw
    mode := .up 0 0 raw }

/-- `handle_recover_from_data` with the directory of copy `c`: `wrapped` that it comes back to the
write position and has nothing to recover, and `max` is `max_sync_serial` at `Ldone`. -/
def handleRecoverFromData (wrapped : Bool) (max : Nat) (c : Bool) : DirStore :=
  let header := s.disk c 0
  if header.syncSerial = 0 then { s with mode := .up 0 0 header }
  else if wrapped then { s with mode := .up header.syncSerial 0 header }
  else
    { s with
      nextWrite := s.nextWrite + 1
      mode := .recovering ⟨s.nextWrite, nextSyncSerial header.syncSerial max, true⟩ 0 }

/-- From `init` to the end of recovery: the selected copy is read and, if it has the magic numbers,
recovered. -/
def restart (wrapped : Bool) (max : Nat) : DirStore :=
  match s.selected g with
  | none => s.clearDir g
  | some c =>
    if (s.disk c 0).magic && (s.disk c g.footer).magic then s.handleRecoverFromData wrapped max c
    else s.clearDir g

/-- The offset of write `i` of the three that recovery issues, and the length. -/
def recoverRange : Nat → Nat × Nat
  | 0 => (0, g.headerlen)
  | 1 => (g.headerlen, g.dirlen - 2 * g.headerlen)
  | _ => (g.dirlen - g.headerlen, g.headerlen)

/-- The next write of a recovered directory, and after the last one `handle_recover_write_dir`. -/
def recoverWrite (raw : DirImage) (writes : Nat) : DirStore :=
  { s with
    disk := write s.disk (copyOf raw.syncSerial) (recoverRange g writes).1 (recoverRange g writes).2
      raw
    mode := if writes < 2 then .recovering raw (writes + 1) else .up raw.syncSerial 0 raw
    completed := if writes < 2 then s.completed else some raw }

/-- One event. A crash can come between any two writes; serial numbers do not wrap. -/
inductive Step : DirStore → DirStore → Prop
  | sync (s : DirStore) (dirty busy : Bool) (syncSerial writepos : Nat) (buf : DirImage)
      (hmode : s.mode = .up syncSerial writepos buf) (hwrap : syncSerial + 1 < 2 ^ 32) :
      Step s (s.mainEvent g dirty busy syncSerial writepos buf)
  | crash (s : DirStore) : Step s { s with mode := .down }
  | restart (s : DirStore) (wrapped : Bool) (max : Nat) (hmode : s.mode = .down)
      (hmax : ∀ c, s.selected g = some c → (s.disk c 0).syncSerial ≤ max)
      (hwrap : max + 2 < 2 ^ 32) : Step s (s.restart g wrapped max)
  | recoverWrite (s : DirStore) (raw : DirImage) (writes : Nat)
      (hmode : s.mode = .recovering raw writes) : Step s (s.recoverWrite g raw writes)
  | dirClear (s : DirStore) (raw : DirImage) (hmode : s.mode = .clearing raw) :
      Step s (s.handleDirClear g raw)

end DirStore

end TrafficServer
