import TrafficServer.Cache.Directory
import TrafficServer.Cache.SyncCrash

/-!
# Directory syncs that fail

`CacheSync::mainEvent` goes over all partitions with one buffer, and has at most one write out. The
flags of a partition change when its sync starts: `dirty` is cleared, the serial number counts up and
`dir_sync_in_progress` is set. A write that comes back short leads straight to `Ldone`, which changes
none of them (`failed_sync_not_kept`).

When no write fails, what reaches the disk is what `DirStore.mainEvent` says (`syncPart_land`).
-/

namespace TrafficServer

open List Relation Option
open TwoSlot (write)

/-- An `aio_write` of the sync: the copy, the offset in it, the length and what is written. -/
structure SyncWrite where
  copy : Bool
  offset : Nat
  nbytes : Nat
  data : DirImage

/-- What `mainEvent` has to do with a partition, and its two copies on disk. `writes` counts the
images of the directory that have been taken. -/
structure SyncPart where
  part : Part
  ioInProgress : Bool
  diskBad : Bool
  dirSyncWaiting : Bool
  dirSyncInProgress : Bool
  disk : Bool → Nat → DirImage
  writes : Nat

/-- How `mainEvent` leaves a partition: `goto Ldone`, or a return with or without a write. -/
inductive SyncOutcome
  | done (d : SyncPart)
  | wait (d : SyncPart)
  | write (d : SyncPart) (writepos : Nat) (buf : DirImage) (io : SyncWrite)

namespace SyncPart
variable (d : SyncPart)

def area : DirArea := .ofGeometry d.part.geo

def syncSerial : Nat := d.part.header.syncSerial

/-- The changes at the start of a sync, up to `dir_sync_in_progress = 1`. -/
def start : SyncPart :=
  { d with
    part := { d.part with
      header := { d.part.header with dirty := false, syncSerial := (d.syncSerial + 1) % 2 ^ 32 } }
    dirSyncInProgress := true
    writes := d.writes + 1 }

def image : DirImage := ⟨d.writes, (d.syncSerial + 1) % 2 ^ 32, true⟩

def bodyLen (writepos : Nat) : Nat :=
  if writepos + syncMaxWrite > d.area.dirlen - d.area.headerlen then
    d.area.dirlen - d.area.headerlen - writepos
  else syncMaxWrite

/-- The rest of `mainEvent`: the header, a part of the body, the footer, or the end. -/
def issue (writepos : Nat) (buf : DirImage) : SyncOutcome :=
  if writepos = 0 then
    .write d (writepos + d.area.headerlen) buf
      ⟨copyOf d.syncSerial, writepos, d.area.headerlen, buf⟩
  else if writepos < d.area.dirlen - d.area.headerlen then
    .write d (writepos + d.bodyLen writepos) buf
      ⟨copyOf d.syncSerial, writepos, d.bodyLen writepos, buf⟩
  else if writepos < d.area.dirlen then
    .write d (writepos + d.area.headerlen) buf
      ⟨copyOf d.syncSerial, writepos, d.area.headerlen, buf⟩
  else .done { d with dirSyncInProgress := false }

/-- `mainEvent` under the lock of the partition. The `aggWrite` of a partition that has to wait is left
to what follows the return. -/
def syncPart (writepos : Nat) (buf : DirImage) : SyncOutcome :=
  if d.diskBad then .done d
  else if writepos = 0 then
    if !d.part.header.dirty then .done d
    else if d.ioInProgress || d.part.aggBufPos ≠ 0 then .wait { d with dirSyncWaiting := true }
    else d.start.issue 0 d.image
  else d.issue writepos buf

def land (io : SyncWrite) (written : Nat) : SyncPart :=
  { d with disk := write d.disk io.copy io.offset written io.data }

/-- What the rest of the process can do to a partition: all but change the copies, the serial number
and `dir_sync_in_progress`. It sets the dirty flag and never clears it. -/
structure Other (d d' : SyncPart) : Prop where
  geo : d'.part.geo = d.part.geo
  syncSerial : d'.syncSerial = d.syncSerial
  dirty : d.part.header.dirty = true → d'.part.header.dirty = true
  inProgress : d'.dirSyncInProgress = d.dirSyncInProgress
  disk : d'.disk = d.disk
  writes : d'.writes = d.writes

end SyncPart

/-- The sync and the partitions. `io` is the write that is out. -/
structure CacheSync where
  gpart : List SyncPart
  part : Nat
  writepos : Nat
  buf : DirImage
  io : Option SyncWrite

namespace CacheSync

/-- `mainEvent` from `Lrestart`, when the event is not `AIO_EVENT_DONE`: `locked` has the partitions
whose lock is free. The first argument bounds the partitions that are left. -/
def restart (locked : Nat → Bool) : Nat → CacheSync → CacheSync
  | 0, s => { s with part := 0 }
  | n + 1, s =>
    match s.gpart[s.part]? with
    | none => { s with part := 0 }
    | some d =>
      if !locked s.part then s
      else
        match d.syncPart s.writepos s.buf with
        | .done d =>
          restart locked n { s with gpart := s.gpart.set s.part d, writepos := 0, part := s.part + 1 }
        | .wait d => { s with gpart := s.gpart.set s.part d }
        | .write d writepos buf io =>
          { s with gpart := s.gpart.set s.part d, writepos := writepos, buf := buf, io := some io }

/-- `mainEvent` with a timer event, or called by `aggWriteDone`. -/
def mainEvent (s : CacheSync) (locked : Nat → Bool) : CacheSync :=
  s.restart locked (s.gpart.length + 1)

/-- `mainEvent` with `AIO_EVENT_DONE`, after the first `written` bytes have reached the disk. -/
def aioDone (s : CacheSync) (io : SyncWrite) (written : Nat) (result : Int) (locked : Nat → Bool) :
    CacheSync :=
  let s := { s with gpart := s.gpart.modify s.part (·.land io written), io := none }
  if s.part ≥ s.gpart.length then { s with part := 0 }
  else if result ≠ io.nbytes then
    restart locked (s.gpart.length + 1) { s with writepos := 0, part := s.part + 1 }
  else s

inductive Step : CacheSync → CacheSync → Prop
  | event (s : CacheSync) (locked : Nat → Bool) (hio : s.io = none) : Step s (s.mainEvent locked)
  | aioDone (s : CacheSync) (io : SyncWrite) (written : Nat) (result : Int) (locked : Nat → Bool)
      (hio : s.io = some io) (hwritten : written ≤ io.nbytes)
      (hok : result = io.nbytes → written = io.nbytes) : Step s (s.aioDone io written result locked)
  | other (s : CacheSync) (p : Nat) (d d' : SyncPart) (hd : s.gpart[p]? = some d)
      (hother : d.Other d') : Step s { s with gpart := s.gpart.set p d' }

end CacheSync

/-! ### One partition -/

namespace SyncPart

variable {d d' : SyncPart} {writepos writepos' : Nat} {buf buf' : DirImage} {io : SyncWrite}

theorem issue_write (h : d.issue writepos buf = .write d' writepos' buf' io) :
    d' = d ∧ buf' = buf ∧ writepos' ≠ 0 ∧ io.copy = copyOf d.syncSerial ∧ io.offset = writepos ∧
      io.offset + io.nbytes = writepos' ∧ io.data = buf := by
  have hhead := d.area.headerlen_pos
  unfold issue at h
  split_ifs at h with h0 hbody hfoot
  all_goals
    obtain ⟨rfl, rfl, rfl, rfl⟩ := h
    refine ⟨rfl, rfl, ?_, rfl, rfl, ?_, rfl⟩
    · omega
    · dsimp only

theorem syncPart_write (hbusy : writepos ≠ 0 → d.dirSyncInProgress = true ∧ buf.syncSerial = d.syncSerial)
    (h : d.syncPart writepos buf = .write d' writepos' buf' io) :
    d'.dirSyncInProgress = true ∧ buf'.syncSerial = d'.syncSerial ∧ writepos' ≠ 0 ∧
      io.copy = copyOf d'.syncSerial ∧ io.offset + io.nbytes = writepos' ∧ io.data = buf' := by
  unfold syncPart at h
  split_ifs at h with hbad h0
  · obtain ⟨rfl, rfl, hpos, hcopy, -, hend, hdata⟩ := issue_write h
    exact ⟨rfl, rfl, hpos, hcopy, hend, hdata⟩
  · obtain ⟨rfl, rfl, hpos, hcopy, -, hend, hdata⟩ := issue_write h
    obtain ⟨hin, hserial⟩ := hbusy h0
    exact ⟨hin, hserial, hpos, hcopy, hend, hdata⟩

theorem syncPart_ne_wait (hpos : writepos ≠ 0) : d.syncPart writepos buf ≠ .wait d' := by
  unfold syncPart issue
  rw [if_neg hpos]
  split_ifs <;> exact SyncOutcome.noConfusion

theorem syncPart_first (h : d.syncPart 0 buf = .write d' writepos' buf' io) :
    io.copy = copyOf ((d.syncSerial + 1) % 2 ^ 32) ∧ io.offset = 0 := by
  unfold syncPart at h
  split_ifs at h with hbad hzero
  · obtain ⟨-, -, -, hcopy, hoff, -⟩ := issue_write h
    exact ⟨hcopy, hoff⟩
  · exact absurd rfl hzero

/-- The store of `DirStore` that a partition is, for the sync at `writepos`. -/
def store (d : SyncPart) (completed : Option DirImage) (writepos : Nat) (buf : DirImage) : DirStore :=
  ⟨d.disk, d.writes, completed, .up d.syncSerial writepos buf⟩

/-- **A write that succeeds is a step of `DirStore`**, which has the write and its landing in one. -/
theorem syncPart_land (completed : Option DirImage) (hbad : d.diskBad = false)
    (h : d.syncPart writepos buf = .write d' writepos' buf' io) : (d'.land io io.nbytes).store
        (if writepos ≠ 0 ∧ ¬writepos < d.area.footer then some buf' else completed) writepos' buf' =
      (d.store completed writepos buf).mainEvent d.area d.part.header.dirty
        (d.ioInProgress || d.part.aggBufPos ≠ 0) d.syncSerial writepos buf := by
  unfold syncPart at h
  rw [hbad, if_neg Bool.false_ne_true] at h
  unfold DirStore.mainEvent
  by_cases h0 : writepos = 0
  · rw [if_pos h0] at h ⊢
    split_ifs at h with hdirty hbusy
    cases h
    have hgo : (!d.part.header.dirty || (d.ioInProgress || d.part.aggBufPos ≠ 0)) = false := by
      rw [Bool.or_eq_false_iff]
      exact ⟨Bool.eq_false_iff.2 hdirty, Bool.eq_false_iff.2 hbusy⟩
    rw [hgo, if_neg Bool.false_ne_true, if_neg (fun h => h.1 h0), zero_add]
    rfl
  · rw [if_neg h0] at h ⊢
    rw [issue, if_neg h0] at h
    by_cases hbody : writepos < d.area.dirlen - d.area.headerlen
    · rw [if_pos hbody] at h ⊢
      have hlast : ¬(writepos ≠ 0 ∧ ¬writepos < d.area.footer) := fun h => h.2 hbody
      obtain ⟨rfl, rfl, rfl, rfl⟩ := h
      rw [if_neg hlast]
      simp only [store, land, bodyLen, syncSerial]
    · rw [if_neg hbody] at h ⊢
      split_ifs at h with hfoot
      cases h
      rw [if_pos hfoot, if_pos ⟨h0, hbody⟩]
      rfl

/-! ### What a failed sync should leave -/

/-- The next sync of the partition, whatever happens to it before, writes copy `c`. -/
def NextTarget (d : SyncPart) (c : Bool) : Prop :=
  ∀ e, d.Other e → ∀ buf e' writepos buf' io,
    e.syncPart 0 buf = .write e' writepos buf' io → io.copy = c

/-- No update is lost and the good copy is kept, after a sync of copy `damaged` has failed. -/
structure Kept (d : SyncPart) (damaged : Bool) : Prop where
  dirty : d.part.header.dirty = true
  notInProgress : d.dirSyncInProgress = false
  target : d.NextTarget damaged

theorem copyOf_next (n : Nat) : copyOf ((n + 1) % 2 ^ 32) = !copyOf n := by
  rw [← copyOf_succ]
  simp only [copyOf]
  rw [Nat.mod_mod_of_dvd _ (by decide : 2 ∣ 2 ^ 32)]

theorem nextTarget_iff (d : SyncPart) (c : Bool) : d.NextTarget c ↔ c = !copyOf d.syncSerial := by
  rw [← copyOf_next]
  constructor
  · intro h
    -- the directory gets dirty and the partition idle
    let e : SyncPart :=
      { d with
        part := { d.part with header := { d.part.header with dirty := true }, aggBufPos := 0 }
        ioInProgress := false
        diskBad := false }
    have hother : d.Other e := ⟨rfl, rfl, fun _ => rfl, rfl, rfl, rfl⟩
    exact (h e hother e.image _ _ _ _ rfl).symm
  · rintro rfl e hother buf e' writepos buf' io hwrite
    rw [(syncPart_first hwrite).1, hother.syncSerial]

end SyncPart

/-! ### Runs -/

namespace CacheSync

variable {s s' : CacheSync} {locked : Nat → Bool} {n j : Nat}

/-- Between two writes of a sync the flags of the partition and the buffer belong together, and so
does the write that is out. -/
structure Inv (s : CacheSync) : Prop where
  busy : s.writepos ≠ 0 → ∃ d, s.gpart[s.part]? = some d ∧ d.dirSyncInProgress = true ∧
    s.buf.syncSerial = d.syncSerial
  out : ∀ io, s.io = some io → s.writepos ≠ 0 ∧ io.copy = copyOf s.buf.syncSerial ∧
    io.offset + io.nbytes = s.writepos ∧ io.data = s.buf

/-- Nothing has been started. -/
structure Idle (s : CacheSync) : Prop where
  writepos : s.writepos = 0
  io : s.io = none

theorem Idle.inv (h : s.Idle) : s.Inv where
  busy hpos := absurd h.writepos hpos
  out io hio := by rw [h.io] at hio; cases hio

theorem Inv.restart (h : s.Inv) (hio : s.io = none) (hn : s.gpart.length < s.part + n) :
    (s.restart locked n).Inv := by
  -- past the last partition there is no sync in progress
  have hend : s.gpart[s.part]? = none → Inv { s with part := 0 } := by
    intro hnone
    refine ⟨fun hpos => ?_, h.out⟩
    obtain ⟨d, hd, -⟩ := h.busy hpos
    rw [hnone] at hd
    cases hd
  induction n generalizing s with
  | zero => exact hend (getElem?_eq_none (by omega))
  | succ n ih =>
    unfold restart
    cases hd : s.gpart[s.part]? with
    | none => exact hend hd
    | some d =>
      have hlt : s.part < s.gpart.length := (List.getElem?_eq_some_iff.1 hd).1
      dsimp only
      by_cases hlock : locked s.part = true
      swap
      · rw [if_pos (by simpa using hlock)]
        exact h
      rw [if_neg (by simpa using hlock)]
      have hnone : ∀ io, s.io ≠ some io := fun io => by simp [hio]
      have hbusy : s.writepos ≠ 0 → d.dirSyncInProgress = true ∧ s.buf.syncSerial = d.syncSerial := by
        intro hpos
        obtain ⟨d0, hd0, hflags⟩ := h.busy hpos
        obtain rfl : d = d0 := some.inj (hd.symm.trans hd0)
        exact hflags
      cases hout : d.syncPart s.writepos s.buf with
      | done d' =>
        have hidle : Idle { s with gpart := s.gpart.set s.part d', writepos := 0, part := s.part + 1 } := ⟨rfl, hio⟩
        refine ih hidle.inv hio ?_ fun _ => ⟨fun hpos => absurd rfl hpos, hidle.inv.out⟩
        rw [length_set]
        show _ < s.part + 1 + n
        omega
      | wait d' =>
        have hzero : s.writepos = 0 := by
          by_contra hpos
          exact SyncPart.syncPart_ne_wait hpos hout
        exact ⟨fun hpos => absurd hzero hpos, fun io hio' => absurd hio' (hnone io)⟩
      | write d' writepos buf io =>
        obtain ⟨hin, hserial, hpos, hcopy, hlen, hdata⟩ := SyncPart.syncPart_write hbusy hout
        refine ⟨fun _ => ⟨d', getElem?_set_self hlt, hin, hserial⟩, fun io' hio' => ?_⟩
        obtain rfl : io = io' := some.inj hio'
        exact ⟨hpos, hcopy.trans (congrArg copyOf hserial.symm), hlen, hdata⟩

theorem mainEvent_write {d d' : SyncPart} {writepos : Nat} {buf : DirImage} {io : SyncWrite}
    (hd : s.gpart[s.part]? = some d) (hlock : locked s.part = true)
    (hwrite : d.syncPart s.writepos s.buf = .write d' writepos buf io) : s.mainEvent locked =
      { s with gpart := s.gpart.set s.part d', writepos := writepos, buf := buf, io := some io } := by
  rw [mainEvent, restart, hd]
  simp only [hlock, Bool.not_true, Bool.false_eq_true, if_false, hwrite]

theorem restart_getElem? (hj : j < s.part) : (s.restart locked n).gpart[j]? = s.gpart[j]? := by
  induction n generalizing s with
  | zero => rfl
  | succ n ih =>
    unfold restart
    have hset : ∀ d, (s.gpart.set s.part d)[j]? = s.gpart[j]? := fun d => getElem?_set_ne (ne_of_gt hj)
    split
    · rfl
    split
    · rfl
    split
    · rw [ih (Nat.lt_succ_of_lt hj)]
      exact hset _
    · exact hset _
    · exact hset _

theorem Inv.land (h : s.Inv) (io : SyncWrite) (written : Nat) :
    Inv { s with gpart := s.gpart.modify s.part (·.land io written), io := none } where
  busy hpos := by
    obtain ⟨d, hd, hflags⟩ := h.busy hpos
    refine ⟨d.land io written, ?_, hflags⟩
    rw [getElem?_modify_eq, hd]
    rfl
  out _ hio := by cases hio

theorem Inv.aioDone (h : s.Inv) (io : SyncWrite) (written : Nat) (result : Int) :
    (s.aioDone io written result locked).Inv := by
  have hland := h.land io written
  unfold CacheSync.aioDone
  dsimp only
  split_ifs with hend hshort
  · refine ⟨fun hpos => ?_, fun _ hio => by cases hio⟩
    obtain ⟨d, hd, -⟩ := hland.busy hpos
    rw [getElem?_eq_none hend] at hd
    cases hd
  · refine Inv.restart (Idle.inv ⟨rfl, rfl⟩) rfl ?_
    dsimp only
    omega
  · exact hland

theorem Inv.other (h : s.Inv) {p : Nat} {d d' : SyncPart} (hd : s.gpart[p]? = some d)
    (hother : d.Other d') : Inv { s with gpart := s.gpart.set p d' } where
  busy hpos := by
    obtain ⟨d0, hd0, hin, hserial⟩ := h.busy hpos
    by_cases hp : p = s.part
    · subst hp
      obtain rfl : d = d0 := some.inj (hd.symm.trans hd0)
      refine ⟨d', getElem?_set_self (List.getElem?_eq_some_iff.1 hd).1, ?_, ?_⟩
      · rw [hother.inProgress, hin]
      · rw [hother.syncSerial, hserial]
    · exact ⟨d0, (getElem?_set_ne hp).trans hd0, hin, hserial⟩
  out := h.out

theorem Inv.step (h : s.Inv) (hstep : Step s s') : s'.Inv := by
  cases hstep with
  | event locked hio => exact h.restart hio (by omega)
  | aioDone io written result locked hio _ _ => exact h.aioDone io written result
  | other p d d' hd hother => exact h.other hd hother

theorem Inv.run (h : s.Inv) (hrun : ReflTransGen Step s s') : s'.Inv := by
  induction hrun with
  | refl => exact h
  | tail _ hstep ih => exact ih.step hstep

theorem aioDone_short (h : s.Inv) {io : SyncWrite} (hio : s.io = some io) (written : Nat) {result : Int}
    (hshort : result ≠ io.nbytes) (locked : Nat → Bool) : ∃ d,
      s.gpart[s.part]? = some d ∧ d.dirSyncInProgress = true ∧ io.copy = copyOf d.syncSerial ∧
      (s.aioDone io written result locked).gpart[s.part]? = some (d.land io written) := by
  obtain ⟨hpos, hcopy, -⟩ := h.out io hio
  obtain ⟨d, hd, hin, hserial⟩ := h.busy hpos
  refine ⟨d, hd, hin, hcopy.trans (congrArg copyOf hserial), ?_⟩
  have hlt : s.part < s.gpart.length := (List.getElem?_eq_some_iff.1 hd).1
  unfold aioDone
  dsimp only
  rw [if_neg (by rw [length_modify]; omega), if_pos hshort, restart_getElem? (Nat.lt_succ_self _),
    getElem?_modify_eq, hd]
  rfl

/-- **No failed sync is made good**: in every run, at whichever write it fails and however much of it
reaches the disk. The dirty flag is set only if the directory was changed since the sync started,
`dir_sync_in_progress` stays set, and the next sync writes the copy that this one did not touch. -/
theorem failed_sync_not_kept (s₀ s : CacheSync) (hidle : s₀.Idle)
    (hrun : ReflTransGen Step s₀ s) (io : SyncWrite) (hio : s.io = some io) (written : Nat)
    (result : Int) (hshort : result ≠ io.nbytes) (locked : Nat → Bool) : ∃ d d', s.gpart[s.part]? = some d ∧
      (s.aioDone io written result locked).gpart[s.part]? = some d' ∧
      d'.part.header.dirty = d.part.header.dirty ∧ d'.dirSyncInProgress = true ∧
      d'.disk (!io.copy) = d.disk (!io.copy) ∧ d'.NextTarget (!io.copy) ∧ ¬d'.Kept io.copy := by
  obtain ⟨d, hd, hin, hcopy, hd'⟩ := aioDone_short (hidle.inv.run hrun) hio written hshort locked
  refine ⟨d, _, hd, hd', rfl, hin, ?_, ?_, fun hkept => ?_⟩
  · funext k
    exact TwoSlot.write_ne (by simp)
  · rw [SyncPart.nextTarget_iff, hcopy]
    rfl
  · have hclear : d.dirSyncInProgress = false := hkept.notInProgress
    rw [hin] at hclear
    cases hclear

/-- A partition of one bucket with a changed directory. Copy A has serial number 0, copy B has 1. -/
def changedTiny : SyncPart where
  part := { Part.tiny with header := { Part.tiny.header with dirty := true, syncSerial := 1 } }
  ioInProgress := false
  diskBad := false
  dirSyncWaiting := false
  dirSyncInProgress := false
  disk c _ := if c then ⟨1, 1, true⟩ else ⟨0, 0, true⟩
  writes := 2

def changed : CacheSync := ⟨[changedTiny], 0, 0, ⟨0, 0, false⟩, none⟩

def headerTiny : SyncPart := changedTiny.start.land ⟨false, 0, 512, ⟨2, 2, true⟩⟩ 512

def inBody : CacheSync :=
  ⟨[headerTiny], 0, 1024, ⟨2, 2, true⟩, some ⟨false, 512, 512, ⟨2, 2, true⟩⟩⟩

theorem headerTiny_bodyLen : headerTiny.bodyLen 512 = 512 := by decide

theorem headerTiny_write : headerTiny.syncPart 512 ⟨2, 2, true⟩ =
    .write headerTiny 1024 ⟨2, 2, true⟩ ⟨false, 512, 512, ⟨2, 2, true⟩⟩ := by
  have hissue : headerTiny.syncPart 512 ⟨2, 2, true⟩ = .write headerTiny
      (512 + headerTiny.bodyLen 512) ⟨2, 2, true⟩ ⟨false, 512, headerTiny.bodyLen 512, ⟨2, 2, true⟩⟩ :=
    rfl
  rw [hissue, headerTiny_bodyLen]

theorem syncPart_land_tiny : (headerTiny.land ⟨false, 512, 512, ⟨2, 2, true⟩⟩ 512).store none 1024 ⟨2, 2, true⟩ =
    (headerTiny.store none 512 ⟨2, 2, true⟩).mainEvent headerTiny.area false false 2 512 ⟨2, 2, true⟩ :=
  SyncPart.syncPart_land none rfl headerTiny_write

theorem inBody_run : ReflTransGen Step changed inBody := by
  have hheader : ReflTransGen Step changed ⟨[headerTiny], 0, 512, ⟨2, 2, true⟩, none⟩ :=
    (ReflTransGen.single (.event changed (fun _ => true) rfl)).tail
      (.aioDone _ ⟨false, 0, 512, ⟨2, 2, true⟩⟩ 512 512 (fun _ => true) rfl le_rfl fun _ => rfl)
  have hbody := hheader.tail (.event _ (fun _ => true) rfl)
  rwa [mainEvent_write rfl rfl headerTiny_write] at hbody

theorem failed_sync_not_kept_tiny :
    ∃ d', (inBody.aioDone ⟨false, 512, 512, ⟨2, 2, true⟩⟩ 0 (-1) fun _ => true).gpart[0]? =
      some d' ∧ d'.dirSyncInProgress = true ∧ d'.NextTarget true := by
  obtain ⟨d, d', -, hd', -, hin, -, htarget, -⟩ := failed_sync_not_kept changed inBody ⟨rfl, rfl⟩
    inBody_run _ rfl 0 (-1) (by decide) fun _ => true
  exact ⟨d', hd', hin, htarget⟩

def failedTiny : SyncPart := headerTiny.land ⟨false, 512, 512, ⟨2, 2, true⟩⟩ 0

theorem inBody_fails : Step inBody ⟨[failedTiny], 0, 0, ⟨2, 2, true⟩, none⟩ := by
  have hstep := Step.aioDone inBody ⟨false, 512, 512, ⟨2, 2, true⟩⟩ 0 (-1) (fun _ => true) rfl (by decide) (by decide)
  rwa [show inBody.aioDone ⟨false, 512, 512, ⟨2, 2, true⟩⟩ 0 (-1) (fun _ => true) =
    ⟨[failedTiny], 0, 0, ⟨2, 2, true⟩, none⟩ by simp [aioDone, inBody, failedTiny, restart]] at hstep

def changedAgainTiny : SyncPart :=
  { failedTiny with
    part := { failedTiny.part with header := { failedTiny.part.header with dirty := true } } }

/-- The changes are not written by any later sync; and once the directory is changed again, the header
of the next sync destroys the last whole copy. -/
theorem failed_sync_loses_both : (changedTiny.store none 0 changedTiny.image).selected changedTiny.area = some true ∧
    (∃ s d, ReflTransGen Step changed s ∧ s.gpart = [d] ∧
      d.part.header.dirty = false ∧ d.dirSyncInProgress = true ∧
      (∀ k, d.disk true k = ⟨1, 1, true⟩) ∧ (d.disk false d.area.footer).write = 0 ∧
      ∀ locked, (s.mainEvent locked).gpart = s.gpart) ∧ ∃ s d, ReflTransGen Step changed s ∧ s.gpart = [d] ∧
      (d.store none 0 d.image).selected d.area = none := by
  have hfail := inBody_run.tail inBody_fails
  refine ⟨rfl, ⟨_, _, hfail, rfl, rfl, rfl, fun _ => rfl, rfl, fun locked => ?_⟩, ?_⟩
  · cases hlock : locked 0 with
    | false => simp [mainEvent, restart, hlock]
    | true =>
      have hdone : failedTiny.syncPart 0 ⟨2, 2, true⟩ = .done failedTiny := rfl
      simp [mainEvent, restart, hlock, hdone]
  · have hchange := hfail.tail
      (.other _ 0 failedTiny changedAgainTiny rfl ⟨rfl, rfl, fun _ => rfl, rfl, rfl, rfl⟩)
    have hevent := hchange.tail (.event _ (fun _ => true) rfl)
    exact ⟨_, _, hevent.tail (.aioDone _ ⟨true, 0, 512, ⟨3, 3, true⟩⟩ 512 512 (fun _ => true) rfl le_rfl
      fun _ => rfl), rfl, rfl⟩

end CacheSync

end TrafficServer
