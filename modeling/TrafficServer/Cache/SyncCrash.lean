import TrafficServer.Cache.Sync

/-!
# Crashes and the two directory copies

At any moment one copy is whole, and a restart selects it: the other one has an older serial number
in its footer until its own write is complete (`TwoSlot.Settled`). Before the first sync is complete
this is copy A, with serial number 0; then all depends on the footer of copy B, which must not have
the number 1 of the first sync. `Current` is the disk in both cases and `Inv` adds where the
process is; every event keeps it.
-/

namespace TrafficServer

open TwoSlot Relation Option
open TwoSlot (write Upto Settled)

theorem DirArea.footer_add (g : DirArea) : g.footer + g.headerlen = g.dirlen := by
  have := g.body_pos
  unfold footer
  omega

theorem DirArea.headerlen_lt (g : DirArea) : g.headerlen < g.footer := by
  have := g.body_pos
  unfold footer
  omega

theorem copyOf_succ (n : Nat) : copyOf (n + 1) = !copyOf n := by
  rcases Nat.mod_two_eq_zero_or_one n with h | h <;> simp [copyOf, Nat.add_mod, h]

variable {syncSerial max k : Nat}

theorem nextSyncSerial_spec (hmax : syncSerial ≤ max)
    (hwrap : max + 2 < 2 ^ 32) : syncSerial < nextSyncSerial syncSerial max ∧
      copyOf (nextSyncSerial syncSerial max) = !copyOf syncSerial := by
  rw [nextSyncSerial, Nat.mod_eq_of_lt (by omega : max + 1 < 2 ^ 32)]
  split
  · next h =>
    rw [Nat.mod_eq_of_lt (by omega), copyOf_succ, ← h]
    exact ⟨by omega, rfl⟩
  · next h => exact ⟨by omega, Bool.eq_not_of_ne (Ne.symm h)⟩

variable {old : Bool → Nat → Nat × Bool}

namespace DirStore

/-- Copy A is whole with serial number 0, and no complete sync is in copy B. -/
structure Unsynced (g : DirArea) (disk : Bool → Nat → DirImage) (x : DirImage) : Prop where
  whole : Upto disk false g.dirlen x
  serial : x.syncSerial = 0
  footer : (disk true g.footer).syncSerial ≠ 1
  header : (disk true 0).syncSerial ≤ 1

/-- A restart finds `x` on the disk. -/
inductive Current (g : DirArea) (disk : Bool → Nat → DirImage) (x : DirImage) : Prop
  | unsynced (h : Unsynced g disk x)
  | settled (h : Settled DirImage.syncSerial g.dirlen g.footer disk (copyOf x.syncSerial) x)

namespace Current

variable {g : DirArea} {disk : Bool → Nat → DirImage} {x y : DirImage}

theorem whole (h : Current g disk x) : Upto disk (copyOf x.syncSerial) g.dirlen x := by
  cases h with
  | unsynced h => rw [h.serial]; exact h.whole
  | settled h => exact h.whole

theorem header_eq (h : Current g disk x) : disk (copyOf x.syncSerial) 0 = x :=
  h.whole 0 (by have := g.body_pos; omega)

theorem footer_eq (h : Current g disk x) : disk (copyOf x.syncSerial) g.footer = x :=
  h.whole _ (by have := g.footer_add; have := g.headerlen_pos; omega)

theorem selected {s : DirStore} (h : Current g s.disk x) : s.selected g = some (copyOf x.syncSerial) := by
  have h0 := h.header_eq
  have h1 := h.footer_eq
  rw [DirStore.selected, handleHeaderRead]
  cases h with
  | unsynced h =>
    have hf := h.footer
    have hh := h.header
    rw [h.serial, show copyOf 0 = false from rfl] at *
    rw [h0, h1, h.serial, if_pos ⟨rfl, by omega⟩]
  | settled h =>
    have hold := h.older
    cases hc : copyOf x.syncSerial with
    | false =>
      rw [hc, Bool.not_false] at hold
      rw [hc] at h0 h1
      rw [h0, h1, if_pos ⟨rfl, by omega⟩]
    | true =>
      rw [hc, Bool.not_true] at hold
      rw [hc] at h0 h1
      rw [h0, h1, if_neg (by omega), if_pos rfl]

theorem write_other (h : Current g disk x) {off len : Nat} (hend : off + len ≤ g.footer)
    (hy : x.syncSerial = 0 → y.syncSerial ≤ 1) : Current g (write disk (!copyOf x.syncSerial) off len y) x := by
  cases h with
  | unsynced h =>
    rw [h.serial]
    refine .unsynced ⟨h.whole.write_ne (by decide), h.serial, ?_, ?_⟩
    · rw [write_out (.inr hend)]
      exact h.footer
    · unfold write
      split
      · exact hy h.serial
      · exact h.header
  | settled h => exact .settled (h.write hend)

theorem commit (h : Current g disk x) (hcopy : copyOf y.syncSerial = !copyOf x.syncSerial)
    (hup : Upto disk (!copyOf x.syncSerial) g.footer y) (hlt : x.syncSerial < y.syncSerial) :
    Current g (write disk (!copyOf x.syncSerial) g.footer g.headerlen y) y := by
  have hlast : g.footer < g.dirlen := by
    have := g.footer_add
    have := g.headerlen_pos
    omega
  have hnew := hup.write g.headerlen
  rw [g.footer_add] at hnew
  refine .settled ?_
  rw [hcopy]
  exact Settled.commit (h.whole.write_ne (by simp)) hlast hnew hlt

end Current

/-- `y` is being written to the other copy and has reached `pos`. -/
structure Writing (g : DirArea) (n : Nat) (disk : Bool → Nat → DirImage) (x y : DirImage)
    (pos : Nat) : Prop where
  upto : Upto disk (!copyOf x.syncSerial) pos y
  copy : copyOf y.syncSerial = !copyOf x.syncSerial
  newer : x.syncSerial < y.syncSerial
  first : x.syncSerial = 0 → y.syncSerial = 1
  since : n ≤ y.write
  magic : y.magic = true

def ModeOk (g : DirArea) (n : Nat) (disk : Bool → Nat → DirImage) (x : DirImage) : SyncMode → Prop
  | .down => True
  | .clearing raw => x.syncSerial = 0 ∧ raw.syncSerial = 0
  | .recovering raw i => i < 3 ∧ Writing g n disk x raw (recoverRange g i).1
  | .up syncSerial writepos buf =>
    (syncSerial = x.syncSerial ∧ (writepos = 0 ∨ writepos = g.dirlen)) ∨
    (syncSerial = buf.syncSerial ∧ 0 < writepos ∧ writepos ≤ g.footer ∧
      Writing g n disk x buf writepos)

/-- `x` is what a restart finds; it and all that is being written have numbers from `n` on. -/
structure Inv (g : DirArea) (n : Nat) (s : DirStore) (x : DirImage) : Prop where
  current : Current g s.disk x
  since : n ≤ x.write
  next : n ≤ s.nextWrite
  completed : s.completed = if x.syncSerial = 0 then none else some x
  magic : x.syncSerial ≠ 0 → x.magic = true
  mode : ModeOk g n s.disk x s.mode

variable {g : DirArea} {n : Nat} {s s' : DirStore} {x y : DirImage}

section Inv
variable (h : Inv g n s x)
include h

theorem Inv.write_on {pos : Nat} (hw : Writing g n s.disk x y pos) (len : Nat) (hend : pos + len ≤ g.footer) :
    Current g (write s.disk (!copyOf x.syncSerial) pos len y) x ∧
      Writing g n (write s.disk (!copyOf x.syncSerial) pos len y) x y (pos + len) :=
  ⟨h.current.write_other hend fun h0 => (hw.first h0).le, { hw with upto := hw.upto.write len }⟩

theorem Inv.write_footer (hw : Writing g n s.disk x y g.footer) (mode : SyncMode)
    (hmode : ModeOk g n (write s.disk (!copyOf x.syncSerial) g.footer g.headerlen y) y mode) :
    Inv g n { s with
      disk := write s.disk (!copyOf x.syncSerial) g.footer g.headerlen y
      mode := mode
      completed := some y } y where
  current := h.current.commit hw.copy hw.upto hw.newer
  since := hw.since
  next := h.next
  completed := (if_neg (ne_of_gt (Nat.zero_lt_of_lt hw.newer))).symm
  magic _ := hw.magic
  mode := hmode

theorem Inv.mainEvent {writepos : Nat} {buf : DirImage}
    (hmode : s.mode = .up syncSerial writepos buf) (hwrap : syncSerial + 1 < 2 ^ 32)
    (dirty busy : Bool) :
    ∃ x, Inv g n (s.mainEvent g dirty busy syncSerial writepos buf) x := by
  have hm := h.mode
  rw [hmode] at hm
  have hfoot := g.footer_add
  have hhead := g.headerlen_pos
  unfold DirStore.mainEvent
  by_cases h0 : writepos = 0
  · rw [if_pos h0]
    split
    · exact ⟨x, h⟩
    -- a sync starts: it takes the next number and writes its header
    obtain ⟨rfl, -⟩ | ⟨-, hpos, -⟩ := hm
    · simp only [Nat.mod_eq_of_lt hwrap, copyOf_succ]
      have hw : Writing g n s.disk x ⟨s.nextWrite, x.syncSerial + 1, true⟩ 0 :=
        ⟨fun _ hk => absurd hk (Nat.not_lt_zero _), copyOf_succ _, Nat.lt_succ_self _,
          fun hx => by simp [hx], h.next, rfl⟩
      obtain ⟨hc, hw'⟩ := h.write_on hw g.headerlen (by have := g.headerlen_lt; omega)
      rw [Nat.zero_add] at hw'
      exact ⟨x, hc, h.since, h.next.trans (Nat.le_succ _), h.completed, h.magic,
        .inr ⟨rfl, hhead, g.headerlen_lt.le, hw'⟩⟩
    · omega
  · rw [if_neg h0]
    obtain ⟨hs, hend⟩ | ⟨rfl, hpos, hle, hw⟩ := hm
    · -- the sync was complete
      rw [if_neg (by omega), if_neg (by omega)]
      exact ⟨x, { h with mode := .inl ⟨hs, .inl rfl⟩ }⟩
    · rw [hw.copy]
      by_cases hbody : writepos < g.dirlen - g.headerlen
      · -- a chunk of the body
        rw [if_pos hbody]
        have hl : writepos + (if writepos + syncMaxWrite > g.dirlen - g.headerlen then
            g.dirlen - g.headerlen - writepos else syncMaxWrite) ≤ g.footer := by
          rw [DirArea.footer]
          split <;> omega
        obtain ⟨hc, hw'⟩ := h.write_on hw _ hl
        exact ⟨x, hc, h.since, h.next, h.completed, h.magic, .inr ⟨rfl, by omega, hl, hw'⟩⟩
      · -- the footer
        rw [if_neg hbody, if_pos (by omega)]
        obtain rfl : writepos = g.footer := by unfold DirArea.footer at *; omega
        exact ⟨buf, h.write_footer hw _ (.inl ⟨rfl, .inr hfoot⟩)⟩

theorem Inv.clearDir (hx : x.syncSerial = 0) : ∃ x, Inv g n (s.clearDir g) x := by
  cases h.current with
  | settled hset => exact absurd hset.older (by omega)
  | unsynced hu =>
    refine ⟨⟨s.nextWrite, 0, true⟩, .unsynced ⟨?_, rfl, ?_, ?_⟩, h.next, h.next.trans (Nat.le_succ _),
      ?_, fun _ => rfl, rfl, rfl⟩
    · exact fun k hk => write_in (Nat.zero_le _) (by omega)
    · exact (congrArg _ (write_ne (by decide))).trans_ne hu.footer
    · exact (congrArg _ (write_ne (by decide))).trans_le hu.header
    · exact h.completed.trans (if_pos hx)

theorem Inv.restart (hmax : ∀ c, s.selected g = some c → (s.disk c 0).syncSerial ≤ max) (hwrap : max + 2 < 2 ^ 32)
    (wrapped : Bool) : ∃ x, Inv g n (s.restart g wrapped max) x := by
  have hsel := h.current.selected
  have hle := hmax _ hsel
  rw [DirStore.restart, hsel]
  dsimp only
  rw [h.current.header_eq] at hle ⊢
  rw [h.current.footer_eq, Bool.and_self]
  split_ifs with hmagic
  · unfold handleRecoverFromData
    rw [h.current.header_eq]
    dsimp only
    split_ifs with hx
    · exact ⟨x, { h with mode := .inl ⟨hx.symm, .inl rfl⟩ }⟩
    · exact ⟨x, { h with mode := .inl ⟨rfl, .inl rfl⟩ }⟩
    · obtain ⟨hlt, hcopy⟩ := nextSyncSerial_spec hle hwrap
      exact ⟨x, { h with
        next := h.next.trans (Nat.le_succ _)
        mode := ⟨by decide, fun _ hk => absurd hk (Nat.not_lt_zero _), hcopy, hlt,
          fun h0 => absurd h0 hx, h.next, rfl⟩ }⟩
  · exact h.clearDir (by_contra fun hx => hmagic (h.magic hx))

theorem Inv.recoverWrite {raw : DirImage} {i : Nat}
    (hmode : s.mode = .recovering raw i) : ∃ x, Inv g n (s.recoverWrite g raw i) x := by
  have hm := h.mode
  rw [hmode] at hm
  obtain ⟨hi, hw⟩ := hm
  have hhead := g.headerlen_lt
  unfold DirStore.recoverWrite
  rw [hw.copy]
  match i with
  | 0 =>
    obtain ⟨hc, hw'⟩ := h.write_on hw g.headerlen (by simp only [recoverRange]; omega)
    exact ⟨x, hc, h.since, h.next, h.completed, h.magic, by decide, by simpa [recoverRange] using hw'⟩
  | 1 =>
    have hlen : g.headerlen + (g.dirlen - 2 * g.headerlen) = g.footer := by
      have := g.body_pos
      unfold DirArea.footer
      omega
    obtain ⟨hc, hw'⟩ := h.write_on hw (g.dirlen - 2 * g.headerlen) hlen.le
    refine ⟨x, hc, h.since, h.next, h.completed, h.magic, by decide, ?_⟩
    rw [show (recoverRange g 1).1 = g.headerlen from rfl, hlen] at hw'
    exact hw'
  | 2 => exact ⟨raw, h.write_footer hw _ (.inl ⟨rfl, .inl rfl⟩)⟩

theorem Inv.handleDirClear {raw : DirImage} (hmode : s.mode = .clearing raw) :
    Inv g n (s.handleDirClear g raw) x := by
  have hm := h.mode
  rw [hmode] at hm
  obtain ⟨hx, hraw⟩ := hm
  have hhead := g.headerlen_lt
  have hend : 0 + g.headerlen ≤ g.footer := by omega
  have hc := h.current.write_other (y := raw) hend fun _ => by omega
  rw [hx, show (!copyOf 0) = true from rfl] at hc
  exact ⟨hc, h.since, h.next, h.completed, h.magic, .inl ⟨hx.symm, .inl rfl⟩⟩

theorem Inv.step (hstep : Step g s s') : ∃ x, Inv g n s' x := by
  cases hstep with
  | sync dirty busy syncSerial writepos buf hmode hwrap => exact h.mainEvent hmode hwrap dirty busy
  | crash => exact ⟨x, { h with mode := trivial }⟩
  | restart wrapped max _ hmax hwrap => exact h.restart hmax hwrap wrapped
  | recoverWrite raw writes hmode => exact h.recoverWrite hmode
  | dirClear raw hmode => exact ⟨x, h.handleDirClear hmode⟩

theorem Inv.run (hrun : ReflTransGen (Step g) s s') : ∃ x, Inv g n s' x := by
  induction hrun with
  | refl => exact ⟨x, h⟩
  | tail _ hstep ih =>
    obtain ⟨x, hx⟩ := ih
    exact hx.step hstep

end Inv

/-! ### Zeroed copies -/

def zeroed (mode : SyncMode) : DirStore where
  disk _ _ := ⟨0, 0, false⟩
  nextWrite := 1
  completed := none
  mode := mode

/-- **A restart finds the directory write that was completed last**, whole, whatever crashes there
have been: syncs and recoveries of a disk that was zeroed, cut after any of their writes. -/
theorem selected_last_completed (g : DirArea) {mode : SyncMode}
    (hmode : mode = .down ∨ ∃ buf, mode = .up 0 0 buf) {s : DirStore}
    (hrun : ReflTransGen (Step g) (zeroed mode) s) {x : DirImage} (hx : s.completed = some x) :
    ∃ c, s.selected g = some c ∧ ∀ k < g.dirlen, s.disk c k = x := by
  have hstart : Inv g 0 (zeroed mode) ⟨0, 0, false⟩ := by
    refine ⟨.unsynced ⟨fun _ _ => rfl, rfl, by simp [zeroed], by simp [zeroed]⟩, le_rfl, by simp, rfl,
      fun h => absurd rfl h, ?_⟩
    obtain rfl | ⟨buf, rfl⟩ := hmode
    · trivial
    · exact .inl ⟨rfl, .inl rfl⟩
  obtain ⟨y, hy⟩ := hstart.run hrun
  have hxy : x = y := by
    have hc := hy.completed
    rw [hx] at hc
    split at hc
    · cases hc
    · exact some.inj hc
  rw [hxy]
  exact ⟨_, hy.current.selected, hy.current.whole⟩

/-- The directory of one bucket: header, body and footer of a block each. -/
def tinyArea : DirArea := .ofGeometry (.ofBuckets 1 Nat.one_pos)

theorem selected_last_completed_tiny : ∃ s,
    ReflTransGen (Step tinyArea) (zeroed (.up 0 0 ⟨0, 0, false⟩)) s ∧ s.mode = .down ∧
      s.disk false 0 = ⟨2, 2, true⟩ ∧ s.selected tinyArea = some true ∧
      ∀ k < tinyArea.dirlen, s.disk true k = ⟨1, 1, true⟩ := by
  have h1 := ReflTransGen.single (r := Step tinyArea)
    (.sync (zeroed (.up 0 0 ⟨0, 0, false⟩)) true false 0 0 _ rfl (by decide))
  have h2 := h1.tail (.sync _ true false 1 512 ⟨1, 1, true⟩ rfl (by decide))
  have h3 := h2.tail (.sync _ true false 1 1024 ⟨1, 1, true⟩ rfl (by decide))
  have h4 := h3.tail (.sync _ true false 1 1536 ⟨1, 1, true⟩ rfl (by decide))
  have h5 := h4.tail (.sync _ true false 1 0 ⟨1, 1, true⟩ rfl (by decide))
  have hrun := h5.tail (.crash _)
  obtain ⟨c, hc, hwhole⟩ := selected_last_completed tinyArea (.inr ⟨_, rfl⟩) hrun rfl
  cases hc
  exact ⟨_, hrun, rfl, rfl, rfl, hwhole⟩

/-! ### A cleared directory -/

/-- A disk that `clear_dir` and `handle_dir_clear` have cleared. `old` is the serial number and the
magic number in what was there at each offset; all of it has write number 0. -/
def cleared (g : DirArea) (old : Bool → Nat → Nat × Bool) : DirStore :=
  let s : DirStore := ⟨fun c k => ⟨0, (old c k).1, (old c k).2⟩, 1, none, .down⟩
  (s.clearDir g).handleDirClear g ⟨1, 0, true⟩

theorem cleared_disk (g : DirArea) (old : Bool → Nat → Nat × Bool) : (cleared g old).disk =
    write (write (fun c k => ⟨0, (old c k).1, (old c k).2⟩) false 0 g.dirlen ⟨1, 0, true⟩) true 0
      g.headerlen ⟨1, 0, true⟩ := rfl

theorem cleared_disk_old (g : DirArea) (old : Bool → Nat → Nat × Bool) (hk : g.headerlen ≤ k) :
    (cleared g old).disk true k = ⟨0, (old true k).1, (old true k).2⟩ := by
  rw [cleared_disk, write_out (.inr (by omega)), write_ne (by decide)]

theorem cleared_whole (g : DirArea) (old : Bool → Nat → Nat × Bool) :
    Upto (cleared g old).disk false g.dirlen ⟨1, 0, true⟩ := by
  intro k hk
  rw [cleared_disk, write_ne (by decide), write_in (Nat.zero_le _) (by omega)]

theorem cleared_inv {g : DirArea} (h : (old true g.footer).1 ≠ 1) : Inv g 1 (cleared g old) ⟨1, 0, true⟩ := by
  refine ⟨.unsynced ⟨cleared_whole g old, rfl, ?_, ?_⟩, le_rfl, Nat.le_succ 1, rfl,
    fun h => absurd rfl h, .inl ⟨rfl, .inl rfl⟩⟩
  · rwa [cleared_disk_old g old g.headerlen_lt.le]
  · rw [cleared_disk, write_in le_rfl (by have := g.headerlen_pos; omega)]
    exact Nat.zero_le _

def tornFirst (g : DirArea) (old : Bool → Nat → Nat × Bool) : DirStore :=
  { (cleared g old).mainEvent g true false 0 0 ⟨1, 0, true⟩ with mode := .down }

theorem tornFirst_run (g : DirArea) (old : Bool → Nat → Nat × Bool) :
    ReflTransGen (Step g) (cleared g old) (tornFirst g old) :=
  .tail (.single (.sync _ true false 0 0 ⟨1, 0, true⟩ rfl (by decide))) (.crash _)

theorem tornFirst_disk (g : DirArea) (old : Bool → Nat → Nat × Bool) :
    (tornFirst g old).disk = write (cleared g old).disk true 0 g.headerlen ⟨2, 1, true⟩ := rfl

theorem tornFirst_disk_old (g : DirArea) (old : Bool → Nat → Nat × Bool) (hk : g.headerlen ≤ k) :
    (tornFirst g old).disk true k = ⟨0, (old true k).1, (old true k).2⟩ := by
  rw [tornFirst_disk, write_out (.inr (by omega)), cleared_disk_old g old hk]

theorem tornFirst_selected {g : DirArea}
    (h : (old true g.footer).1 = 1) : (tornFirst g old).selected g = some true := by
  have hhead := g.headerlen_pos
  have hfoot := g.footer_add
  have hA : ∀ k < g.dirlen, (tornFirst g old).disk false k = ⟨1, 0, true⟩ := fun k hk => by
    rw [tornFirst_disk, write_ne (by decide)]
    exact cleared_whole g old k hk
  have hB : (tornFirst g old).disk true 0 = ⟨2, 1, true⟩ := write_in le_rfl (by omega)
  rw [selected, hA 0 (by omega), hA g.footer (by omega), hB, tornFirst_disk_old g old g.headerlen_lt.le, h]
  rfl

/-- **A cleared cache stays cleared**, in that no restart selects a copy with a body from before the
clear, exactly when the footer of copy B did not have the serial number of the first sync. -/
theorem cleared_stays_cleared_iff (g : DirArea) (old : Bool → Nat → Nat × Bool) :
    (∀ s, ReflTransGen (Step g) (cleared g old) s → ∀ c, s.selected g = some c →
      ∀ k, g.headerlen ≤ k → k < g.footer → (s.disk c k).write ≠ 0) ↔ (old true g.footer).1 ≠ 1 := by
  constructor
  · intro hall hone
    exact hall _ (tornFirst_run g old) true (tornFirst_selected hone) g.headerlen le_rfl
      g.headerlen_lt (congrArg DirImage.write (tornFirst_disk_old g old le_rfl))
  · intro hne s hrun c hc k _ hk
    obtain ⟨x, hx⟩ := (cleared_inv hne).run hrun
    obtain rfl : copyOf x.syncSerial = c := some.inj (hx.current.selected.symm.trans hc)
    have hlt : k < g.dirlen := by
      have := g.footer_add
      omega
    rw [hx.current.whole k hlt]
    exact ne_of_gt hx.since

/-- The serial number of copy B's footer is 1 as it is after the first sync of a new cache. -/
theorem cleared_comes_back : ∃ s,
    ReflTransGen (Step tinyArea) (cleared tinyArea fun c _ => (if c then 1 else 0, true)) s ∧
      s.selected tinyArea = some true ∧ (s.disk true tinyArea.headerlen).write = 0 :=
  ⟨_, tornFirst_run .., tornFirst_selected rfl, congrArg DirImage.write (tornFirst_disk_old _ _ le_rfl)⟩

end DirStore

end TrafficServer
