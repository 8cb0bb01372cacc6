import TrafficServer.Logging.LogObject

/-!
# Log entries are neither lost nor torn

The invariant of the threads holds in every state of every run (`Inv.of_reachable`), if every buffer is
made with sound settings. It says that the places handed out are apart and behind the header, that
a buffer which has been set to full comes to the flush queue once and without writers, and that the
header counts the entries.

The settings are not sound if the buffer has 64 KB exactly and an entry fits: the offset after an entry
that fills the buffer to its end is 65536, which is stored as 0. The header is then written with a byte
count of 0, and the next entry is put over the header.
-/

namespace TrafficServer

namespace Log

open Function List ThreadWeight LogBuffer Params Relation

section Inv
variable {T : Type} [Fintype T] {s : System T}

variable {fresh p : Params} {b : Nat}

theorem Inv.safe (h : Inv s.object s.threads) : s.Safe where
  disjoint := by
    intro b hb
    exact (h.wf b hb).ordered.imp fun hle => .inl hle
  inside := by
    intro b hb k hk
    have hwf := h.wf b hb
    have hbelow := hwf.below k hk
    have hfits := hwf.fits (ne_nil_of_mem hk)
    exact ⟨hwf.behind k hk, by omega⟩
  replaced := h.replaced
  flushed := by
    intro hidle b hb hfull
    have hduty := h.duty b hb
    have hwriters := h.writers b hb
    rw [(weight_eq_zero_iff _ _).mpr fun t => by rw [hidle t]; rfl] at hwriters
    rw [(weight_eq_zero_iff _ _).mpr fun t => by rw [hidle t]; rfl,
      LBState.pending_eq_zero (.inr hwriters), hfull] at hduty
    exact hduty
  once := by
    intro b
    by_cases hb : b ∈ s.object.queued
    · exact (h.of_mem_queued hb).2.2.le
    · rw [count_eq_zero_of_not_mem hb]
      exact Nat.zero_le 1
  noWriters := by
    intro b hb
    obtain ⟨hfull, hwriters, -⟩ := h.of_mem_queued hb
    rw [h.writers b (h.queued b hb), weight_eq_zero_iff] at hwriters
    exact ⟨hfull, hwriters⟩
  counted := by
    intro b hb entryCount byteCount hheader
    obtain ⟨hmem, heq⟩ := h.counted b hb _ hheader
    have hwf := h.wf b hb
    obtain ⟨rfl, rfl⟩ := heq
    refine ⟨hwf.numEntries_eq, ?_⟩
    rw [hwf.endOffset_eq (h.of_mem_queued hmem).1]
    exact hwf.byteCount_eq

variable [DecidableEq T] {settings : Set Params} {s' : System T}

theorem Inv.step (hsettings : ∀ p ∈ settings, p.Sound) (h : Inv s.object s.threads)
    (hstep : s.Step settings s') : Inv s'.object s'.threads := by
  cases hstep with
  | call t request hidle => exact h.local_step hidle trivial fun _ => ⟨rfl, rfl, rfl⟩
  | advance t fresh hfresh => exact h.advance (hsettings fresh hfresh)
  | getFlushQueue hdone =>
    refine ⟨h.current, h.wf, h.writers, h.duty, h.swapping, h.replaced, h.queued, ?_, h.counted, ?_⟩
    · intro b hb
      exact h.waiting b (mem_append_left _ hb)
    · intro u
      have hlocal := h.locals u
      cases hthread : s.threads u <;> rw [hthread] at hlocal <;> exact hlocal
  | flush b rest hflushing => exact h.flush_step hflushing

theorem Inv.of_reachable (hsettings : ∀ p ∈ settings, p.Sound) (h : s.Reachable settings) :
    Inv s.object s.threads := by
  obtain ⟨p, hp, hrun⟩ := h
  induction hrun with
  | refl => exact Inv.new (hsettings p hp)
  | tail _ hstep ih => exact ih.step hsettings hstep

theorem Inv.handed_step (h : Inv s.object s.threads) (hstep : s.Step settings s') (hb : b ∈ s.object.queued) :
    b ∈ s'.object.queued ∧ (s'.object.buffers b).handed = (s.object.buffers b).handed := by
  cases hstep with
  | call t request hidle => exact ⟨hb, rfl⟩
  | getFlushQueue hdone => exact ⟨hb, rfl⟩
  | flush c rest hflushing =>
    refine ⟨hb, ?_⟩
    by_cases hbc : b = c
    · subst hbc
      simp [LogObject.setBuffer]
    · simp [LogObject.setBuffer, update_of_ne hbc]
  | advance t fresh hfresh =>
    have hlocal := h.locals t
    simp only [System.advance]
    cases ht : s.threads t with
    | idle | load | writing | checkin => exact ⟨hb, rfl⟩
    | checkout c request retries =>
      simp only [LogObject.advance]
      split <;> exact ⟨hb, rfl⟩
    | switchOut c request retries old new ret =>
      rw [ht] at hlocal
      simp only [LogObject.advance]
      split
      · rename_i hold
        subst hold
        refine ⟨hb, ?_⟩
        have hbc : b ≠ c := by
          rintro rfl
          have hopen := (checkoutWrite_cases hlocal.2).1
          rw [(h.of_mem_queued hb).1] at hopen
          cases hopen
        simp [LogObject.setBuffer, update_of_ne hbc]
      split <;> exact ⟨hb, rfl⟩
    | swap c request ret =>
      have hne : b ≠ s.object.used := ne_of_lt (h.queued b hb)
      refine ⟨hb, ?_⟩
      simp [LogObject.advance, LogObject.swapBuffer, update_of_ne hne]
    | enqueue c request => exact ⟨mem_append_left _ hb, rfl⟩
    | done c => exact ⟨mem_append_left _ hb, rfl⟩
    | switchIn c place old new ret =>
      simp only [LogObject.advance]
      split
      · refine ⟨hb, ?_⟩
        by_cases hbc : b = c
        · subst hbc
          simp [LogObject.setBuffer]
        · simp [LogObject.setBuffer, update_of_ne hbc]
      · exact ⟨hb, rfl⟩

theorem Inv.handed_run (hsettings : ∀ p ∈ settings, p.Sound) (h : Inv s.object s.threads)
    (hrun : ReflTransGen (System.Step settings) s s') (hb : b ∈ s.object.queued) :
    (s'.object.buffers b).handed = (s.object.buffers b).handed := by
  suffices hall : Inv s'.object s'.threads ∧ b ∈ s'.object.queued ∧
      (s'.object.buffers b).handed = (s.object.buffers b).handed from hall.2.2
  induction hrun with
  | refl => exact ⟨h, hb, rfl⟩
  | tail _ hstep ih =>
    obtain ⟨hinv, hmem, hhanded⟩ := ih
    obtain ⟨hmem', hhanded'⟩ := hinv.handed_step hstep hmem
    exact ⟨hinv.step hsettings hstep, hmem', hhanded'.trans hhanded⟩

end Inv

/-! ### One thread alone

The runs that go wrong need one thread only. -/

section Alone
variable {T : Type} [DecidableEq T] {settings : Set Params} {o : LogObject} {threads : T → Thread}
  {t : T}

theorem System.Reachable.step {s s' : System T} (h : s.Reachable settings)
    (hstep : s.Step settings s') : s'.Reachable settings := by
  obtain ⟨p, hp, hrun⟩ := h
  exact ⟨p, hp, hrun.tail hstep⟩

theorem System.Reachable.advance_alone {x : Thread}
    (h : System.Reachable settings ⟨o, update threads t x⟩) (fresh : Params)
    (hfresh : fresh ∈ settings) : System.Reachable settings
      ⟨(o.advance fresh x).1, update threads t (o.advance fresh x).2⟩ := by
  have hnext := h.step (System.Step.advance _ t fresh hfresh)
  simpa [System.advance] using hnext

theorem System.Reachable.checkout_alone (h : System.Reachable settings ⟨o, update threads t .idle⟩)
    (request : Option WriteSize) (new : LBState) (ret : LBResultCode)
    (hfresh : fresh ∈ settings) (hattempt : checkoutWrite (o.buffers o.logBuffer).params request
      (o.buffers o.logBuffer).state = .switch new ret) : System.Reachable settings
      ⟨o.setBuffer o.logBuffer (((o.buffers o.logBuffer).switchState new).recordHanded request
          (o.buffers o.logBuffer).state.offset ret), update threads t
          (.result o.logBuffer request (o.buffers o.logBuffer).state.offset ret)⟩ := by
  have hcall := h.step (System.Step.call _ t request (update_self _ _ _))
  simp only [update_idem] at hcall
  have hload := (hcall.advance_alone fresh hfresh).advance_alone fresh hfresh
  simp only [LogObject.advance, hattempt] at hload
  have hswitch := hload.advance_alone fresh hfresh
  simpa only [LogObject.advance, ↓reduceIte] using hswitch

theorem System.Reachable.checkin_alone {place : Handed}
    (h : System.Reachable settings ⟨o, update threads t (.writing b place)⟩)
    (new : LBState) (hfresh : fresh ∈ settings)
    (hcheckin : checkinWrite (o.buffers b).state .ok = (new, .ok)) : System.Reachable settings
      ⟨o.setBuffer b ((o.buffers b).switchState new), update threads t .idle⟩ := by
  have hread := (h.advance_alone fresh hfresh).advance_alone fresh hfresh
  simp only [LogObject.advance, hcheckin] at hread
  have hswitch := hread.advance_alone fresh hfresh
  simpa only [LogObject.advance, ↓reduceIte, reduceCtorEq] using hswitch

def LogBuffer.oneEntry (p : Params) (w : WriteSize) : LogBuffer where
  params := p
  state :=
    ⟨(p.hdrSize % 2 ^ 16 + actualWriteSize w) % 2 ^ 16, 1,
      (p.hdrSize % 2 ^ 16 + actualWriteSize w) % 2 ^ 16, false, 0⟩
  handed := [⟨p.hdrSize % 2 ^ 16, w⟩]
  header := none

theorem reachable_oneEntry (t : T) (hp : p ∈ settings) {w : WriteSize}
    (hmax : 0 < p.maxEntries) (hroom : p.hdrSize % 2 ^ 16 + actualWriteSize w ≤ p.size) :
    System.Reachable settings ⟨(LogObject.new p).setBuffer 0 (.oneEntry p w),
      update (fun _ : T => Thread.idle) t .idle⟩ := by
  have hstart : System.Reachable settings ⟨LogObject.new p, update (fun _ : T => Thread.idle) t .idle⟩ := by
    rw [update_eq_self_iff.mpr rfl]
    exact ⟨p, hp, .refl⟩
  have hattempt : checkoutWrite p (some w) (new p).state = .switch
      ⟨(p.hdrSize % 2 ^ 16 + actualWriteSize w) % 2 ^ 16, 1,
        (p.hdrSize % 2 ^ 16 + actualWriteSize w) % 2 ^ 16, false, 1⟩ .ok := by
    simp only [checkoutWrite, new, Bool.false_eq_true, ↓reduceIte]
    have hentries : (0 + 1) % 2 ^ 16 = 1 := by decide
    have hwriters : (0 + 1) % 2 ^ 15 = 1 := by decide
    rw [if_pos ⟨by exact_mod_cast hmax, by omega⟩, hentries, hwriters]
  have hout := hstart.checkout_alone _ _ _ hp hattempt
  have hin := hout.checkin_alone (oneEntry p w).state hp (by
    simp [LogObject.setBuffer, LogObject.new, new, oneEntry, checkinWrite])
  simpa [LogObject.setBuffer, LogObject.new, switchState, recordHanded, oneEntry, new] using hin

theorem reachable_oneEntry_flushed (t : T) (hp : p ∈ settings) {w : WriteSize}
    (hmax : 0 < p.maxEntries) (hroom : p.hdrSize % 2 ^ 16 + actualWriteSize w ≤ p.size) :
    ∃ s : System T, s.Reachable settings ∧ 0 < s.object.used ∧ (s.object.buffers 0).params = p ∧
      (s.object.buffers 0).handed = [⟨p.hdrSize % 2 ^ 16, w⟩] ∧ (s.object.buffers 0).header =
        some (1, (p.hdrSize % 2 ^ 16 + actualWriteSize w) % 2 ^ 16) := by
  have hone := reachable_oneEntry t hp hmax hroom
  have hfull := hone.checkout_alone none { (oneEntry p w).state with full := true }
    .fullNoWriters hp (by simp [LogObject.setBuffer, LogObject.new, oneEntry, checkoutWrite, setFull])
  have hqueued := (hfull.advance_alone p hp).advance_alone p hp
  have htaken := hqueued.step (System.Step.getFlushQueue _ rfl)
  have hflushed := htaken.step (System.Step.flush _ 0 [] rfl)
  refine ⟨_, hflushed, Nat.succ_pos _, ?_⟩
  simp [LogObject.setBuffer, LogObject.new, LogObject.advance, LogObject.swapBuffer,
    LogObject.addToFlushQueue, recordHanded, updateHeaderData, oneEntry, Thread.result]

end Alone

/-! ### The result -/

section Result
variable {T : Type} [Fintype T] [DecidableEq T] [Inhabited T]

/-- **Logging is safe exactly with buffers in which the offset cannot overflow.** In every state of
every run the property holds, and a buffer that has come to the flush queue stays as it is, if and
only if every buffer is made with sound settings. -/
theorem logging_safe_iff (settings : Set Params) : (∀ s : System T, s.Reachable settings → s.Safe ∧
      ∀ s', ReflTransGen (System.Step settings) s s' → ∀ b ∈ s.object.queued,
        (s'.object.buffers b).handed = (s.object.buffers b).handed) ↔ ∀ p ∈ settings, p.Sound := by
  constructor
  · intro hsafe p hp
    by_contra hsound
    unfold Params.Sound at hsound
    push Not at hsound
    obtain ⟨hmax, hroom, hlarge⟩ := hsound
    have hsize := p.size_le
    obtain ⟨k, hk⟩ := p.aligned
    simp only [minAlign, sizeofLogEntryHeader] at hk hroom
    -- the entry that fills the buffer to its end
    have hfill : ∃ w : WriteSize,
        p.hdrSize % 2 ^ 16 + actualWriteSize w = p.size / 8 * 8 := by
      refine ⟨⟨p.size / 8 * 8 - p.hdrSize % 2 ^ 16 - 24, by omega⟩, ?_⟩
      simp only [actualWriteSize, minAlign, sizeofLogEntryHeader]
      omega
    obtain ⟨w, hw⟩ := hfill
    obtain ⟨s, hs, hused, hparams, hhanded, hheader⟩ :=
      reachable_oneEntry_flushed (default : T) hp hmax (w := w) (by omega)
    obtain ⟨hall, -⟩ := hsafe s hs
    by_cases hhdr : p.hdrSize < 2 ^ 16
    · obtain ⟨-, hbytes⟩ := hall.counted 0 hused _ _ hheader
      simp only [endOffset, hhanded, getLast?_singleton, Option.map_some, Option.getD_some, Handed.stop] at hbytes
      omega
    · have hinside := (hall.inside 0 hused ⟨p.hdrSize % 2 ^ 16, w⟩ (by simp [hhanded])).1
      rw [hparams] at hinside
      simp only at hinside
      omega
  · intro hsettings s hs
    have hinv := Inv.of_reachable hsettings hs
    exact ⟨hinv.safe, fun s' hrun b hb => hinv.handed_run hsettings hrun hb⟩

def Params.large : Params := ⟨2 ^ 16, 160, 100, Nat.le_refl _, ⟨20, rfl⟩⟩

/-- With a buffer of 64 KB, an entry of 65352 bytes fills the buffer to its end. The next entry is
handed out at offset 0, over the header, and if the buffer is flushed instead, its header tells that
there is one entry and that there are no bytes. -/
theorem large_buffer_unsafe : (∃ s : System Unit, s.Reachable {large} ∧ (s.object.buffers 0).handed =
      [⟨160, ⟨65352, by decide⟩⟩, ⟨0, ⟨100, by decide⟩⟩]) ∧
    ∃ s : System Unit, s.Reachable {large} ∧ 0 < s.object.used ∧
      (s.object.buffers 0).handed = [⟨160, ⟨65352, by decide⟩⟩] ∧
      (s.object.buffers 0).header = some (1, 0) ∧ (s.object.buffers 0).endOffset = 65536 := by
  have hp : large ∈ ({large} : Set Params) := rfl
  have hmax : 0 < large.maxEntries := by decide
  have hactual : actualWriteSize ⟨65352, by decide⟩ = 65376 := by decide
  have hroom : large.hdrSize % 2 ^ 16 + actualWriteSize ⟨65352, by decide⟩ ≤ large.size := by decide
  constructor
  · have hone := reachable_oneEntry () hp hmax hroom
    have hattempt : checkoutWrite large (some ⟨100, by decide⟩) ⟨0, 1, 0, false, 0⟩ =
        .switch ⟨128, 2, 128, false, 1⟩ .ok := by decide
    exact ⟨_, hone.checkout_alone (some ⟨100, by decide⟩) ⟨128, 2, 128, false, 1⟩ .ok hp hattempt,
      rfl⟩
  · obtain ⟨s, hs, hused, hparams, hhanded, hheader⟩ :=
      reachable_oneEntry_flushed () hp hmax hroom
    refine ⟨s, hs, hused, hhanded, hheader, ?_⟩
    rw [endOffset, hhanded]
    show 160 + actualWriteSize ⟨65352, by decide⟩ = 65536
    omega

end Result

end Log

end TrafficServer
