import Mathlib.Logic.Relation
import TrafficServer.Lib.ThreadWeight
import TrafficServer.Logging.LogBuffer

/-!
# Logging from many threads

Any number of threads call `LogObject::_checkout_write`, write their entry and call `checkin_write`.
A step of the system is a step of one thread between two accesses to shared memory: it loads
`m_log_buffer`, reads the word of a buffer, tries its compare-and-swap, swaps a new buffer in, or puts a
buffer on the flush queue. The thread that flushes writes the headers of the buffers on the queue.

The proof rests on three sums over all threads, for every buffer: those that hold a place in it are as
many as the word counts writers, at most one has the duty to flush it, and at most one replaces it. A
full buffer is flushed by the thread that has set it to full if nobody writes to it, and by the last
writer otherwise; `Inv.duty` says that the duty is never lost and never doubled.
-/

namespace TrafficServer

namespace Log

open Function List ThreadWeight LogBuffer LBState

/-! ### Threads -/

/-- Where a thread is, with the local variables it still needs. -/
inductive Thread
  | idle
  /-- at the top of the loop of `_checkout_write` -/
  | load (request : Option WriteSize)
  /-- at the top of the loop of `checkout_write` -/
  | checkout (buffer : Nat) (request : Option WriteSize) (retries : Nat)
  /-- before the compare-and-swap of `checkout_write` -/
  | switchOut (buffer : Nat) (request : Option WriteSize) (retries : Nat) (old new : LBState)
      (ret : LBResultCode)
  /-- has set the buffer to full -/
  | swap (buffer : Nat) (request : Option WriteSize) (ret : LBResultCode)
  /-- has replaced a buffer without writers -/
  | enqueue (buffer : Nat) (request : Option WriteSize)
  /-- has a place for its entry -/
  | writing (buffer : Nat) (place : Handed)
  /-- at the top of the loop of `checkin_write` -/
  | checkin (buffer : Nat) (place : Handed) (ret : LBResultCode)
  /-- before the compare-and-swap of `checkin_write` -/
  | switchIn (buffer : Nat) (place : Handed) (old new : LBState) (ret : LBResultCode)
  /-- `checkin_write` has returned `LB_ALL_WRITERS_DONE` -/
  | done (buffer : Nat)

namespace Thread

/-- The end of the loop of `_checkout_write`, `while (retry && write_offset)`, with `retry` set. -/
def resume : Option WriteSize → Thread
  | some writeSize => .load (some writeSize)
  | none => .idle

/-- The `switch` of `_checkout_write` on what `checkout_write` has returned. -/
def result (buffer : Nat) (request : Option WriteSize) (offset : Nat) : LBResultCode → Thread
  | .ok =>
    match request with
    | some writeSize => .writing buffer ⟨offset, writeSize⟩
    | none => .idle
  | .fullActiveWriters => .swap buffer request .fullActiveWriters
  | .fullNoWriters => .swap buffer request .fullNoWriters
  | .bufferTooSmall => .idle
  | .retry | .busy | .allWritersDone => resume request

def holds (b : Nat) : Thread → Nat
  | .writing buffer _ | .checkin buffer _ _ | .switchIn buffer _ _ _ _ =>
    if buffer = b then 1 else 0
  | _ => 0

/-- The thread is about to put the buffer on the flush queue. -/
def owes (b : Nat) : Thread → Nat
  | .swap buffer _ ret => if buffer = b ∧ ret = .fullNoWriters then 1 else 0
  | .enqueue buffer _ | .done buffer => if buffer = b then 1 else 0
  | _ => 0

def swaps (b : Nat) : Thread → Nat
  | .swap buffer _ _ => if buffer = b then 1 else 0
  | _ => 0

variable (b : Nat) (request : Option WriteSize)

@[simp] theorem holds_resume : (resume request).holds b = 0 := by cases request <;> rfl

@[simp] theorem owes_resume : (resume request).owes b = 0 := by cases request <;> rfl

@[simp] theorem swaps_resume : (resume request).swaps b = 0 := by cases request <;> rfl

def Away (x : Thread) : Prop := ∀ b, x.holds b = 0 ∧ x.owes b = 0 ∧ x.swaps b = 0

theorem away_resume (request : Option WriteSize) : (resume request).Away :=
  fun b => ⟨holds_resume b request, owes_resume b request, swaps_resume b request⟩

def Same (x y : Thread) (c : Nat) : Prop :=
  x.holds c = y.holds c ∧ x.owes c = y.owes c ∧ x.swaps c = y.swaps c

end Thread

open Thread

/-! ### The log object -/

/-- `LogObject` with its `LogBufferManager`. The buffers that exist are those below `used`; `flushing`
is the list that `flush_buffers` has taken from the queue, and `queued` the history of the calls of
`add_to_flush_queue`. -/
structure LogObject where
  buffers : Nat → LogBuffer
  used : Nat
  logBuffer : Nat
  flushList : List Nat
  flushing : List Nat
  queued : List Nat

/-- `retries` at the start of `checkout_write`. -/
def maxRetries : Nat := 2 ^ 64 - 1

namespace LogObject

def new (p : Params) : LogObject where
  buffers := fun _ => LogBuffer.new p
  used := 1
  logBuffer := 0
  flushList := []
  flushing := []
  queued := []

def setBuffer (o : LogObject) (b : Nat) (x : LogBuffer) : LogObject :=
  { o with buffers := update o.buffers b x }

/-- The new buffer of `_checkout_write` and the swap of `m_log_buffer`. -/
def swapBuffer (o : LogObject) (fresh : Params) : LogObject :=
  { o with
    buffers := update o.buffers o.used (LogBuffer.new fresh)
    used := o.used + 1
    logBuffer := o.used }

def addToFlushQueue (o : LogObject) (b : Nat) : LogObject :=
  { o with flushList := o.flushList ++ [b], queued := o.queued ++ [b] }

/-- A step of a thread; `fresh` has the settings with which a buffer would be made now. -/
def advance (o : LogObject) (fresh : Params) : Thread → LogObject × Thread
  | .idle => (o, .idle)
  | .load request => (o, .checkout o.logBuffer request maxRetries)
  | .checkout b request retries =>
    match checkoutWrite (o.buffers b).params request (o.buffers b).state with
    | .leave ret => (o, .result b request 0 ret)
    | .switch new ret => (o, .switchOut b request retries (o.buffers b).state new ret)
  | .switchOut b request retries old new ret =>
    if (o.buffers b).state = old then
      (o.setBuffer b (((o.buffers b).switchState new).recordHanded request old.offset ret),
        .result b request old.offset ret)
    else if retries - 1 = 0 then (o, .result b request old.offset .busy)
    else (o, .checkout b request (retries - 1))
  | .swap b request ret =>
    (o.swapBuffer fresh,
      if ret = .fullNoWriters then .enqueue b request else resume request)
  | .enqueue b request => (o.addToFlushQueue b, resume request)
  | .writing b place => (o, .checkin b place .ok)
  | .checkin b place ret =>
    (o, .switchIn b place (o.buffers b).state (checkinWrite (o.buffers b).state ret).1
      (checkinWrite (o.buffers b).state ret).2)
  | .switchIn b place old new ret =>
    if (o.buffers b).state = old then
      (o.setBuffer b ((o.buffers b).switchState new),
        if ret = .allWritersDone then .done b else .idle)
    else (o, .checkin b place ret)
  | .done b => (o.addToFlushQueue b, .idle)

end LogObject

open LogObject

/-- The log object and the threads that log to it. -/
structure System (T : Type) where
  object : LogObject
  threads : T → Thread

namespace System

variable {T : Type} [DecidableEq T]

def advance (s : System T) (t : T) (fresh : Params) : System T where
  object := (s.object.advance fresh (s.threads t)).1
  threads := update s.threads t (s.object.advance fresh (s.threads t)).2

/-- The steps of the threads and of `flush_buffers`, where every buffer is made with settings from
`settings`. -/
inductive Step (settings : Set Params) : System T → System T → Prop
  | call (s : System T) (t : T) (request : Option WriteSize) (hidle : s.threads t = .idle) :
      Step settings s { s with threads := update s.threads t (.load request) }
  | advance (s : System T) (t : T) (fresh : Params) (hfresh : fresh ∈ settings) :
      Step settings s (s.advance t fresh)
  | getFlushQueue (s : System T) (hdone : s.object.flushing = []) :
      Step settings s
        { s with object := { s.object with flushing := s.object.flushList, flushList := [] } }
  | flush (s : System T) (b : Nat) (rest : List Nat) (hflushing : s.object.flushing = b :: rest) :
      Step settings s
        { s with
          object :=
            { s.object.setBuffer b (s.object.buffers b).updateHeaderData with flushing := rest } }

def new (p : Params) : System T := ⟨LogObject.new p, fun _ => .idle⟩

def Reachable (settings : Set Params) (s : System T) : Prop :=
  ∃ p ∈ settings, Relation.ReflTransGen (Step settings) (new p) s

/-- What is expected of every state. -/
structure Safe (s : System T) : Prop where
  disjoint : ∀ b < s.object.used, (s.object.buffers b).handed.Pairwise fun h k =>
    h.stop ≤ k.offset ∨ k.stop ≤ h.offset
  inside : ∀ b < s.object.used, ∀ h ∈ (s.object.buffers b).handed,
    (s.object.buffers b).params.hdrSize ≤ h.offset ∧ h.stop ≤ (s.object.buffers b).params.size
  /-- A buffer that has been replaced is full, -/
  replaced : ∀ b < s.object.used, b ≠ s.object.logBuffer → (s.object.buffers b).state.full = true
  /-- a full buffer has been put on the flush queue exactly once when the calls have returned, -/
  flushed : (∀ t, s.threads t = .idle) → ∀ b < s.object.used,
    (s.object.buffers b).state.full = true → s.object.queued.count b = 1
  /-- and in no state more than once, -/
  once : ∀ b, s.object.queued.count b ≤ 1
  /-- and then it is full and no thread has a place in it. -/
  noWriters : ∀ b ∈ s.object.queued,
    (s.object.buffers b).state.full = true ∧ ∀ t, (s.threads t).holds b = 0
  counted : ∀ b < s.object.used, ∀ entryCount byteCount,
    (s.object.buffers b).header = some (entryCount, byteCount) →
      entryCount = (s.object.buffers b).handed.length ∧
        byteCount = (s.object.buffers b).endOffset

end System

/-! ### The invariant -/

/-- The word is full and a writer is left, who will flush the buffer. -/
def LBState.pending (s : LBState) : Nat := if s.full = true ∧ s.numWriters ≠ 0 then 1 else 0

theorem LBState.pending_eq_one {s : LBState} (hfull : s.full = true) (hwriters : s.numWriters ≠ 0) :
    s.pending = 1 := if_pos ⟨hfull, hwriters⟩

theorem LBState.pending_eq_zero {s : LBState} (h : s.full = false ∨ s.numWriters = 0) : s.pending = 0 := by
  apply if_neg
  rintro ⟨hfull, hwriters⟩
  rcases h with h | h
  · rw [h] at hfull
    cases hfull
  · exact hwriters h

/-- The buffers a thread refers to exist, and what it carries along is what it has computed. The last
part is about the value of `ret_val` that `checkin_write` keeps when its compare-and-swap fails. -/
def LogObject.Local (o : LogObject) : Thread → Prop
  | .idle | .load _ => True
  | .checkout b _ _ | .swap b _ _ | .enqueue b _ | .writing b _ | .done b => b < o.used
  | .switchOut b request _ old new ret =>
    b < o.used ∧ checkoutWrite (o.buffers b).params request old = .switch new ret
  | .checkin b _ ret => b < o.used ∧ ret = .ok
  | .switchIn b _ old new ret =>
    b < o.used ∧ checkinWrite old .ok = (new, ret) ∧
      (ret = .allWritersDone → (o.buffers b).state = old)

structure Inv {T : Type} [Fintype T] (o : LogObject) (threads : T → Thread) : Prop where
  current : o.logBuffer < o.used
  wf : ∀ b < o.used, (o.buffers b).WF
  writers : ∀ b < o.used,
    (o.buffers b).state.numWriters = weight (holds b) threads
  duty : ∀ b < o.used,
    o.queued.count b + weight (owes b) threads + (o.buffers b).state.pending =
      (o.buffers b).state.full.toNat
  swapping : ∀ b < o.used, weight (swaps b) threads =
    if b = o.logBuffer then (o.buffers b).state.full.toNat else 0
  replaced : ∀ b < o.used, b ≠ o.logBuffer → (o.buffers b).state.full = true
  queued : ∀ b ∈ o.queued, b < o.used
  waiting : ∀ b ∈ o.flushList ++ o.flushing, b ∈ o.queued
  counted : ∀ b < o.used, ∀ c, (o.buffers b).header = some c →
    b ∈ o.queued ∧ c = ((o.buffers b).state.numEntries, (o.buffers b).state.byteCount)
  locals : ∀ t, o.Local (threads t)

section Inv
variable {T : Type} [Fintype T] {o : LogObject} {threads : T → Thread}

theorem Inv.of_mem_queued (h : Inv o threads) {b : Nat} (hb : b ∈ o.queued) :
    (o.buffers b).state.full = true ∧ (o.buffers b).state.numWriters = 0 ∧ o.queued.count b = 1 := by
  have hduty := h.duty b (h.queued b hb)
  have hcount := count_pos_iff.mpr hb
  cases hfull : (o.buffers b).state.full with
  | false =>
    rw [hfull] at hduty
    simp only [Bool.toNat_false] at hduty
    omega
  | true =>
    simp only [hfull, Bool.toNat_true] at hduty
    refine ⟨rfl, ?_, by omega⟩
    by_contra hne
    rw [pending_eq_one hfull hne] at hduty
    omega

theorem LogObject.Local.resume (request : Option WriteSize) : o.Local (resume request) := by cases request <;> trivial

theorem Local.holds_used (h : o.Local t) : t.holds o.used = 0 := by
  cases t <;> simp only [LogObject.Local] at h <;> simp only [holds] <;>
    rw [if_neg] <;> omega

theorem Local.owes_used (h : o.Local t) : t.owes o.used = 0 := by
  cases t <;> simp only [LogObject.Local] at h <;> simp only [owes]
  all_goals rw [if_neg]
  all_goals omega

theorem Local.swaps_used (h : o.Local t) : t.swaps o.used = 0 := by
  cases t <;> simp only [LogObject.Local] at h <;> simp only [swaps]
  all_goals rw [if_neg]
  all_goals omega

theorem Inv.new {p : Params} (hp : p.Sound) : Inv (new p) (fun _ : T => idle) where
  current := zero_lt_one
  wf := fun _ _ => LogBuffer.WF.new hp
  writers := fun _ _ => ((weight_eq_zero_iff _ _).mpr fun _ => rfl).symm
  duty := by
    intro b _
    rw [(weight_eq_zero_iff (owes b) _).mpr fun _ => rfl]
    rfl
  swapping := by
    intro b _
    rw [(weight_eq_zero_iff (swaps b) _).mpr fun _ => rfl]
    by_cases hb : b = (LogObject.new p).logBuffer
    · rw [if_pos hb]
      rfl
    · rw [if_neg hb]
  replaced := by
    intro b hb hne
    simp only [LogObject.new] at hb hne
    omega
  queued := fun _ hb => absurd hb not_mem_nil
  waiting := fun _ hb => absurd hb not_mem_nil
  counted := fun _ _ _ hc => nomatch hc
  locals := fun _ => trivial

/-- What the other threads carry along stays right when the word of `b` changes, except for a thread
that has read a full word with itself as the last writer. -/
theorem Inv.setBuffer_local (h : Inv o threads) {b : Nat} {y : LogBuffer} {u : T}
    (hparams : y.params = (o.buffers b).params)
    (hlast : ¬((o.buffers b).state.full = true ∧ (o.buffers b).state.numWriters = 1 ∧
      (threads u).holds b = 1)) : (o.setBuffer b y).Local (threads u) := by
  have hlocal := h.locals u
  cases hu : threads u with
  | switchOut c request retries old new ret =>
    rw [hu] at hlocal
    refine ⟨hlocal.1, ?_⟩
    by_cases hcb : c = b
    · subst hcb
      simpa [setBuffer, hparams] using hlocal.2
    · simpa [setBuffer, update_of_ne hcb] using hlocal.2
  | switchIn c place old new ret =>
    rw [hu] at hlocal
    obtain ⟨hc, hcheckin, hret⟩ := hlocal
    refine ⟨hc, hcheckin, fun hdone => ?_⟩
    by_cases hcb : c = b
    · subst hcb
      refine absurd ?_ hlast
      have hold := hret hdone
      have hlt := (h.wf c hc).numWriters_lt
      rw [hu, hold]
      rw [hold] at hlt
      obtain ⟨rfl, ⟨-, hleft, hfull⟩ | ⟨hok, -⟩⟩ := checkinWrite_cases hcheckin
      · exact ⟨hfull, by dsimp only at hleft; omega, if_pos rfl⟩
      · rw [hok] at hdone
        cases hdone
    · simpa [setBuffer, update_of_ne hcb] using hret hdone
  | _ =>
    rw [hu] at hlocal
    exact hlocal

/-- What the invariant says of one buffer. -/
structure BufferInv (o : LogObject) (threads : T → Thread) (b : Nat) : Prop where
  wf : (o.buffers b).WF
  writers : (o.buffers b).state.numWriters = weight (holds b) threads
  duty : o.queued.count b + weight (owes b) threads + (o.buffers b).state.pending =
    (o.buffers b).state.full.toNat
  swapping : weight (swaps b) threads =
    if b = o.logBuffer then (o.buffers b).state.full.toNat else 0
  replaced : b ≠ o.logBuffer → (o.buffers b).state.full = true
  counted : ∀ c, (o.buffers b).header = some c →
    b ∈ o.queued ∧ c = ((o.buffers b).state.numEntries, (o.buffers b).state.byteCount)

theorem Inv.buffer (h : Inv o threads) {b : Nat} (hb : b < o.used) : BufferInv o threads b :=
  ⟨h.wf b hb, h.writers b hb, h.duty b hb, h.swapping b hb, h.replaced b hb, h.counted b hb⟩

theorem Inv.of_buffers (hcurrent : o.logBuffer < o.used)
    (hbuffers : ∀ b < o.used, BufferInv o threads b) (hqueued : ∀ b ∈ o.queued, b < o.used)
    (hwaiting : ∀ b ∈ o.flushList ++ o.flushing, b ∈ o.queued) (hlocals : ∀ t, o.Local (threads t)) : Inv o threads :=
  ⟨hcurrent, fun b hb => (hbuffers b hb).wf, fun b hb => (hbuffers b hb).writers,
    fun b hb => (hbuffers b hb).duty, fun b hb => (hbuffers b hb).swapping,
    fun b hb => (hbuffers b hb).replaced, hqueued, hwaiting, fun b hb => (hbuffers b hb).counted,
    hlocals⟩

theorem BufferInv.congr {o' : LogObject} {threads' : T → Thread} {b : Nat}
    (h : BufferInv o threads b) (hbuffer : o'.buffers b = o.buffers b)
    (hqueued : o'.queued = o.queued) (hcurrent : o'.logBuffer = o.logBuffer)
    (hholds : weight (holds b) threads' = weight (holds b) threads)
    (howes : weight (owes b) threads' = weight (owes b) threads)
    (hswaps : weight (swaps b) threads' = weight (swaps b) threads) : BufferInv o' threads' b := by
  obtain ⟨hwf, hwriters, hduty, hswapping, hreplaced, hcounted⟩ := h
  constructor
  all_goals rw [hbuffer]
  · exact hwf
  · rw [hholds, hwriters]
  · rw [hqueued, howes, hduty]
  · rw [hswaps, hcurrent, hswapping]
  · rwa [hcurrent]
  · rwa [hqueued]

variable [DecidableEq T] {t : T} {x z : Thread} (ht : threads t = z)
include ht

theorem BufferInv.update {o' : LogObject} {b : Nat} (h : BufferInv o threads b) (hsame : x.Same z b)
    (hbuffer : o'.buffers b = o.buffers b) (hqueued : o'.queued = o.queued)
    (hcurrent : o'.logBuffer = o.logBuffer) : BufferInv o' (update threads t x) b := by
  subst ht
  exact h.congr hbuffer hqueued hcurrent (weight_update_of_eq _ _ hsame.1)
    (weight_update_of_eq _ _ hsame.2.1) (weight_update_of_eq _ _ hsame.2.2)

theorem Inv.local_step (h : Inv o threads) (hlocal : o.Local x) (hsame : ∀ b, x.Same z b) :
    Inv o (update threads t x) :=
  .of_buffers h.current (fun b hb => (h.buffer hb).update ht (hsame b) rfl rfl rfl) h.queued h.waiting
    ((forall_update_iff _ _).mpr ⟨hlocal, fun u _ => h.locals u⟩)

/-- A successful compare-and-swap on buffer `b` that leaves it as `y`: for `b` the three sums move as
the word does, and the other buffers do not notice. -/
theorem Inv.switch_step (h : Inv o threads) {b : Nat} {y : LogBuffer} (hb : b < o.used) (hwf : y.WF)
    (hparams : y.params = (o.buffers b).params) (hheader : y.header = (o.buffers b).header)
    (hholds : y.state.numWriters + z.holds b = (o.buffers b).state.numWriters + x.holds b)
    (howes : x.owes b + y.state.pending + (o.buffers b).state.full.toNat =
      z.owes b + (o.buffers b).state.pending + y.state.full.toNat)
    (hswaps : x.swaps b + (o.buffers b).state.full.toNat = z.swaps b + y.state.full.toNat)
    (hcurrent : y.state.full = (o.buffers b).state.full ∨ b = o.logBuffer)
    (hfull : (o.buffers b).state.full = true → y.state.full = true ∧ y.state.numEntries =
      (o.buffers b).state.numEntries ∧ y.state.byteCount = (o.buffers b).state.byteCount)
    (hother : ∀ c, c ≠ b → x.Same z c) (hlocal : (o.setBuffer b y).Local x)
    (hlocals : ∀ u, u ≠ t → (o.setBuffer b y).Local (threads u)) :
    Inv (o.setBuffer b y) (update threads t x) := by
  refine .of_buffers h.current (fun c hc => ?_) h.queued h.waiting ((forall_update_iff _ _).mpr ⟨hlocal, hlocals⟩)
  by_cases hcb : c = b
  · subst hcb ht
    have hbuffer := h.buffer hc
    have hsum := weight_update (holds c) threads t x
    have hsum' := weight_update (owes c) threads t x
    have hsum'' := weight_update (swaps c) threads t x
    constructor <;> simp only [setBuffer, update_self]
    · exact hwf
    · have := hbuffer.writers
      omega
    · have := hbuffer.duty
      omega
    · have hswapping := hbuffer.swapping
      by_cases hcur : c = o.logBuffer
      · rw [if_pos hcur] at hswapping ⊢
        omega
      · rw [if_neg hcur] at hswapping ⊢
        rw [hcurrent.resolve_right hcur] at hswaps
        omega
    · exact fun hne => (hfull (hbuffer.replaced hne)).1
    · intro n hn
      obtain ⟨hmem, hn⟩ := hbuffer.counted n (hheader ▸ hn)
      obtain ⟨-, hentries, hbytes⟩ := hfull (h.of_mem_queued hmem).1
      exact ⟨hmem, by rw [hentries, hbytes, hn]⟩
  · exact (h.buffer hc).update ht (hother c hcb) (update_of_ne hcb _ _) rfl rfl

theorem Inv.open_step (h : Inv o threads) (haway : z.Away) {b : Nat} {y : LogBuffer} (hb : b < o.used)
    (hopen : (o.buffers b).state.full = false) (hwf : y.WF) (hparams : y.params = (o.buffers b).params)
    (hheader : y.header = (o.buffers b).header)
    (hholds : y.state.numWriters = (o.buffers b).state.numWriters + x.holds b)
    (howes : x.owes b + y.state.pending = y.state.full.toNat) (hswaps : x.swaps b = y.state.full.toNat)
    (hother : ∀ c, c ≠ b → x.Same z c) (hlocal : (o.setBuffer b y).Local x) :
    Inv (o.setBuffer b y) (update threads t x) := by
  obtain ⟨hholds', howes', hswaps'⟩ := haway b
  have hnot : ¬(o.buffers b).state.full = true := by simp [hopen]
  apply h.switch_step ht hb hwf hparams hheader
  case hholds => omega
  case howes =>
    rw [hopen, howes', pending_eq_zero (.inl hopen), howes, Bool.toNat_false]
    omega
  case hswaps => rw [hopen, hswaps, hswaps', Bool.toNat_false, zero_add, add_zero]
  case hcurrent =>
    -- only the current buffer is not full
    by_contra hne
    exact hnot (h.replaced b hb fun heq => hne (.inr heq))
  case hfull => exact fun hfull => absurd hfull hnot
  case hother => exact hother
  case hlocal => exact hlocal
  case hlocals => exact fun u _ => h.setBuffer_local hparams fun hlast => hnot hlast.1

omit ht

variable {ret : LBResultCode} {request : Option WriteSize}

theorem Inv.switchOut_step (h : Inv o threads) {b : Nat} {retries : Nat} {new : LBState}
    (ht : threads t = .switchOut b request retries (o.buffers b).state new ret) :
    Inv (o.setBuffer b (((o.buffers b).switchState new).recordHanded request (o.buffers b).state.offset ret))
      (update threads t (.result b request (o.buffers b).state.offset ret)) := by
  have hlocal := h.locals t
  rw [ht] at hlocal
  obtain ⟨hb, hattempt⟩ := hlocal
  obtain ⟨hopen, hcases⟩ := checkoutWrite_cases hattempt
  have hwf := h.wf b hb
  have hlt := hwf.numWriters_lt
  have haway : (switchOut b request retries (o.buffers b).state new ret).Away := fun _ => ⟨rfl, rfl, rfl⟩
  rcases hcases with ⟨w, rfl, rfl, hmax, hfit, rfl⟩ | ⟨rfl, rfl⟩ | ⟨hentries, rfl, rfl⟩
  · -- a place is handed out
    apply h.open_step ht haway hb hopen (hwf.checkout hmax hfit) rfl rfl
    case hholds =>
      simp only [recordHanded_state, switchState_state, result, holds, ↓reduceIte]
      omega
    case howes => simp [result, owes, pending, hopen]
    case hswaps => simp [result, swaps, hopen]
    case hother =>
      intro c hc
      simp [Same, result, holds, owes, swaps, Ne.symm hc]
    case hlocal => exact hb
  · -- the buffer is too small
    rw [recordHanded_of_ne _ _ _ _ (by decide)]
    apply h.open_step ht haway hb hopen (hwf.switchState _ rfl rfl rfl (le_refl _) hwf.nonempty) rfl rfl
    case howes => simp [result, owes, pending, hopen]
    case hswaps => simp [result, swaps, hopen]
    case hother => exact fun _ _ => ⟨rfl, rfl, rfl⟩
    case hlocal => trivial
    rfl
  · -- the buffer becomes full
    generalize hcode : (if (o.buffers b).state.numWriters ≠ 0 then LBResultCode.fullActiveWriters
      else .fullNoWriters) = code
    have hresult : result b request (o.buffers b).state.offset code = .swap b request code := by
      rw [← hcode]
      split <;> rfl
    have hne : code ≠ .ok := by
      rw [← hcode]
      split <;> decide
    rw [recordHanded_of_ne _ _ _ _ hne, hresult]
    apply h.open_step ht haway hb hopen (hwf.switchState { (o.buffers b).state with full := true } rfl rfl
      rfl (le_refl _) fun _ => hentries) rfl rfl rfl
    case howes =>
      by_cases hnone : (o.buffers b).state.numWriters = 0 <;>
        simp [owes, pending, hnone, ← hcode]
    case hswaps => simp [swaps]
    case hother =>
      intro c hc
      simp [Same, holds, owes, swaps, Ne.symm hc]
    case hlocal => exact hb

theorem Inv.switchIn_step (h : Inv o threads) {b : Nat} {place : Handed} {new : LBState}
    (ht : threads t = .switchIn b place (o.buffers b).state new ret) :
    Inv (o.setBuffer b ((o.buffers b).switchState new))
      (update threads t (if ret = .allWritersDone then .done b else .idle)) := by
  have hlocal := h.locals t
  rw [ht] at hlocal
  obtain ⟨hb, hcheckin, -⟩ := hlocal
  have hwf := h.wf b hb
  have hlt := hwf.numWriters_lt
  have hholds : (threads t).holds b = 1 := by
    rw [ht]
    exact if_pos rfl
  have hpos : 1 ≤ (o.buffers b).state.numWriters := by
    rw [h.writers b hb, ← hholds]
    exact le_weight (holds b) threads t
  have hleft : ((o.buffers b).state.numWriters + (2 ^ 15 - 1)) % 2 ^ 15 =
      (o.buffers b).state.numWriters - 1 := by omega
  obtain ⟨rfl, hret⟩ := checkinWrite_cases hcheckin
  rw [hleft] at hret ⊢
  generalize hx : (if ret = .allWritersDone then done b else .idle) = x
  apply h.switch_step ht hb (hwf.switchState { (o.buffers b).state with
    numWriters := (o.buffers b).state.numWriters - 1 } rfl rfl rfl (Nat.sub_le _ _) hwf.nonempty) rfl rfl
  case hholds =>
    have hzero : x.holds b = 0 := by
      rw [← hx]
      split <;> rfl
    rw [hzero, ← ht, hholds]
    exact Nat.sub_add_cancel hpos
  case howes =>
    rw [← hx]
    rcases hret with ⟨rfl, hnone, hfull⟩ | ⟨rfl, hmore⟩
    · rw [pending_eq_one hfull (by omega), switchState_state, pending_eq_zero (.inr hnone)]
      simp [owes]
    · simp only [switchState_state, owes]
      cases hfull : (o.buffers b).state.full with
      | true =>
        have hmore' : (o.buffers b).state.numWriters - 1 ≠ 0 := fun hnone => hmore ⟨hnone, hfull⟩
        rw [pending_eq_one hfull (by omega), pending_eq_one rfl hmore']
        rfl
      | false =>
        rw [pending_eq_zero (.inl hfull), pending_eq_zero (.inl rfl)]
        rfl
  case hswaps =>
    rw [← hx]
    split <;> rfl
  case hcurrent => exact .inl rfl
  case hfull => exact fun hfull => ⟨hfull, rfl, rfl⟩
  case hother =>
    intro c hc
    rw [← hx]
    split <;> simp [Same, holds, owes, swaps, Ne.symm hc]
  case hlocal =>
    rw [← hx]
    split
    · exact hb
    · trivial
  case hlocals =>
    intro u hu
    refine h.setBuffer_local rfl ?_
    rintro ⟨-, hone, hother⟩
    -- both threads hold a place, so there are two writers
    have htwo := add_le_weight (holds b) threads hu
    rw [← h.writers b hb] at htwo
    omega

theorem LogObject.Local.swapBuffer (fresh : Params) (h : o.Local x) : (o.swapBuffer fresh).Local x := by
  have hold : ∀ b, b < o.used → (o.swapBuffer fresh).buffers b = o.buffers b := by
    intro b hb
    exact update_of_ne (ne_of_lt hb) _ _
  have hused : ∀ b, b < o.used → b < (o.swapBuffer fresh).used := by
    intro b hb
    exact Nat.lt_succ_of_lt hb
  cases x with
  | idle | load => trivial
  | checkout | swap | enqueue | writing | done => exact hused _ h
  | checkin => exact ⟨hused _ h.1, h.2⟩
  | switchOut =>
    obtain ⟨hb, hattempt⟩ := h
    exact ⟨hused _ hb, by rw [hold _ hb]; exact hattempt⟩
  | switchIn =>
    obtain ⟨hb, hcheckin, hret⟩ := h
    exact ⟨hused _ hb, hcheckin, by rw [hold _ hb]; exact hret⟩

theorem Inv.swap_step (h : Inv o threads) {b : Nat} {fresh : Params} (hfresh : fresh.Sound)
    (ht : threads t = .swap b request ret) : Inv (o.swapBuffer fresh) (update threads t
      (if ret = .fullNoWriters then .enqueue b request else resume request)) := by
  generalize hx : (if ret = .fullNoWriters then enqueue b request else resume request) = x
  have hb : b < o.used := by
    have hlocal := h.locals t
    rw [ht] at hlocal
    exact hlocal
  obtain ⟨hholds, howes, hswaps, hlocal⟩ : (∀ c, x.holds c = (threads t).holds c) ∧
      (∀ c, x.owes c = (threads t).owes c) ∧ (∀ c, x.swaps c = 0) ∧ o.Local x := by
    rw [ht, ← hx]
    split
    · next hret => exact ⟨fun _ => rfl, fun c => by simp [owes, hret], fun _ => rfl, hb⟩
    · next hret =>
      exact ⟨fun c => holds_resume c request,
        fun c => (owes_resume c request).trans (if_neg fun hboth => hret hboth.2).symm,
        fun c => swaps_resume c request, .resume request⟩
  have hlocals : ∀ u, o.Local (update threads t x u) :=
    (forall_update_iff _ _).mpr ⟨hlocal, fun u _ => h.locals u⟩
  -- the buffer is the current one, and it is full
  have hswapping := h.swapping b hb
  have hself : (threads t).swaps b = 1 := by
    rw [ht]
    exact if_pos rfl
  have hone := le_weight (swaps b) threads t
  obtain ⟨rfl, hfull⟩ : b = o.logBuffer ∧ (o.buffers b).state.full = true := by
    by_cases hcur : b = o.logBuffer
    · rw [if_pos hcur] at hswapping
      refine ⟨hcur, ?_⟩
      by_contra hopen
      rw [Bool.not_eq_true] at hopen
      rw [hopen, Bool.toNat_false] at hswapping
      omega
    · rw [if_neg hcur] at hswapping
      omega
  have hused : o.used ∉ o.queued := fun hmem => lt_irrefl _ (h.queued _ hmem)
  have hold : ∀ c, c < o.used → (o.swapBuffer fresh).buffers c = o.buffers c := by
    intro c hc
    exact update_of_ne (ne_of_lt hc) _ _
  have hnew : (o.swapBuffer fresh).buffers o.used = LogBuffer.new fresh := update_self _ _ _
  refine .of_buffers (Nat.lt_succ_self _) (fun c hc => ?_)
    (fun c hc => Nat.lt_succ_of_lt (h.queued c hc)) h.waiting fun u => (hlocals u).swapBuffer fresh
  rcases Nat.lt_succ_iff_lt_or_eq.mp hc with hc | rfl
  · have hne : c ≠ (o.swapBuffer fresh).logBuffer := ne_of_lt hc
    have hbuffer := h.buffer hc
    constructor
    all_goals rw [hold c hc]
    · exact hbuffer.wf
    · rw [weight_update_of_eq _ _ (hholds c), hbuffer.writers]
    · rw [weight_update_of_eq _ _ (howes c)]
      exact hbuffer.duty
    · have hsum := weight_update (swaps c) threads t x
      have hswap := hbuffer.swapping
      rw [hswaps c, ht] at hsum
      rw [if_neg hne]
      by_cases hcur : c = o.logBuffer
      · subst hcur
        rw [if_pos rfl, hfull, Bool.toNat_true] at hswap
        simp only [swaps, if_pos] at hsum
        omega
      · rw [if_neg hcur] at hswap
        omega
    · intro _
      by_cases hcur : c = o.logBuffer
      · rw [hcur]
        exact hfull
      · exact hbuffer.replaced hcur
    · exact hbuffer.counted
  · constructor
    all_goals rw [hnew]
    · exact LogBuffer.WF.new hfresh
    · rw [(weight_eq_zero_iff _ _).mpr fun u => Local.holds_used (hlocals u)]
      rfl
    · rw [(weight_eq_zero_iff _ _).mpr fun u => Local.owes_used (hlocals u)]
      show o.queued.count o.used + 0 + 0 = 0
      rw [count_eq_zero_of_not_mem hused]
    · rw [(weight_eq_zero_iff _ _).mpr fun u => Local.swaps_used (hlocals u)]
      exact (if_pos rfl).symm
    · exact fun hne => absurd rfl hne
    · exact fun n hn => nomatch hn

theorem Inv.enqueue_step (h : Inv o threads) (ht : threads t = z) {b : Nat} (hb : b < o.used)
    (howes : ∀ c, z.owes c = if b = c then 1 else 0) (hz : ∀ c, z.holds c = 0 ∧ z.swaps c = 0)
    (haway : x.Away) (hlocal : o.Local x) : Inv (o.addToFlushQueue b) (update threads t x) := by
  subst ht
  have hkept : ∀ {y : Thread}, o.Local y → (o.addToFlushQueue b).Local y := by
    intro y hy
    cases y <;> exact hy
  refine .of_buffers h.current (fun c hc => ?_) (fun c hc => ?_) (fun c hc => ?_)
    ((forall_update_iff _ _).mpr ⟨hkept hlocal, fun u _ => hkept (h.locals u)⟩)
  · have hbuffer := h.buffer hc
    refine ⟨hbuffer.wf, ?_, ?_, ?_, hbuffer.replaced, fun n hn => ?_⟩
    · rw [weight_update_of_eq _ _ ((haway c).1.trans (hz c).1.symm)]
      exact hbuffer.writers
    · have hsum := weight_update (owes c) threads t x
      have hduty := hbuffer.duty
      rw [howes c, (haway c).2.1] at hsum
      have hcount : (o.addToFlushQueue b).queued.count c = o.queued.count c + if b = c then 1 else 0 := by
        simp [addToFlushQueue, count_singleton]
      rw [hcount]
      show _ + _ + (o.buffers c).state.pending = (o.buffers c).state.full.toNat
      omega
    · rw [weight_update_of_eq _ _ ((haway c).2.2.trans (hz c).2.symm)]
      exact hbuffer.swapping
    · obtain ⟨hmem, hn⟩ := hbuffer.counted n hn
      exact ⟨mem_append_left _ hmem, hn⟩
  · rcases mem_append.mp hc with hc | hc
    · exact h.queued c hc
    · rw [mem_singleton.mp hc]
      exact hb
  · simp only [addToFlushQueue, mem_append, mem_singleton] at hc ⊢
    rcases hc with (hc | rfl) | hc
    · exact .inl (h.waiting c (mem_append_left _ hc))
    · exact .inr rfl
    · exact .inl (h.waiting c (mem_append_right _ hc))

omit [DecidableEq T] in
theorem Inv.flush_step (h : Inv o threads) {b : Nat} {rest : List Nat} (hflushing : o.flushing = b :: rest) :
    Inv { o.setBuffer b (o.buffers b).updateHeaderData with flushing := rest } threads := by
  have hmem : b ∈ o.queued := by
    apply h.waiting b
    rw [hflushing]
    exact mem_append_right _ mem_cons_self
  refine .of_buffers h.current (fun c hc => ?_) h.queued (fun c hc => ?_) fun u => ?_
  · by_cases hcb : c = b
    · subst hcb
      obtain ⟨hwf, hwriters, hduty, hswapping, hreplaced, -⟩ := h.buffer hc
      constructor <;> simp only [setBuffer, update_self]
      · exact hwf.updateHeaderData
      · exact hwriters
      · exact hduty
      · exact hswapping
      · exact hreplaced
      · exact fun n hn => ⟨hmem, (Option.some.inj hn).symm⟩
    · exact (h.buffer hc).congr (update_of_ne hcb _ _) rfl rfl rfl rfl rfl
  · apply h.waiting c
    rw [hflushing]
    rcases mem_append.mp hc with hc | hc
    · exact mem_append_left _ hc
    · exact mem_append_right _ (mem_cons_of_mem _ hc)
  · have hfull := h.of_mem_queued hmem
    have hlocal := @Inv.setBuffer_local _ _ _ _ h b (o.buffers b).updateHeaderData u rfl fun hlast => by omega
    cases hthread : threads u <;> rw [hthread] at hlocal <;> exact hlocal

theorem Inv.advance (h : Inv o threads) {fresh : Params} (hfresh : fresh.Sound) :
    Inv (o.advance fresh (threads t)).1 (update threads t (o.advance fresh (threads t)).2) := by
  have hlocal := h.locals t
  cases ht : threads t with
  | idle => exact h.local_step ht trivial fun _ => ⟨rfl, rfl, rfl⟩
  | load request => exact h.local_step ht h.current fun _ => ⟨rfl, rfl, rfl⟩
  | checkout b request retries =>
    rw [ht] at hlocal
    simp only [LogObject.advance]
    split
    · rename_i ret hleave
      rcases checkoutWrite_leave hleave with rfl | ⟨rfl, rfl⟩
      · exact h.local_step ht (.resume request) (away_resume request)
      · exact h.local_step ht trivial fun _ => ⟨rfl, rfl, rfl⟩
    · rename_i new ret hswitch
      exact h.local_step ht ⟨hlocal, hswitch⟩ fun _ => ⟨rfl, rfl, rfl⟩
  | switchOut b request retries old new ret =>
    rw [ht] at hlocal
    simp only [LogObject.advance]
    split
    · rename_i hold
      subst hold
      exact h.switchOut_step ht
    split
    · exact h.local_step ht (.resume request) (away_resume request)
    · exact h.local_step ht hlocal.1 fun _ => ⟨rfl, rfl, rfl⟩
  | swap b request ret => exact h.swap_step hfresh ht
  | enqueue b request =>
    rw [ht] at hlocal
    exact h.enqueue_step ht hlocal (fun _ => rfl) (fun _ => ⟨rfl, rfl⟩) (away_resume request) (.resume request)
  | writing b place =>
    rw [ht] at hlocal
    exact h.local_step ht ⟨hlocal, rfl⟩ fun _ => ⟨rfl, rfl, rfl⟩
  | checkin b place ret =>
    rw [ht] at hlocal
    obtain ⟨hb, rfl⟩ := hlocal
    exact h.local_step ht ⟨hb, Prod.mk.eta.symm, fun _ => rfl⟩ fun _ => ⟨rfl, rfl, rfl⟩
  | switchIn b place old new ret =>
    rw [ht] at hlocal
    simp only [LogObject.advance]
    split
    · rename_i hold
      subst hold
      exact h.switchIn_step ht
    · rename_i hchanged
      -- a failed turn has not computed that all writers are done, so `ret_val` is still `LB_OK`
      obtain ⟨hb, hcheckin, hret⟩ := hlocal
      have hok : ret = .ok := by
        obtain ⟨-, ⟨hdone, -⟩ | ⟨hok, -⟩⟩ := checkinWrite_cases hcheckin
        · exact absurd (hret hdone) hchanged
        · exact hok
      exact h.local_step ht ⟨hb, hok⟩ fun _ => ⟨rfl, rfl, rfl⟩
  | done b =>
    rw [ht] at hlocal
    exact h.enqueue_step ht hlocal (fun _ => rfl) (fun _ => ⟨rfl, rfl⟩) (fun _ => ⟨rfl, rfl, rfl⟩) trivial

end Inv

end Log

end TrafficServer
