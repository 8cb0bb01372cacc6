import Mathlib.Logic.Relation
import TrafficServer.EventSystem.IOBufferWrite

/-!
# Buffers refine byte streams

`Streams` is what the buffers are for: each has the bytes appended so far, and its readers have
positions in them. `Inv` connects it with the blocks: the bytes of a buffer are the content of its
chain, the chains of two buffers share no block, and each reader stands at its position. A call that
writes lets one chain grow (`Inv.grow`), and one that reads replaces one reader (`Inv.setReader`).
-/

namespace TrafficServer

open Function Option List Relation

/-- The buffers over one heap. -/
structure IOSystem where
  heap : IOHeap
  mbuf : Nat → MIOBuffer

/-- A call. Next to the functions of `MIOBuffer` and `IOBufferReader` these are what their callers do:
they make data, store bytes in the room of a block, and append blocks of their own. -/
inductive IOOp
  | write (k : Nat) (buf : List UInt8)
  | writeReader (k src : Nat) (j : Fin maxMIOBufferReaders) (len : Int) (offset : Nat)
  | addBlock (k : Nat)
  | checkAddBlock (k : Nat)
  | newData (contents : Int → UInt8)
  | appendBlock (k : Nat) (b : IOBufferBlock)
  | store (b : Nat) (p : Int) (buf : List UInt8)
  | fill (k len : Nat)
  | allocReader (k : Nat)
  | cloneReader (k : Nat) (j : Fin maxMIOBufferReaders)
  | consume (k : Nat) (j : Fin maxMIOBufferReaders) (n : Nat)
  | read (k : Nat) (j : Fin maxMIOBufferReaders) (len : Nat)

namespace IOSystem

variable (w : IOSystem)

def new (byte : Nat → Int → UInt8) (sizeIndex : Nat → { i : Int // i < defaultBufferSizes })
    (waterMark : Nat → Int) : IOSystem where
  heap := ⟨fun _ => ⟨0, 0, 0, 0, none⟩, 0, byte, 0⟩
  mbuf k := ⟨none, sizeIndex k, (sizeIndex k).2, waterMark k, fun _ => ⟨false, none, 0, ink64Max⟩⟩

def set (k : Nat) (r : IOHeap × MIOBuffer) : IOSystem := ⟨r.1, update w.mbuf k r.2⟩

def setReader (k : Nat) (j : Fin maxMIOBufferReaders) (r : IOBufferReader) : IOSystem :=
  w.set k (w.heap, { w.mbuf k with reader := update (w.mbuf k).reader j r })

def apply : IOOp → Option IOSystem
  | .write k buf => (w.heap.write (w.mbuf k) buf).map (w.set k)
  | .writeReader k src j len offset =>
    (w.heap.writeReader (w.mbuf k) ((w.mbuf src).reader j) len offset).map fun r =>
      w.set k (r.1, r.2.1)
  | .addBlock k => (w.heap.addBlock (w.mbuf k)).map (w.set k)
  | .checkAddBlock k => (w.heap.checkAddBlock (w.mbuf k)).map (w.set k)
  | .newData contents =>
    some { w with
      heap := { w.heap with
        byte := update w.heap.byte w.heap.nextData contents
        nextData := w.heap.nextData + 1 } }
  | .appendBlock k b => (w.heap.appendBlock (w.mbuf k) b).map (w.set k)
  | .store b p buf => some { w with heap := w.heap.store (w.heap.block b).data p buf }
  | .fill k len => (w.heap.fill (w.mbuf k) len).map (w.set k)
  | .allocReader k => (w.mbuf k).allocReader.map fun r => w.set k (w.heap, r.1)
  | .cloneReader k j =>
    ((w.mbuf k).cloneReader ((w.mbuf k).reader j)).map fun r => w.set k (w.heap, r.1)
  | .consume k j n => (w.heap.consume ((w.mbuf k).reader j) n).map (w.setReader k j)
  | .read k j len => (w.heap.read ((w.mbuf k).reader j) len).map fun r => w.setReader k j r.1

def currentBytes (k : Nat) : Nat :=
  match (w.mbuf k).writer with
  | none => 0
  | some b => (w.heap.bytes b).length

def room (k : Nat) : List UInt8 :=
  match w.heap.blocksFrom (w.mbuf k).writer with
  | none => []
  | some bs => w.heap.space bs

end IOSystem

/-- What a caller has to keep to: it uses readers that are allocated, allocates no more than there
are, consumes and fills no more than is available, and appends blocks that have bytes, are in no
chain and share their room with no other. -/
def IOOp.Fits (w : IOSystem) : IOOp → Prop
  | .write .. | .addBlock _ | .checkAddBlock _ | .newData _ => True
  | .writeReader _ src j _ _ => ((w.mbuf src).reader j).allocated
  | .appendBlock _ b => w.heap.Joins b ∧ b.start < b.endPos
  | .store b p buf =>
    b < w.heap.nextBlock ∧ (w.heap.block b).endPos ≤ p ∧ p + buf.length ≤ (w.heap.block b).bufEnd
  | .fill k len => (w.mbuf k).writer ≠ none ∧
    ∃ avail, w.heap.currentWriteAvail (w.mbuf k) = some avail ∧ len ≤ avail
  | .allocReader k => (w.mbuf k).freeReader ≠ none
  | .cloneReader k j => ((w.mbuf k).reader j).allocated ∧ (w.mbuf k).freeReader ≠ none
  | .consume k j n => ((w.mbuf k).reader j).allocated ∧
    ∃ avail, w.heap.readAvail ((w.mbuf k).reader j) = some avail ∧ n ≤ avail
  | .read k j _ => ((w.mbuf k).reader j).allocated

/-! ### The streams -/

/-- The bytes appended to each buffer, and the positions of the readers. -/
structure Streams where
  log : Nat → List UInt8
  pos : Nat → Fin maxMIOBufferReaders → Option Nat

namespace Streams

variable (s : Streams)

def empty : Streams := ⟨fun _ => [], fun _ _ => none⟩

def unread (k : Nat) (j : Fin maxMIOBufferReaders) : List UInt8 :=
  (s.log k).drop ((s.pos k j).getD 0)

def append (k : Nat) (bytes : List UInt8) : Streams :=
  { s with log := update s.log k (s.log k ++ bytes) }

theorem append_nil (k : Nat) : s.append k [] = s := by simp [append]

def setPos (k : Nat) (j : Fin maxMIOBufferReaders) (p : Nat) : Streams :=
  { s with pos := update s.pos k (update (s.pos k) j (some p)) }

/-- What `write` from a reader appends. A buffer that is its own source has no end. -/
def copied (k src : Nat) (j : Fin maxMIOBufferReaders) (len : Int) (offset : Nat) : List UInt8 :=
  if k = src then IOHeap.cycle len.toNat ((s.unread src j).drop offset)
  else ((s.unread src j).drop offset).take len.toNat

/-- The streams after a call of the system `w`. A new reader starts at the first byte of the block that
the buffer writes to, or where the reader stands that it is a clone of. -/
def apply (w : IOSystem) : IOOp → Streams
  | .write k buf => s.append k buf
  | .writeReader k src j len offset => s.append k (s.copied k src j len offset)
  | .addBlock _ | .checkAddBlock _ | .newData _ | .store .. => s
  | .appendBlock k b => s.append k (w.heap.bytesAt b.data b.start b.readAvail)
  | .fill k len => s.append k ((w.room k).take len)
  | .allocReader k =>
    match (w.mbuf k).freeReader with
    | none => s
    | some j => s.setPos k j ((s.log k).length - w.currentBytes k)
  | .cloneReader k j =>
    match (w.mbuf k).freeReader with
    | none => s
    | some j' => s.setPos k j' ((s.pos k j).getD 0)
  | .consume k j n => s.setPos k j ((s.pos k j).getD 0 + n)
  | .read k j len => s.setPos k j ((s.pos k j).getD 0 + min len (s.unread k j).length)

end Streams

open Streams

/-! ### The invariant -/

open IOHeap

structure IOSystem.Inv (w : IOSystem) (s : Streams) (T S : Nat → List Nat) : Prop where
  wf : w.heap.Wf
  chain : ∀ k, w.heap.Chain (w.mbuf k) (T k) (S k)
  settled : ∀ k, w.heap.Settled (T k)
  disjoint : ∀ k k', k ≠ k' → ∀ b ∈ T k ++ S k, b ∉ T k' ++ S k'
  log : ∀ k, s.log k = w.heap.content (T k)
  closed : ∀ k j, s.pos k j = none → ((w.mbuf k).reader j).allocated = false
  stands : ∀ k j p, s.pos k j = some p →
    ((w.mbuf k).reader j).allocated = true ∧ w.heap.Stands (T k) ((w.mbuf k).reader j) p

variable {T' S' : List Nat}

namespace IOHeap

variable {h h' : IOHeap} {m : MIOBuffer} {T S : List Nat} {r : IOBufferReader} {p : Nat}

theorem Chain.congr (hc : h.Chain m T S) (hnext : h.nextBlock ≤ h'.nextBlock)
    (hsame : ∀ b ∈ T ++ S, h'.block b = h.block b ∧ h'.bytes b = h.bytes b) : h'.Chain m T S := by
  refine ⟨hc.walk.congr fun b hb => ?_, fun b hb => (hc.lt b hb).trans_le hnext, hc.writer,
    fun b hb => ?_, fun b hb => ?_⟩
  · rw [next, (hsame b hb).1]
    rfl
  · have hmem := mem_of_mem_tail (dropLast_subset _ hb)
    rw [(hsame b (mem_append_left _ hmem)).2]
    exact hc.inner b hb
  · rw [(hsame b (mem_append_right _ hb)).2]
    exact hc.spare b hb

theorem content_congr (hsame : ∀ b ∈ T, h'.bytes b = h.bytes b) : h'.content T = h.content T := flatMap_congr hsame

theorem Stands.congr (hr : h.Stands T r p) (hsame : ∀ b ∈ T, h'.bytes b = h.bytes b) : h'.Stands T r p := by
  obtain ⟨hlim, hp, hoff, hcases⟩ := hr
  refine ⟨hlim, by rw [content_congr hsame]; exact hp, hoff, hcases.imp_right ?_⟩
  rintro ⟨pre, b, post, rfl, hblock, heq⟩
  have hpre : h'.content pre = h.content pre := content_congr fun b hb => hsame b (mem_append_left _ hb)
  exact ⟨pre, b, post, rfl, hblock, by rw [hpre, heq]⟩

end IOHeap

namespace IOSystem

variable {w : IOSystem} {s : Streams} {T S : Nat → List Nat} {k : Nat} {h' : IOHeap}

theorem Inv.frame (hi : w.Inv s T S) {m' : MIOBuffer} {A : List UInt8}
    (hg : Grown w.heap (w.mbuf k) (T k) (S k) h' m' T' S' A) {k' : Nat} (hk : k' ≠ k) :
    ∀ b ∈ T k' ++ S k', h'.block b = w.heap.block b ∧ h'.bytes b = w.heap.bytes b :=
  fun b hb => hg.frame b ((hi.chain k').lt b hb) (hi.disjoint k' k hk b hb)

theorem Inv.grow (hi : w.Inv s T S) {m' : MIOBuffer} {A : List UInt8}
    (hg : Grown w.heap (w.mbuf k) (T k) (S k) h' m' T' S' A) (hs : h'.Settled T') :
    (w.set k (h', m')).Inv (s.append k A) (update T k T') (update S k S') := by
  -- The blocks of the other buffers are as before, and so are the readers.
  have hother := fun {k'} (hk : k' ≠ k) => hi.frame hg hk
  have hbytes : ∀ {k'}, k' ≠ k → ∀ b ∈ T k', h'.bytes b = w.heap.bytes b := fun hk b hb =>
    (hother hk b (mem_append_left _ hb)).2
  have hnew : ∀ {k'}, k' ≠ k → ∀ b ∈ T k' ++ S k', b ∉ T' ++ S' := by
    intro k' hk b hb hb'
    rcases hg.cells b hb' with hold | hfresh
    · exact hi.disjoint k' k hk b hb hold
    · have := (hi.chain k').lt b hb
      omega
  have halloc : ∀ j, (m'.reader j).allocated = ((w.mbuf k).reader j).allocated := by
    intro j
    rw [hg.reader, readersOf]
    split <;> rfl
  refine ⟨hg.wf, fun k' => ?_, fun k' => ?_, fun k' k'' hk => ?_, fun k' => ?_, fun k' j hp => ?_,
    fun k' j p hp => ?_⟩
  · by_cases hk : k' = k
    · subst hk
      simpa [set] using hg.chain
    · simpa [set, hk] using (hi.chain k').congr hg.next (hother hk)
  · by_cases hk : k' = k
    · subst hk
      simpa [set] using hs
    · intro b hb
      simp only [update_of_ne hk] at hb
      rw [set, hbytes hk b (mem_of_mem_tail hb)]
      exact hi.settled k' b hb
  · by_cases hk' : k' = k
    · subst hk'
      simp only [update_self, update_of_ne hk.symm]
      exact fun b hb hb' => hnew hk.symm b hb' hb
    · by_cases hk'' : k'' = k
      · subst hk''
        simp only [update_self, update_of_ne hk]
        exact hnew hk
      · simp only [update_of_ne hk', update_of_ne hk'']
        exact hi.disjoint k' k'' hk
  · by_cases hk : k' = k
    · subst hk
      simp only [append, update_self, hi.log]
      exact hg.content.symm
    · simp only [append, update_of_ne hk, hi.log]
      exact (content_congr (hbytes hk)).symm
  · by_cases hk : k' = k
    · subst hk
      simp only [set, update_self]
      exact (halloc j).trans (hi.closed k' j hp)
    · simpa [set, hk] using hi.closed k' j hp
  · obtain ⟨hopen, hstands⟩ := hi.stands k' j p hp
    by_cases hk : k' = k
    · subst hk
      simp only [set, update_self]
      exact ⟨(halloc j).trans hopen, hg.stands hopen hstands⟩
    · simp only [set, update_of_ne hk]
      exact ⟨hopen, hstands.congr (hbytes hk)⟩

variable {j : Fin maxMIOBufferReaders}

section
variable (hi : w.Inv s T S)

include hi

theorem Inv.setReader {r : IOBufferReader} {p : Nat} (hopen : r.allocated = true)
    (hr : w.heap.Stands (T k) r p) : (w.setReader k j r).Inv (s.setPos k j p) T S := by
  have hchain : ∀ k', ((w.setReader k j r).mbuf k').writer = (w.mbuf k').writer := by
    intro k'
    by_cases hk : k' = k
    · subst hk
      simp [IOSystem.setReader, set]
    · simp [IOSystem.setReader, set, hk]
  have hreader : ∀ k' j', ((w.setReader k j r).mbuf k').reader j' =
      if k' = k ∧ j' = j then r else (w.mbuf k').reader j' := by
    intro k' j'
    by_cases hk : k' = k
    · subst hk
      simp [IOSystem.setReader, set, update_apply]
    · simp [IOSystem.setReader, set, hk]
  have hpos : ∀ k' j', (s.setPos k j p).pos k' j' = if k' = k ∧ j' = j then some p else s.pos k' j' := by
    intro k' j'
    by_cases hk : k' = k
    · subst hk
      simp [setPos, update_apply]
    · simp [setPos, hk]
  refine ⟨hi.wf, fun k' => ?_, hi.settled, hi.disjoint, hi.log, fun k' j' hp => ?_, fun k' j' p' hp => ?_⟩
  · have hc := hi.chain k'
    exact ⟨hc.walk, hc.lt, (hchain k').trans hc.writer, hc.inner, hc.spare⟩
  · rw [hpos] at hp
    rw [hreader]
    split at hp
    · cases hp
    · next hne => rw [if_neg hne, hi.closed k' j' hp]
  · rw [hpos] at hp
    rw [hreader]
    split at hp
    · next heq =>
      rw [if_pos heq, heq.1, ← some.inj hp]
      exact ⟨hopen, hr⟩
    · next hne =>
      rw [if_neg hne]
      exact hi.stands k' j' p' hp

theorem Inv.setHeap (hw : h'.Wf) (hnext : h'.nextBlock = w.heap.nextBlock)
    (hsame : ∀ b < w.heap.nextBlock, h'.block b = w.heap.block b ∧ h'.bytes b = w.heap.bytes b) :
    ({ w with heap := h' } : IOSystem).Inv s T S := by
  have hcells : ∀ k, ∀ b ∈ T k ++ S k, h'.block b = w.heap.block b ∧ h'.bytes b = w.heap.bytes b :=
    fun k b hb => hsame b ((hi.chain k).lt b hb)
  have hbytes : ∀ k, ∀ b ∈ T k, h'.bytes b = w.heap.bytes b := fun k b hb => (hcells k b (mem_append_left _ hb)).2
  refine ⟨hw, fun k => (hi.chain k).congr hnext.ge (hcells k), fun k b hb => ?_, hi.disjoint,
    fun k => (hi.log k).trans (content_congr (hbytes k)).symm, hi.closed, fun k j p hp => ?_⟩
  · change h'.bytes b ≠ []
    rw [hbytes k b (mem_of_mem_tail hb)]
    exact hi.settled k b hb
  · obtain ⟨hopen, hstands⟩ := hi.stands k j p hp
    exact ⟨hopen, hstands.congr (hbytes k)⟩

theorem Inv.pos (hopen : ((w.mbuf k).reader j).allocated = true) :
    ∃ p, s.pos k j = some p ∧ w.heap.Stands (T k) ((w.mbuf k).reader j) p := by
  cases hp : s.pos k j with
  | none => exact absurd hopen (by simp [hi.closed k j hp])
  | some p => exact ⟨p, rfl, (hi.stands k j p hp).2⟩

theorem Inv.unread {p : Nat} (hp : s.pos k j = some p) : s.unread k j = (w.heap.content (T k)).drop p := by
  rw [Streams.unread, hp, hi.log]
  rfl

/-! ### The calls -/

theorem Inv.stands_writer : w.heap.Stands (T k) ⟨true, (w.mbuf k).writer, 0, ink64Max⟩
      ((s.log k).length - w.currentBytes k) := by
  rw [hi.log, currentBytes]
  cases hm : (w.mbuf k).writer with
  | none =>
    have hT := (hi.chain k).writer_none.1 hm
    rw [hT]
    exact ⟨rfl, by simp, le_rfl, .inl ⟨rfl, rfl, by simp⟩⟩
  | some b =>
    have hT := (hi.chain k).eq_concat hm
    have hlen : (w.heap.content (T k)).length = (w.heap.content (T k).dropLast).length + (w.heap.bytes b).length := by
      conv_lhs => rw [hT]
      simp
    refine ⟨rfl, by omega, le_rfl, .inr ⟨(T k).dropLast, b, [], hT, rfl, ?_⟩⟩
    dsimp only
    omega

/-- **A call that fits returns, and keeps the refinement.** -/
theorem Inv.apply {op : IOOp} (hop : op.Fits w) : ∃ w' T' S', w.apply op = some w' ∧ w'.Inv (s.apply w op) T' S' := by
  have hcall : ∀ {k A call}, Appends w.heap (w.mbuf k) (T k) (S k) A call →
      ∃ w' T' S', call.map (w.set k) = some w' ∧ w'.Inv (s.append k A) T' S' := by
    rintro k A call ⟨h', m', T', S', rfl, hg, hs⟩
    exact ⟨_, _, _, rfl, hi.grow hg hs⟩
  cases op with
  | write k buf => exact hcall (Grown.write hi.wf (hi.chain k) (hi.settled k) buf)
  | writeReader k src j len offset =>
    obtain ⟨p, hp, hstands⟩ := hi.pos hop
    have hcopies : Copies w.heap (w.mbuf k) (T k) (S k) (s.copied k src j len offset)
        (s.copied k src j len offset).length
        (w.heap.writeReader (w.mbuf k) ((w.mbuf src).reader j) len offset) := by
      rw [copied, hi.unread hp]
      by_cases hk : k = src
      · subst hk
        rw [if_pos rfl]
        exact Grown.writeReader_self hi.wf (hi.chain k) (hi.settled k) hstands len offset rfl
      · rw [if_neg hk]
        exact Grown.writeReader hi.wf (hi.chain k) (hi.settled k) (hi.chain src)
          (hi.disjoint src k (Ne.symm hk)) hstands len offset rfl
    have hset := hcall hcopies.1
    rwa [Option.map_map] at hset
  | addBlock k =>
    have hadd := hcall (Grown.addBlock_settled hi.wf (hi.chain k) (hi.settled k))
    rwa [Streams.append_nil] at hadd
  | checkAddBlock k =>
    have hr : ∀ j, ((w.mbuf k).reader j).allocated →
        ∃ p, w.heap.Stands (T k) ((w.mbuf k).reader j) p := fun j hopen =>
      (hi.pos hopen).imp fun p hp => hp.2
    have hadd := hcall (Grown.checkAddBlock hi.wf (hi.chain k) (hi.settled k) hr)
    rwa [Streams.append_nil] at hadd
  | newData contents =>
    refine ⟨_, T, S, rfl, hi.setHeap ⟨fun b hb => ?_, hi.wf.start_le, hi.wf.end_le, hi.wf.size_pos,
      hi.wf.room⟩ rfl fun b hb => ⟨rfl, ?_⟩⟩
    · exact (hi.wf.data_lt b hb).trans (Nat.lt_succ_self _)
    · have hne : (w.heap.block b).data ≠ w.heap.nextData := (hi.wf.data_lt b hb).ne
      simp only [bytes, bytesAt, update_of_ne hne]
  | appendBlock k b =>
    obtain ⟨m', happend, -, hg, hs⟩ := Grown.append hi.wf (hi.chain k) (hi.settled k) hop.1 hop.2
    exact hcall ⟨_, m', _, _, happend, hg, hs⟩
  | store b p buf =>
    obtain ⟨hb, hp, hbuf⟩ := hop
    refine ⟨_, T, S, rfl, hi.setHeap ⟨hi.wf.data_lt, hi.wf.start_le, hi.wf.end_le, hi.wf.size_pos,
      hi.wf.room⟩ rfl fun b' hb' => ⟨rfl, bytes_store hi.wf hb hp hbuf hb'⟩⟩
  | fill k len =>
    obtain ⟨hne, avail, havail, hle⟩ := hop
    obtain ⟨b, hb⟩ := ne_none_iff_exists'.1 hne
    rw [Streams.apply, room, (hi.chain k).blocksFrom_writer hb]
    exact hcall (Grown.fill hi.wf (hi.chain k) (hi.settled k) hb (Int.natCast_nonneg len) havail hle)
  | allocReader k =>
    obtain ⟨j, hj⟩ := ne_none_iff_exists'.1 hop
    refine ⟨_, T, S, by simp only [IOSystem.apply, MIOBuffer.allocReader, hj]; rfl, ?_⟩
    simp only [Streams.apply, hj]
    exact hi.setReader rfl hi.stands_writer
  | cloneReader k j =>
    obtain ⟨p, hp, hstands⟩ := hi.pos hop.1
    obtain ⟨j', hj⟩ := ne_none_iff_exists'.1 hop.2
    refine ⟨_, T, S, by simp only [IOSystem.apply, MIOBuffer.cloneReader, hj]; rfl, ?_⟩
    simp only [Streams.apply, hj, hp]
    exact hi.setReader rfl hstands
  | consume k j n =>
    obtain ⟨hopen, avail, havail, hle⟩ := hop
    obtain ⟨p, hp, hstands⟩ := hi.pos hopen
    rw [(hi.chain k).readAvail_eq hi.wf hstands, length_drop] at havail
    have hle' : p + n ≤ (w.heap.content (T k)).length := by
      have := hstands.2.1
      have := some.inj havail
      omega
    obtain ⟨r', hconsume, hstands', halloc⟩ := (hi.chain k).consume hi.wf hstands hle'
    refine ⟨_, T, S, by rw [IOSystem.apply, hconsume, map_some], ?_⟩
    rw [Streams.apply, hp]
    exact hi.setReader (halloc.trans hopen) hstands'
  | read k j len =>
    obtain ⟨p, hp, hstands⟩ := hi.pos hop
    obtain ⟨r', hread, hstands', halloc⟩ := (hi.chain k).read hi.wf hstands len
    refine ⟨_, T, S, by rw [IOSystem.apply, hread, map_some], ?_⟩
    rw [Streams.apply, hi.unread hp, hp]
    exact hi.setReader (halloc.trans hop) hstands'

end

/-! ### Runs -/

def Step (x y : IOSystem × Streams) : Prop :=
  ∃ op : IOOp, op.Fits x.1 ∧ x.1.apply op = some y.1 ∧ y.2 = x.2.apply x.1 op

theorem inv_new (byte : Nat → Int → UInt8) (sizeIndex : Nat → { i : Int // i < defaultBufferSizes })
    (waterMark : Nat → Int) : (new byte sizeIndex waterMark).Inv .empty (fun _ => []) (fun _ => []) where
  wf := ⟨nofun, nofun, nofun, nofun, nofun⟩
  chain _ := ⟨rfl, nofun, rfl, nofun, nofun⟩
  settled _ := nofun
  disjoint _ _ _ := nofun
  log _ := rfl
  closed _ _ _ := rfl
  stands _ _ _ hp := nomatch hp

theorem Inv.run {byte : Nat → Int → UInt8} {sizeIndex : Nat → { i : Int // i < defaultBufferSizes }}
    {waterMark : Nat → Int} (hrun : ReflTransGen Step (new byte sizeIndex waterMark, .empty) (w, s)) :
    ∃ T S, w.Inv s T S := by
  suffices h : ∀ y, ReflTransGen Step (new byte sizeIndex waterMark, .empty) y →
      ∃ T S, y.1.Inv y.2 T S from h _ hrun
  intro y hrun
  induction hrun with
  | refl => exact ⟨_, _, inv_new byte sizeIndex waterMark⟩
  | tail _ hstep ih =>
    obtain ⟨T, S, hinv⟩ := ih
    obtain ⟨op, hop, happly, hs⟩ := hstep
    obtain ⟨w', T', S', happly', hinv'⟩ := hinv.apply hop
    obtain rfl := some.inj (happly.symm.trans happly')
    exact ⟨T', S', hs ▸ hinv'⟩

/-- A reader sees the bytes `l`. -/
structure Sees (h : IOHeap) (r : IOBufferReader) (l : List UInt8) : Prop where
  readAvail : h.readAvail r = some (l.length : Int)
  memcpy : ∀ (len : Int) (off : Nat), h.memcpy r len off = some (limit len (l.drop off))
  memchr : ∀ (c : UInt8) (len : Int) (off : Nat), h.memchr r c len off = some
    (match (limit len (l.drop off)).idxOf? c with
    | some i => (off + i : Int)
    | none => -1)
  index : ∀ i : Nat, h.index r i = l[i]?
  read : ∀ len : Nat, ∃ r', h.read r len = some (r', l.take len)

/-- The readers that are allocated are those with a position, and each sees what is left from there. -/
def Ok (w : IOSystem) (s : Streams) : Prop := ∀ k j,
  (((w.mbuf k).reader j).allocated = true ↔ s.pos k j ≠ none) ∧
    (((w.mbuf k).reader j).allocated = true → Sees w.heap ((w.mbuf k).reader j) (s.unread k j))

theorem Inv.ok (hi : w.Inv s T S) : w.Ok s := by
  refine fun k j => ⟨⟨fun hopen => ?_, fun hne => ?_⟩, fun hopen => ?_⟩
  · obtain ⟨p, hp, -⟩ := hi.pos hopen
    rw [hp]
    exact some_ne_none p
  · obtain ⟨p, hp⟩ := ne_none_iff_exists'.1 hne
    exact (hi.stands k j p hp).1
  · obtain ⟨p, hp, hstands⟩ := hi.pos hopen
    have hc := hi.chain k
    rw [hi.unread hp]
    exact ⟨hc.readAvail_eq hi.wf hstands, hc.memcpy_eq hi.wf hstands, hc.memchr_eq hi.wf hstands,
      hc.index_eq hi.wf hstands, fun len => (hc.read hi.wf hstands len).imp fun _ hread => hread.1⟩

/-- **Buffers refine byte streams.** After any calls each reader sees what has been appended behind
its position, and every call that fits returns. A position is set when the reader is made: by
`alloc_reader` to the first byte of the block that the buffer writes to, by `clone_reader` to that
of the other reader. -/
theorem io_buffer_refines_stream (byte : Nat → Int → UInt8)
    (sizeIndex : Nat → { i : Int // i < defaultBufferSizes }) (waterMark : Nat → Int) (w : IOSystem)
    (s : Streams) (hrun : ReflTransGen Step (new byte sizeIndex waterMark, .empty) (w, s)) :
    w.Ok s ∧ ∀ op : IOOp, op.Fits w → ∃ w', w.apply op = some w' ∧ w'.Ok (s.apply w op) := by
  obtain ⟨T, S, hi⟩ := Inv.run hrun
  refine ⟨hi.ok, fun op hop => ?_⟩
  obtain ⟨w', T', S', happly, hinv⟩ := hi.apply hop
  exact ⟨w', happly, hinv.ok⟩

def small : IOSystem := new (fun _ _ => 0) (fun _ => ⟨0, by decide⟩) fun _ => 0

theorem io_buffer_refines_stream_consume : ∃ w s,
    ReflTransGen Step (small, .empty) (w, s) ∧ s.unread 0 0 = [2, 3] ∧ w.Ok s := by
  have hreader : ReflTransGen Step (small, .empty) (_, _) :=
    .single ⟨.allocReader 0, by rintro ⟨⟩, rfl, rfl⟩
  have hwrite : ReflTransGen Step (small, .empty) (_, _) :=
    hreader.tail ⟨.write 0 [1, 2, 3], trivial, rfl, rfl⟩
  have hrun : ReflTransGen Step (small, .empty) (_, _) :=
    hwrite.tail ⟨.consume 0 0 1, ⟨rfl, 3, rfl, by decide⟩, rfl, rfl⟩
  exact ⟨_, _, hrun, rfl, (io_buffer_refines_stream _ _ _ _ _ hrun).1⟩

/-- Nothing is appended after `alloc_reader`, but the reader has bytes to read. -/
theorem alloc_reader_sees_earlier_bytes : ∃ w s w',
    ReflTransGen Step (small, .empty) (w, s) ∧ s.log 0 = [1, 2, 3] ∧
      (IOOp.allocReader 0).Fits w ∧ (w.mbuf 0).freeReader = some 0 ∧ w.apply (.allocReader 0) = some w' ∧
      w'.heap.readAvail ((w'.mbuf 0).reader 0) = some 3 := by
  obtain ⟨w, hw⟩ : ∃ w, small.apply (.write 0 [1, 2, 3]) = some w := ⟨_, rfl⟩
  obtain ⟨w', hw'⟩ : ∃ w', w.apply (.allocReader 0) = some w' := by
    cases hw
    exact ⟨_, rfl⟩
  refine ⟨w, _, w', .single ⟨.write 0 [1, 2, 3], trivial, hw, rfl⟩, rfl, ?_, ?_, hw', ?_⟩
  · cases hw
    rintro ⟨⟩
  · cases hw
    rfl
  · cases hw
    cases hw'
    rfl

end IOSystem

end TrafficServer
