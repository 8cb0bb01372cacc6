import TrafficServer.EventSystem.IOBufferGrow

/-!
# Moving the blocks of a reader to another buffer

`remove_append` takes the blocks of a reader one by one and appends them to a buffer. Two things go
wrong.

* A block stays linked to the one behind it while it is appended, and `append_block_internal` moves
  the writer along that link over all blocks with bytes. If two blocks with bytes follow each other,
  the second one is then appended behind itself, and the loop along the new blocks never ends. Only a
  buffer without blocks takes its first block without moving on, if that block has room.
* The offset that a consumed block leaves is computed as the negative of the offset. The next block
  then starts before its own first byte.

For everything else the blocks are moved in order. The proof follows the loop with an offset of 0
(`Feeding`): the blocks of the buffer, those behind its writer and those that are left. A first
offset is put into the first block beforehand (`loop_offset`).
-/

namespace TrafficServer

open Option List Function
open Linked (Walk)

namespace IOHeap

/-! ### The code -/

def moveStart (h : IOHeap) (b : Nat) (n : Int) : IOHeap :=
  { h with block := update h.block b { h.block b with start := (h.block b).start + n } }

/-- The loop of `remove_append` with `r->block`, `r->start_offset` and `l`. There are at most as many
rounds as blocks, or it does not end. -/
def removeAppendLoop : Nat → IOHeap → MIOBuffer → Option Nat → Int → Int →
    Option (IOHeap × MIOBuffer × Int × Int)
  | _, h, m, none, offset, l => some (h, m, offset, l)
  | 0, _, _, some _, _, _ => none
  | fuel + 1, h, m, some b, offset, l =>
    let rest := h.next b
    let h := h.moveStart b offset
    if (h.block b).start ≥ (h.block b).endPos then
      removeAppendLoop fuel h m rest (-offset) l
    else do
      let l := l + (h.block b).readAvail
      let (h, m) ← h.appendBlockInternal m b
      removeAppendLoop fuel h m rest 0 l

/-- `remove_append` of reader `j` of the buffer `src`: the two buffers and the length returned. -/
def removeAppend (h : IOHeap) (m src : MIOBuffer) (j : Fin maxMIOBufferReaders) :
    Option (IOHeap × MIOBuffer × MIOBuffer × Int) := do
  let (h, m, offset, l) ← removeAppendLoop h.nextBlock h m (src.reader j).block
    (src.reader j).startOffset 0
  some (h, m,
    { src with
      writer := none
      reader := update src.reader j
        { src.reader j with block := none, startOffset := offset } }, l)

/-! ### What it is for -/

/-- The buffer with the blocks `T` gets the bytes that reader `j` of `src` had still to read behind
its own, its readers stay where they stand, and the length is what was available to the reader. -/
def MovesUnread (h : IOHeap) (m : MIOBuffer) (T : List Nat) (src : MIOBuffer)
    (j : Fin maxMIOBufferReaders) : Prop :=
  ∃ h' m' src' l bs T' S', h.removeAppend m src j = some (h', m', src', l) ∧
    h.readAvail (src.reader j) = some l ∧ h.blocksFrom (src.reader j).block = some bs ∧
    h'.Chain m' T' S' ∧
    h'.content T' = h.content T ++ (h.content bs).drop (src.reader j).startOffset.toNat ∧
    ∀ i p, (m.reader i).allocated → h.Stands T (m.reader i) p → h'.Stands T' (m'.reader i) p

/-- A reader over the blocks `L`, none of which is of the chain of the blocks `T` and `S`. -/
structure Source (h : IOHeap) (T S : List Nat) (r : IOBufferReader) (L : List Nat) : Prop where
  walk : Walk h.next r.block L none
  lt : ∀ b ∈ L, b < h.nextBlock
  ordered : h.Ordered L
  other : ∀ b ∈ L, b ∉ T ++ S
  noLimit : r.sizeLimit = ink64Max
  offset_nonneg : 0 ≤ r.startOffset
  offset_le : r.startOffset ≤ (h.content L).length

def HasBytes (h : IOHeap) (b : Nat) : Prop := (h.block b).start < (h.block b).endPos
deriving Decidable

/-- Of two blocks that follow each other at most one has bytes. -/
def Apart (h : IOHeap) : List Nat → Prop
  | [] => True
  | b :: bs => (h.HasBytes b → ∀ c ∈ bs.head?, ¬h.HasBytes c) ∧ Apart h bs

/-- The blocks that a buffer without blocks takes: the first one with bytes may have another one
behind it, if it has room. -/
def FirstApart (h : IOHeap) : List Nat → Prop
  | [] => True
  | b :: bs =>
    if h.HasBytes b then
      ((h.block b).writeAvail = 0 → ∀ c ∈ bs.head?, ¬h.HasBytes c) ∧ h.Apart bs
    else FirstApart h bs

/-! ### Appending a block of another chain -/

variable {h h' h'' : IOHeap} {m m' m'' : MIOBuffer} {b c w z : Nat}
  {bs T T' T'' S U L X Y : List Nat} {A B : List UInt8} {l : Int} {fuel : Nat}

theorem readAvail_ne_zero (hb : (h.block b).start ≤ (h.block b).endPos) :
    (h.block b).readAvail ≠ 0 ↔ h.HasBytes b := by
  rw [IOBufferBlock.readAvail, HasBytes]
  omega

theorem hasBytes_iff : h.HasBytes b ↔ h.bytes b ≠ [] := by
  rw [← length_pos_iff, bytes, length_bytesAt, IOBufferBlock.readAvail, HasBytes]
  omega

theorem apart_congr (hsame : ∀ b, h'.HasBytes b ↔ h.HasBytes b) : h'.Apart L ↔ h.Apart L := by
  induction L with
  | nil => rfl
  | cons b L ih => simp only [Apart, hsame, ih]

theorem firstApart_congr (hsame : ∀ b, h'.HasBytes b ↔ h.HasBytes b)
    (hroom : ∀ b, (h'.block b).writeAvail = (h.block b).writeAvail) : h'.FirstApart L ↔ h.FirstApart L := by
  induction L with
  | nil => rfl
  | cons b L ih => simp only [FirstApart, hsame, hroom, apart_congr hsame, ih]

theorem appendLoop_append (hX : ∀ b ∈ X, (h.block b).readAvail ≠ 0)
    (hY : ∀ c ∈ Y.head?, (h.block c).readAvail = 0) (w : Nat) : h.appendLoop (X ++ Y) w = X.getLast?.getD w := by
  induction X generalizing w with
  | nil =>
    cases Y with
    | nil => rfl
    | cons c Y => rw [nil_append, appendLoop, if_neg (not_not.2 (hY c rfl))]; rfl
  | cons b X ih =>
    rw [cons_append, appendLoop, if_pos (hX b (by simp)), ih (fun b hb => hX b (by simp [hb])), getLast?_cons]
    rfl

theorem exists_run (h : IOHeap) (bs : List Nat) : ∃ X Y, bs = X ++ Y ∧
    (∀ b ∈ X, (h.block b).readAvail ≠ 0) ∧ ∀ c ∈ Y.head?, (h.block c).readAvail = 0 := by
  refine ⟨bs.takeWhile fun b => (h.block b).readAvail ≠ 0,
    bs.dropWhile fun b => (h.block b).readAvail ≠ 0, takeWhile_append_dropWhile.symm, ?_, ?_⟩
  · intro b hb
    simpa using mem_takeWhile_imp hb
  · intro c hc
    have := head?_dropWhile_not (fun b => decide ((h.block b).readAvail ≠ 0)) bs
    rw [mem_def.1 hc] at this
    simpa using this

theorem walk_setNext {a d : Option Nat} (hw : Walk h.next a bs d) (hb : w ∉ bs) (n : Nat) :
    Walk (h.setNext w n).next a bs d := by
  refine hw.congr fun b hmem => ?_
  have hne : b ≠ w := fun heq => hb (heq ▸ hmem)
  rw [next, setNext_block, if_neg hne]
  rfl

theorem next_setNext (w n : Nat) : (h.setNext w n).next w = some n := by rw [next, setNext_block, if_pos rfl]

theorem readAvail_setNext (w n b : Nat) : ((h.setNext w n).block b).readAvail = (h.block b).readAvail := by
  rw [setNext_block]
  rfl

theorem walk_last {a : Option Nat} (hL : Walk h.next a (X ++ Y) none) (hz : X.getLast? = some z) :
    Walk h.next (some z) (z :: Y) none := by
  obtain ⟨X', rfl⟩ := getLast?_eq_some_iff.1 hz
  rw [append_assoc] at hL
  obtain ⟨d, -, hd⟩ := Linked.walk_append.1 hL
  exact hd.head ▸ hd

theorem appendBlockInternal_some (hm : m.writer = some w)
    (hL : Walk h.next (some b) (b :: X ++ Y) none) (hlt : ∀ c ∈ b :: X ++ Y, c < h.nextBlock)
    (hw : w ∉ b :: X ++ Y) (hX : ∀ c ∈ b :: X, (h.block c).readAvail ≠ 0)
    (hY : ∀ c ∈ Y.head?, (h.block c).readAvail = 0) (hz : (b :: X).getLast? = some z) :
    h.appendBlockInternal m b = some (h.setNext w b, { m with writer := some z }) := by
  have hwalk := walk_setNext hL hw b
  have hloop : (h.setNext w b).appendLoop (b :: X ++ Y) w = z := by
    rw [appendLoop_append (fun c hc => by rw [readAvail_setNext]; exact hX c hc)
      (fun c hc => by rw [readAvail_setNext]; exact hY c hc), hz]
    rfl
  have hlast : (h.setNext w b).blocksFrom (some z) = some (z :: Y) :=
    blocksFrom_of_walk (walk_last hwalk hz) fun c hc => by
      rcases mem_cons.1 hc with rfl | hc
      · exact hlt c (mem_append_left _ (mem_of_getLast? hz))
      · exact hlt c (mem_append_right _ hc)
  have hsettle : (h.setNext w b).settleLoop (z :: Y) = some z := by
    cases Y with
    | nil => rfl
    | cons c Y =>
      rw [settleLoop, if_neg]
      rw [readAvail_setNext]
      exact fun hcase => hcase.2 (hY c rfl)
  rw [appendBlockInternal, hm]
  dsimp only
  rw [blocksFrom_of_walk hwalk hlt, bind_eq_bind, bind_some, hloop, settle_eq rfl hlast, hsettle]

theorem appendBlockInternal_cycle (hm : m.writer = some z)
    (hL : Walk h.next (some c) (c :: X ++ Y) none) (hz : (c :: X).getLast? = some z) :
    h.appendBlockInternal m c = none := by
  obtain ⟨X', hX'⟩ := getLast?_eq_some_iff.1 hz
  have hnodup := hL.nodup
  rw [hX', append_assoc] at hL hnodup
  obtain ⟨d, hd, hrest⟩ := Linked.walk_append.1 hL
  have hnot : z ∉ X' := fun hmem => (nodup_append.1 hnodup).2.2 z hmem z (by simp) rfl
  have hcycle : Walk (h.setNext z c).next (some c) (c :: X) (some c) := by
    rw [hX']
    exact Linked.walk_append.2 ⟨d, walk_setNext hd hnot c, hrest.head, next_setNext z c⟩
  rw [appendBlockInternal, hm]
  dsimp only
  rw [blocksFrom, Linked.follow_of_cycle hcycle]
  rfl

theorem appendBlockInternal_none (hm : m.writer = none) (hL : Walk h.next (some b) (b :: bs) none)
    (hlt : ∀ c ∈ b :: bs, c < h.nextBlock) : h.appendBlockInternal m b = some (h,
      { m with writer := h.settleLoop (b :: bs), reader := readersOf m [] [b] }) := by
  have hreaders : (({ m with writer := some b } : MIOBuffer).initReaders).reader = readersOf m [] [b] := by
    funext j
    simp [MIOBuffer.initReaders, readersOf]
  rw [appendBlockInternal, hm, ← hreaders]
  exact settle_eq rfl (blocksFrom_of_walk hL hlt)

theorem settleLoop_stays (hroom : (h.block b).writeAvail = 0 →
    ∀ c ∈ bs.head?, (h.block c).readAvail = 0) : h.settleLoop (b :: bs) = some b := by
  cases bs with
  | nil => rfl
  | cons c bs => rw [settleLoop, if_neg fun hcase => hcase.2 (hroom hcase.1 c rfl)]

theorem settleLoop_mem (b : Nat) (bs : List Nat) :
    ∃ X Y z, bs = X ++ Y ∧ (b :: X).getLast? = some z ∧ h.settleLoop (b :: bs) = some z := by
  induction bs generalizing b with
  | nil => exact ⟨[], [], b, rfl, rfl, rfl⟩
  | cons c bs ih =>
    rw [settleLoop]
    split
    · obtain ⟨X, Y, z, rfl, hz, hset⟩ := ih c
      exact ⟨c :: X, Y, z, rfl, by rw [getLast?_cons_cons, hz], hset⟩
    · exact ⟨[], c :: bs, b, rfl, rfl, rfl⟩

/-! ### The loop without an offset -/

/-- Between two rounds: the blocks `T` of the buffer, the blocks `U` behind its writer and the blocks
`L` that are left. Once a block was appended, the blocks that are left are behind it. -/
structure Feeding (h : IOHeap) (m : MIOBuffer) (T U L : List Nat) : Prop where
  walk : Walk h.next T.head? (T ++ U) none
  writer : m.writer = T.getLast?
  source : Walk h.next L.head? L none
  lt : ∀ b ∈ T ++ U, b < h.nextBlock
  lt_source : ∀ b ∈ L, b < h.nextBlock
  ordered : h.Ordered L
  other : ∀ b ∈ L, b ∉ T
  behind : ∃ E, (∀ b ∈ E, h.bytes b = []) ∧ (U = E ∨ U = E ++ L)
  settled : h.Settled T

theorem moveStart_zero (h : IOHeap) (b : Nat) : h.moveStart b 0 = h := by
  simp [moveStart]

theorem loop_skip (hb : ¬h.HasBytes b) : removeAppendLoop (fuel + 1) h m (some b) 0 l =
    removeAppendLoop fuel h m (h.next b) 0 l := by
  rw [removeAppendLoop]
  rw [moveStart_zero, if_pos (not_lt.1 hb), neg_zero]

theorem loop_append (hb : h.HasBytes b) : removeAppendLoop (fuel + 1) h m (some b) 0 l =
    (h.appendBlockInternal m b).bind fun p =>
      removeAppendLoop fuel p.1 p.2 (h.next b) 0 (l + (h.block b).readAvail) := by
  rw [removeAppendLoop]
  rw [moveStart_zero, if_neg (not_le.2 hb)]
  rfl

section
variable (hf : Feeding h m T U (b :: L))

include hf

theorem Feeding.skip (hb : ¬h.HasBytes b) : Feeding h m T U L where
  walk := hf.walk
  writer := hf.writer
  source := by
    rw [hf.source.2.head?_eq]
    exact hf.source.2
  lt := hf.lt
  lt_source c hc := hf.lt_source c (by simp [hc])
  ordered c hc := hf.ordered c (by simp [hc])
  other c hc := hf.other c (by simp [hc])
  behind := by
    obtain ⟨E, hE, rfl | rfl⟩ := hf.behind
    · exact ⟨U, hE, .inl rfl⟩
    · refine ⟨E ++ [b], fun c hc => ?_, .inr (by simp)⟩
      rcases mem_append.1 hc with hc | hc
      · exact hE c hc
      · rw [mem_singleton.1 hc]
        exact not_not.1 fun hne => hb (hasBytes_iff.2 hne)
  settled := hf.settled

theorem Feeding.other_concat : ∀ c ∈ L, c ∉ T ++ [b] := by
  intro c hc hmem
  rcases mem_append.1 hmem with hT | hb
  · exact hf.other c (by simp [hc]) hT
  · rw [mem_singleton.1 hb] at hc
    exact (nodup_cons.1 hf.source.nodup).1 hc

theorem Feeding.append (hw : m.writer = some w)
    (hb : h.HasBytes b) : Feeding (h.setNext w b) { m with writer := some b } (T ++ [b]) L L := by
  have hlast : T.getLast? = some w := hf.writer.symm.trans hw
  have hmem : w ∈ T := mem_of_getLast? hlast
  have hnot : w ∉ b :: L := fun hc => hf.other w hc hmem
  have hsource := walk_setNext hf.source hnot b
  have hhead : (T ++ [b]).head? = T.head? := by
    cases T with
    | nil => cases hlast
    | cons => rfl
  have hsettled : (h.setNext w b).Settled (T ++ [b]) := by
    intro c hc
    rw [bytes_setNext]
    rw [tail_append_of_ne_nil (ne_nil_of_mem hmem)] at hc
    rcases mem_append.1 hc with hc | hc
    · exact hf.settled c hc
    · rw [mem_singleton.1 hc]
      exact hasBytes_iff.1 hb
  constructor
  case walk =>
    obtain ⟨X, rfl⟩ := getLast?_eq_some_iff.1 hlast
    have hwalk := hf.walk
    have hnodup := hwalk.nodup
    rw [append_assoc] at hwalk hnodup
    obtain ⟨d, hd, hrest⟩ := Linked.walk_append.1 hwalk
    have hX : w ∉ X := fun hin => (nodup_append.1 hnodup).2.2 w hin w (by simp) rfl
    rw [hhead, append_assoc, append_assoc]
    exact Linked.walk_append.2 ⟨d, walk_setNext hd hX b, hrest.head, next_setNext w b, hsource.2⟩
  case writer => exact getLast?_concat.symm
  case source =>
    rw [hsource.2.head?_eq]
    exact hsource.2
  case lt =>
    intro c hc
    rcases mem_append.1 hc with hc | hc
    · rcases mem_append.1 hc with hc | hc
      · exact hf.lt c (mem_append_left _ hc)
      · exact hf.lt_source c (by simp [mem_singleton.1 hc])
    · exact hf.lt_source c (by simp [hc])
  case lt_source => exact fun c hc => hf.lt_source c (by simp [hc])
  case ordered =>
    intro c hc
    rw [setNext_block]
    exact hf.ordered c (by simp [hc])
  case other => exact hf.other_concat
  case behind => exact ⟨[], fun c hc => absurd hc not_mem_nil, .inr rfl⟩
  case settled => exact hsettled

end

theorem Feeding.first (hf : Feeding h m [] U (b :: L)) (reader : Fin maxMIOBufferReaders → IOBufferReader) :
    Feeding h { m with writer := some b, reader := reader } [b] L L where
  walk := hf.source
  writer := rfl
  source := by
    rw [hf.source.2.head?_eq]
    exact hf.source.2
  lt := hf.lt_source
  lt_source c hc := hf.lt_source c (by simp [hc])
  ordered c hc := hf.ordered c (by simp [hc])
  other := hf.other_concat
  behind := ⟨[], fun c hc => absurd hc not_mem_nil, .inr rfl⟩
  settled c hc := absurd hc not_mem_nil

/-- The blocks of the buffer went on with the bytes `A`. -/
structure Fed (h : IOHeap) (m : MIOBuffer) (T : List Nat) (A : List UInt8) (h' : IOHeap)
    (m' : MIOBuffer) (T' : List Nat) : Prop where
  trail : T <+: T'
  bytes : ∀ b, h'.bytes b = h.bytes b
  content : h'.content T' = h.content T ++ A
  reader : m'.reader = readersOf m T T'

theorem Fed.refl (h : IOHeap) (m : MIOBuffer) (T : List Nat) : Fed h m T [] h m T :=
  ⟨prefix_rfl, fun _ => rfl, (append_nil _).symm, (readersOf_self m T).symm⟩

section Fed
variable (hs : Fed h m T A h' m' T')
include hs

theorem Fed.trans (hs' : Fed h' m' T' B h'' m'' T'') : Fed h m T (A ++ B) h'' m'' T'' where
  trail := hs.trail.trans hs'.trail
  bytes b := (hs'.bytes b).trans (hs.bytes b)
  content := by rw [hs'.content, hs.content, append_assoc]
  reader := hs'.reader.trans (readersOf_trans hs.reader hs.trail hs'.trail)

theorem Fed.hasBytes : h'.HasBytes b ↔ h.HasBytes b := by rw [hasBytes_iff, hasBytes_iff, hs.bytes]

theorem Fed.apart : h'.Apart L ↔ h.Apart L := apart_congr fun _ => hs.hasBytes

theorem Fed.content_eq : h'.content L = h.content L := flatMap_congr fun b _ => hs.bytes b

end Fed

theorem Feeding.readAvail_eq (hf : Feeding h m T U (b :: L)) : (h.block b).readAvail = (h.bytes b).length :=
  (length_bytes (hf.ordered b (by simp))).symm

theorem Feeding.loop_stuck (hf : Feeding h m T U (b :: c :: L)) (hw : m.writer = some w)
    (hb : h.HasBytes b) (hc : h.HasBytes c) : removeAppendLoop (fuel + 2) h m (some b) 0 l = none := by
  obtain ⟨X, Y, hXY, hX, hY⟩ := exists_run h L
  have hmem : w ∈ T := mem_of_getLast? (hf.writer.symm.trans hw)
  obtain ⟨z, hz⟩ : ∃ z, (c :: X).getLast? = some z := ⟨_, getLast?_cons⟩
  have hrun : ∀ d ∈ b :: c :: X, (h.block d).readAvail ≠ 0 := by
    intro d hd
    rcases mem_cons.1 hd with rfl | hd
    · exact (readAvail_ne_zero (hf.ordered d (by simp))).2 hb
    · rcases mem_cons.1 hd with rfl | hd
      · exact (readAvail_ne_zero (hf.ordered d (by simp))).2 hc
      · exact hX d hd
  subst hXY
  have hnext : h.next b = some c := hf.source.2.1
  have happend := appendBlockInternal_some hw hf.source hf.lt_source
    (fun hin => hf.other w hin hmem) hrun hY (by rw [getLast?_cons_cons, hz])
  have hnot : w ∉ c :: X ++ Y := fun hin => hf.other w (mem_cons_of_mem b hin) hmem
  have hwalk : Walk (h.setNext w b).next (some c) (c :: X ++ Y) none := walk_setNext (hnext ▸ hf.source.2) hnot b
  have hbytes : (h.setNext w b).HasBytes c := by
    rw [hasBytes_iff, bytes_setNext]
    exact hasBytes_iff.1 hc
  rw [loop_append hb, happend, bind_some, hnext, loop_append hbytes,
    appendBlockInternal_cycle rfl hwalk hz, bind_none]

theorem Feeding.loop_step (hf : Feeding h m T U (b :: L)) (hw : m.writer = some w)
    (hb : h.HasBytes b) (hL : ∀ c ∈ L.head?, ¬h.HasBytes c) (fuel : Nat) (l : Int) :
    removeAppendLoop (fuel + 1) h m (some b) 0 l =
        removeAppendLoop fuel (h.setNext w b) { m with writer := some b } L.head? 0 (l + (h.bytes b).length) ∧
      Feeding (h.setNext w b) { m with writer := some b } (T ++ [b]) L L ∧
      Fed h m T (h.bytes b) (h.setNext w b) { m with writer := some b } (T ++ [b]) := by
  have hmem : w ∈ T := mem_of_getLast? (hf.writer.symm.trans hw)
  have happend := appendBlockInternal_some hw (X := []) (Y := L) (z := b) hf.source hf.lt_source
    (fun hin => hf.other w hin hmem)
    (fun c hc => by
      rw [mem_singleton.1 hc]
      exact (readAvail_ne_zero (hf.ordered b (by simp))).2 hb)
    (fun c hc => by
      have hc' := hf.ordered c (mem_cons_of_mem b (mem_of_mem_head? hc))
      exact not_not.1 fun hne => hL c hc ((readAvail_ne_zero hc').1 hne)) rfl
  refine ⟨?_, hf.append hw hb, ⟨⟨[b], rfl⟩, fun _ => bytes_setNext w b, ?_, ?_⟩⟩
  · rw [loop_append hb, happend, bind_some, ← hf.source.2.head?_eq, hf.readAvail_eq]
  · have hsame : (h.setNext w b).content (T ++ [b]) = h.content (T ++ [b]) :=
      flatMap_congr fun c _ => bytes_setNext w b
    rw [hsame, content_append, content_singleton]
  · funext j
    rw [readersOf, if_neg fun hcase => ne_nil_of_mem hmem hcase.1]

theorem Feeding.loop_first (hf : Feeding h m [] U (b :: L)) (hb : h.HasBytes b)
    (hL : (h.block b).writeAvail = 0 → ∀ c ∈ L.head?, ¬h.HasBytes c) (fuel : Nat) (l : Int) :
    ∃ m', removeAppendLoop (fuel + 1) h m (some b) 0 l =
        removeAppendLoop fuel h m' L.head? 0 (l + (h.bytes b).length) ∧
      Feeding h m' [b] L L ∧ Fed h m [] (h.bytes b) h m' [b] := by
  have hstays : h.settleLoop (b :: L) = some b := settleLoop_stays fun hroom c hc => by
    have hc' := hf.ordered c (mem_cons_of_mem b (mem_of_mem_head? hc))
    exact not_not.1 fun hne => hL hroom c hc ((readAvail_ne_zero hc').1 hne)
  have happend := appendBlockInternal_none hf.writer hf.source hf.lt_source
  rw [hstays] at happend
  refine ⟨{ m with writer := some b, reader := readersOf m [] [b] }, ?_, hf.first _,
    ⟨[b], rfl⟩, fun _ => rfl, content_singleton, rfl⟩
  rw [loop_append hb, happend, bind_some, ← hf.source.2.head?_eq, hf.readAvail_eq]

theorem Feeding.loop_first_stuck (hf : Feeding h m [] U (b :: c :: L)) (hb : h.HasBytes b)
    (hroom : (h.block b).writeAvail = 0) (hc : h.HasBytes c) :
    removeAppendLoop (fuel + 2) h m (some b) 0 l = none := by
  obtain ⟨X, Y, z, rfl, hz, hset⟩ := settleLoop_mem (h := h) c L
  have hmove : h.settleLoop (b :: c :: (X ++ Y)) = some z := by
    rw [settleLoop, if_pos ⟨hroom, (readAvail_ne_zero (hf.ordered c (by simp))).2 hc⟩, hset]
  have hnext : h.next b = some c := hf.source.2.1
  rw [loop_append hb, appendBlockInternal_none hf.writer hf.source hf.lt_source, hmove, bind_some, hnext,
    loop_append hc, appendBlockInternal_cycle rfl (X := X) (Y := Y) (hnext ▸ hf.source.2) hz, bind_none]

def Takes (h : IOHeap) (m : MIOBuffer) (L : List Nat) : Prop :=
  if m.writer = none then h.FirstApart L else h.Apart L

/-- A block with bytes gets in, and the writer stays at it. -/
def Stays (h : IOHeap) (m : MIOBuffer) (b : Nat) (L : List Nat) : Prop :=
  (m.writer = none → (h.block b).writeAvail = 0) → ∀ c ∈ L.head?, ¬h.HasBytes c

theorem takes_cons (hb : h.HasBytes b) : h.Takes m (b :: L) ↔ h.Stays m b L ∧ h.Apart L := by
  rw [Takes, Stays, FirstApart, Apart, if_pos hb]
  split <;> simp [*]

theorem takes_skip (hb : ¬h.HasBytes b) : h.Takes m (b :: L) ↔ h.Takes m L := by
  rw [Takes, Takes, FirstApart, Apart, if_neg hb]
  simp [hb]

theorem takes_of_writer (hm : m.writer ≠ none) : h.Takes m L ↔ h.Apart L := by rw [Takes, if_neg hm]

theorem Feeding.round (hf : Feeding h m T U (b :: L)) (hb : h.HasBytes b) (hL : h.Stays m b L)
    (fuel : Nat) (l : Int) : ∃ h' m' T', m'.writer ≠ none ∧ removeAppendLoop (fuel + 1) h m (some b) 0 l =
        removeAppendLoop fuel h' m' L.head? 0 (l + (h.bytes b).length) ∧
      Feeding h' m' T' L L ∧ Fed h m T (h.bytes b) h' m' T' := by
  cases hw : m.writer with
  | none =>
    obtain rfl : T = [] := getLast?_eq_none_iff.1 (hf.writer.symm.trans hw)
    obtain ⟨m', hstep, hf', hs⟩ := hf.loop_first hb (fun hroom => hL fun _ => hroom) fuel l
    exact ⟨h, m', [b], by rw [hf'.writer]; simp, hstep, hf', hs⟩
  | some w =>
    obtain ⟨hstep, hf', hs⟩ := hf.loop_step hw hb (hL fun hn => by rw [hw] at hn; cases hn) fuel l
    exact ⟨_, _, _, some_ne_none b, hstep, hf', hs⟩

/-- **The loop.** Blocks that are apart are moved. -/
theorem Feeding.run_some (hf : Feeding h m T U L) (hL : h.Takes m L) (hfuel : L.length ≤ fuel) :
    ∃ h' m' T' U', removeAppendLoop fuel h m L.head? 0 l = some (h', m', 0, l + (h.content L).length) ∧
        Feeding h' m' T' U' [] ∧ Fed h m T (h.content L) h' m' T' := by
  induction L generalizing h m T U l fuel with
  | nil =>
    refine ⟨h, m, T, U, ?_, hf, Fed.refl h m T⟩
    rw [head?_nil, removeAppendLoop, content_nil, length_nil, Nat.cast_zero, add_zero]
  | cons b L ih =>
    obtain ⟨fuel, rfl⟩ : ∃ n, fuel = n + 1 := Nat.exists_eq_add_one.2 (by simp at hfuel; omega)
    have hfuel' : L.length ≤ fuel := by simpa using hfuel
    by_cases hb : h.HasBytes b
    · obtain ⟨hstays, hapart⟩ := (takes_cons hb).1 hL
      obtain ⟨h₁, m1, T1, hw, hstep, hf', hs⟩ := hf.round hb hstays fuel l
      obtain ⟨h', m', T', U', hrun, hdone, hs'⟩ := ih (l := l + (h.bytes b).length) hf'
        ((takes_of_writer hw).2 (hs.apart.2 hapart)) hfuel'
      rw [hs.content_eq] at hrun hs'
      refine ⟨h', m', T', U', ?_, hdone, ?_⟩
      · rw [head?_cons, hstep, hrun, content_cons, length_append, Nat.cast_add, add_assoc]
      · rw [content_cons]
        exact hs.trans hs'
    · have hnil : h.bytes b = [] := not_not.1 fun hne => hb (hasBytes_iff.2 hne)
      rw [content_cons, hnil, nil_append, head?_cons, loop_skip hb, ← hf.source.2.head?_eq]
      exact ih (hf.skip hb) ((takes_skip hb).1 hL) hfuel'

theorem Feeding.run_none (hf : Feeding h m T U L) (hL : ¬h.Takes m L) (hfuel : L.length ≤ fuel) :
    removeAppendLoop fuel h m L.head? 0 l = none := by
  induction L generalizing h m T U l fuel with
  | nil =>
    refine absurd ?_ hL
    rw [Takes]
    split <;> trivial
  | cons b L ih =>
    obtain ⟨fuel, rfl⟩ : ∃ n, fuel = n + 1 := Nat.exists_eq_add_one.2 (by simp at hfuel; omega)
    have hfuel' : L.length ≤ fuel := by simpa using hfuel
    rw [head?_cons]
    by_cases hb : h.HasBytes b
    · by_cases hstays : h.Stays m b L
      · obtain ⟨h₁, m1, T1, hw, hstep, hf', hs⟩ := hf.round hb hstays fuel l
        rw [hstep]
        refine ih hf' (fun ha => hL ((takes_cons hb).2 ⟨hstays, ?_⟩)) hfuel'
        exact hs.apart.1 ((takes_of_writer hw).1 ha)
      · -- the two blocks in a row
        rw [Stays] at hstays
        push Not at hstays
        obtain ⟨hroom, c, hc, hcb⟩ := hstays
        obtain ⟨L', rfl⟩ : ∃ L', L = c :: L' := head?_eq_some_iff.1 hc
        obtain ⟨fuel, rfl⟩ : ∃ n, fuel = n + 1 := Nat.exists_eq_add_one.2 (by simp at hfuel'; omega)
        cases hw : m.writer with
        | none =>
          obtain rfl : T = [] := getLast?_eq_none_iff.1 (hf.writer.symm.trans hw)
          exact hf.loop_first_stuck hb (hroom hw) hcb
        | some w => exact hf.loop_stuck hw hb hcb
    · rw [loop_skip hb, ← hf.source.2.head?_eq]
      exact ih (hf.skip hb) (mt (takes_skip hb).2 hL) hfuel'

/-! ### The first offset -/

variable {off : Int}

theorem moveStart_block (b : Nat) (n : Int) (c : Nat) : (h.moveStart b n).block c =
    ⟨(h.block c).data, if c = b then (h.block c).start + n else (h.block c).start,
      (h.block c).endPos, (h.block c).bufEnd, (h.block c).next⟩ := by
  change update h.block b _ c = _
  by_cases heq : c = b
  · rw [heq, update_self, if_pos rfl]
  · rw [update_of_ne heq, if_neg heq]

theorem next_moveStart (b : Nat) (n : Int) : (h.moveStart b n).next = h.next := by
  funext c
  rw [next, moveStart_block]
  rfl

theorem bytes_moveStart_ne (n : Int) (hne : c ≠ b) : (h.moveStart b n).bytes c = h.bytes c := by
  rw [bytes, moveStart_block, if_neg hne]
  rfl

theorem readAvail_moveStart (b : Nat) (n : Int) :
    ((h.moveStart b n).block b).readAvail = (h.block b).readAvail - n := by
  simp only [moveStart_block, if_true, IOBufferBlock.readAvail]
  omega

theorem bytes_moveStart (hb : (h.block b).start ≤ (h.block b).endPos) (hoff : 0 ≤ off)
    (hle : off ≤ (h.block b).readAvail) : (h.moveStart b off).bytes b = (h.bytes b).drop off.toNat := by
  have hsize := length_bytes hb
  have hpart := bytesAt_part hoff (show off + ((h.block b).readAvail - off) ≤ (h.block b).readAvail by omega)
  rw [take_of_length_le (by rw [length_drop]; omega)] at hpart
  rw [bytes, readAvail_moveStart, moveStart_block, if_pos rfl, ← hpart]
  rfl

theorem loop_offset (hb : (h.block b).start + off < (h.block b).endPos) :
    removeAppendLoop (fuel + 1) h m (some b) off l =
      removeAppendLoop (fuel + 1) (h.moveStart b off) m (some b) 0 l := by
  have hbytes : (h.moveStart b off).HasBytes b := by
    rw [HasBytes, moveStart_block, if_pos rfl]
    exact hb
  rw [loop_append hbytes, removeAppendLoop]
  rw [if_neg (not_le.2 hbytes), next_moveStart]
  rfl

theorem loop_consumed (hb : (h.block b).endPos ≤ (h.block b).start + off) :
    removeAppendLoop (fuel + 1) h m (some b) off l =
      removeAppendLoop fuel (h.moveStart b off) m (h.next b) (-off) l := by
  rw [removeAppendLoop]
  rw [if_pos]
  rw [moveStart_block, if_pos rfl]
  exact hb

/-! ### When the unread bytes are moved -/

/-- A heap that differs in the blocks of the reader only. -/
structure Moved (h : IOHeap) (T S : List Nat) (h' : IOHeap) : Prop where
  next : h'.next = h.next
  nextBlock : h'.nextBlock = h.nextBlock
  bytes : ∀ b ∈ T ++ S, h'.bytes b = h.bytes b

theorem Moved.refl (h : IOHeap) (T S : List Nat) : Moved h T S h := ⟨rfl, rfl, fun _ _ => rfl⟩

theorem Moved.moveStart (hm : Moved h T S h') (hb : b ∉ T ++ S) (n : Int) : Moved h T S (h'.moveStart b n) where
  next := (next_moveStart b n).trans hm.next
  nextBlock := hm.nextBlock
  bytes c hc := (bytes_moveStart_ne n fun heq : c = b => hb (heq ▸ hc)).trans (hm.bytes c hc)

theorem Moved.feeding (hm : Moved h T S h') (hc : h.Chain m T S) (hs : h.Settled T)
    (hL : Walk h.next L.head? L none) (hlt : ∀ b ∈ L, b < h.nextBlock) (hord : h'.Ordered L)
    (hother : ∀ b ∈ L, b ∉ T ++ S) : Feeding h' m T S L where
  walk := by
    rw [hm.next]
    exact hc.walk
  writer := hc.writer
  source := by
    rw [hm.next]
    exact hL
  lt := by
    rw [hm.nextBlock]
    exact hc.lt
  lt_source := by
    rw [hm.nextBlock]
    exact hlt
  ordered := hord
  other b hb hT := hother b hb (mem_append_left _ hT)
  behind := by
    refine ⟨S, fun b hb => ?_, .inl rfl⟩
    rw [hm.bytes b (mem_append_right _ hb)]
    exact hc.spare b hb
  settled b hb := by
    rw [hm.bytes b (mem_append_left _ (mem_of_mem_tail hb))]
    exact hs b hb

theorem Feeding.chain (hf : Feeding h m T U []) : h.Chain m T U where
  walk := hf.walk
  lt := hf.lt
  writer := hf.writer
  inner b hb := hf.settled b (dropLast_subset _ hb)
  spare b hb := by
    obtain ⟨E, hE, rfl | rfl⟩ := hf.behind
    · exact hE b hb
    · exact hE b (by simpa using hb)

variable {src : MIOBuffer} {j : Fin maxMIOBufferReaders} {h₁ : IOHeap}

section Source
variable (hsrc : h.Source T S (src.reader j) L)
include hsrc

theorem Source.readAvail_eq : h.readAvail (src.reader j) =
      some ((h.content L).length - (src.reader j).startOffset) := by
  rw [readAvail, blocksFrom_of_walk hsrc.walk hsrc.lt, bind_eq_bind, bind_some,
    sum_readAvail hsrc.ordered, if_neg fun hlim => hlim.1 hsrc.noLimit]

theorem Source.moves (hm : Moved h T S h₁) (off : Int)
    (hrun : removeAppendLoop h.nextBlock h m (src.reader j).block (src.reader j).startOffset 0 =
      some (h', m', off, (h.content L).length - (src.reader j).startOffset)) (hf : Feeding h' m' T' U [])
    (hfed : Fed h₁ m T ((h.content L).drop (src.reader j).startOffset.toNat) h' m' T') : MovesUnread h m T src j := by
  have hcontent : h₁.content T = h.content T := flatMap_congr fun b hb => hm.bytes b (mem_append_left _ hb)
  have hT' : h'.content T' = h.content T ++ (h.content L).drop (src.reader j).startOffset.toNat := by
    rw [hfed.content, hcontent]
  obtain ⟨src', hres⟩ : ∃ src', h.removeAppend m src j =
      some (h', m', src', (h.content L).length - (src.reader j).startOffset) := by
    rw [removeAppend, hrun]
    exact ⟨_, rfl⟩
  refine ⟨h', m', src', _, L, T', U, hres, hsrc.readAvail_eq, blocksFrom_of_walk hsrc.walk hsrc.lt,
    hf.chain, hT', fun i p halloc hr => ?_⟩
  have hp := hr.2.1
  rw [hfed.reader]
  refine hr.readersOf halloc hfed.trail (fun b hb => ?_) ?_
  · rw [hfed.bytes, hm.bytes b (mem_append_left _ (dropLast_subset _ hb))]
  · rw [hT', length_append]
    omega

theorem Source.not_moves (hrun : ∀ h' m' off,
      removeAppendLoop h.nextBlock h m (src.reader j).block (src.reader j).startOffset 0 ≠
        some (h', m', off, (h.content L).length - (src.reader j).startOffset)) : ¬MovesUnread h m T src j := by
  rintro ⟨h', m', src', l, -, -, -, hremove, havail, -⟩
  rw [hsrc.readAvail_eq] at havail
  obtain ⟨⟨h2, m2, off, l2⟩, hloop, hres⟩ := bind_eq_some_iff.1 hremove
  obtain ⟨-, -, -, rfl⟩ : h2 = h' ∧ m2 = m' ∧ _ = src' ∧ l2 = l := by simpa using hres
  exact hrun h2 m2 off (by rw [hloop, some.inj havail])

theorem Source.length_le : L.length ≤ h.nextBlock := length_le_of_walk hsrc.walk hsrc.lt

theorem Source.moves_iff (hc : h.Chain m T S) (hs : h.Settled T) (hm : Moved h T S h₁) (hord : h₁.Ordered L)
    (hcontent : h₁.content L = (h.content L).drop (src.reader j).startOffset.toNat)
    (hrun : removeAppendLoop h.nextBlock h m (src.reader j).block (src.reader j).startOffset 0 =
      removeAppendLoop h.nextBlock h₁ m L.head? 0 0) : MovesUnread h m T src j ↔ h₁.Takes m L := by
  have hoff := hsrc.offset_nonneg
  have hle := hsrc.offset_le
  have hlen : ((h₁.content L).length : Int) = (h.content L).length - (src.reader j).startOffset := by
    rw [hcontent, length_drop]
    omega
  have hf := hm.feeding hc hs (hsrc.walk.head?_eq ▸ hsrc.walk) hsrc.lt hord hsrc.other
  constructor
  · intro hmoves
    by_contra htakes
    refine hsrc.not_moves (fun h' m' off heq => ?_) hmoves
    rw [hrun, hf.run_none htakes hsrc.length_le] at heq
    cases heq
  · intro htakes
    obtain ⟨h', m', T', U', hres, hdone, hfed⟩ := hf.run_some (l := 0) htakes hsrc.length_le
    rw [hcontent] at hfed
    refine hsrc.moves hm 0 ?_ hdone hfed
    rw [hrun, hres, hlen, zero_add]

end Source

theorem takes_moveStart (hb : h.HasBytes b) (hoff : off < (h.block b).readAvail) :
    (h.moveStart b off).Takes m L ↔ h.Takes m L := by
  have hsame : ∀ c, (h.moveStart b off).HasBytes c ↔ h.HasBytes c := by
    intro c
    rw [HasBytes, moveStart_block, HasBytes]
    dsimp only
    by_cases heq : c = b
    · rw [if_pos heq, heq]
      refine iff_of_true ?_ hb
      rw [IOBufferBlock.readAvail] at hoff
      omega
    · rw [if_neg heq]
  have hroom : ∀ c, ((h.moveStart b off).block c).writeAvail = (h.block c).writeAvail := by
    intro c
    rw [moveStart_block]
    rfl
  rw [Takes, Takes]
  split
  · exact firstApart_congr hsame hroom
  · exact apart_congr hsame

theorem takes_singleton (m : MIOBuffer) (b : Nat) : h.Takes m [b] := by simp [Takes, FirstApart, Apart]

theorem Source.moves_inside (hsrc : h.Source T S (src.reader j) (b :: L)) (hc : h.Chain m T S)
    (hs : h.Settled T) (hin : (src.reader j).startOffset < (h.block b).readAvail) :
    MovesUnread h m T src j ↔ h.Takes m (b :: L) := by
  have hoff := hsrc.offset_nonneg
  have hb := hsrc.ordered b (by simp)
  have hbytes : h.HasBytes b := by
    rw [HasBytes]
    rw [IOBufferBlock.readAvail] at hin
    omega
  have hnodup := nodup_cons.1 hsrc.walk.nodup
  have hblock : (src.reader j).block = some b := hsrc.walk.head
  have hne : ∀ c ∈ L, c ≠ b := fun c hcL heq => hnodup.1 (heq ▸ hcL)
  obtain ⟨n, hn⟩ : ∃ n, h.nextBlock = n + 1 := Nat.exists_eq_add_one.2 (Nat.zero_lt_of_lt (hsrc.lt b (by simp)))
  rw [← takes_moveStart hbytes hin]
  refine hsrc.moves_iff hc hs ((Moved.refl h T S).moveStart (hsrc.other b (by simp)) _) ?_ ?_ ?_
  · intro c hcL
    rw [moveStart_block]
    dsimp only
    rw [IOBufferBlock.readAvail] at hin
    rcases mem_cons.1 hcL with rfl | hcL
    · rw [if_pos rfl]
      omega
    · rw [if_neg (hne c hcL)]
      exact hsrc.ordered c (by simp [hcL])
  · have hsize := length_bytes hb
    have htail : (h.moveStart b (src.reader j).startOffset).content L = h.content L :=
      flatMap_congr fun c hcL => bytes_moveStart_ne _ (hne c hcL)
    rw [content_cons, content_cons, htail, bytes_moveStart hb hoff hin.le, drop_append_of_le_length (by omega)]
  · rw [hblock, hn, head?_cons]
    refine loop_offset ?_
    rw [IOBufferBlock.readAvail] at hin
    omega

theorem Source.moves_consumed (hsrc : h.Source T S (src.reader j) [b]) (hc : h.Chain m T S)
    (hs : h.Settled T) (hout : (h.block b).readAvail ≤ (src.reader j).startOffset) : MovesUnread h m T src j := by
  have hle := hsrc.offset_le
  have hsize := length_bytes (hsrc.ordered b (by simp))
  rw [content_singleton] at hle
  have hb : (h.block b).endPos ≤ (h.block b).start + (src.reader j).startOffset := by
    rw [IOBufferBlock.readAvail] at hout
    omega
  have hm := (Moved.refl h T S).moveStart (hsrc.other b (by simp)) (src.reader j).startOffset
  have hf : Feeding (h.moveStart b (src.reader j).startOffset) m T S [] :=
    hm.feeding hc hs rfl (fun _ hmem => absurd hmem not_mem_nil)
      (fun _ hmem => absurd hmem not_mem_nil) (fun _ hmem => absurd hmem not_mem_nil)
  obtain ⟨n, hn⟩ : ∃ n, h.nextBlock = n + 1 := Nat.exists_eq_add_one.2 (Nat.zero_lt_of_lt (hsrc.lt b (by simp)))
  have hnil : (h.content [b]).drop (src.reader j).startOffset.toNat = [] := by
    rw [content_singleton]
    exact drop_of_length_le (by omega)
  have hblock : (src.reader j).block = some b := hsrc.walk.head
  have hnext : h.next b = none := hsrc.walk.2
  refine hsrc.moves hm (-(src.reader j).startOffset) ?_ hf ?_
  · rw [hblock, hn, loop_consumed hb, hnext, removeAppendLoop, content_singleton,
      show ((h.bytes b).length : Int) - (src.reader j).startOffset = 0 by omega]
  · rw [hnil]
    exact Fed.refl _ m T

theorem Source.not_moves_carry (hsrc : h.Source T S (src.reader j) (b :: c :: L))
    (hc : h.Chain m T S) (hs : h.Settled T) (hpos : 0 < (src.reader j).startOffset)
    (hout : (h.block b).readAvail ≤ (src.reader j).startOffset) : ¬MovesUnread h m T src j := by
  generalize hdef : (src.reader j).startOffset = off at hpos hout
  have hnodup := hsrc.walk.nodup
  have hbL : b ∉ c :: L := (nodup_cons.1 hnodup).1
  have hcL : c ∉ L := (nodup_cons.1 (nodup_cons.1 hnodup).2).1
  have hwalk : Walk h.next (some c) (c :: L) none := hsrc.walk.2.head ▸ hsrc.walk.2
  have hb : (h.block b).endPos ≤ (h.block b).start + off := by
    rw [IOBufferBlock.readAvail] at hout
    omega
  have hsame : ∀ d ∈ c :: L, (h.moveStart b off).block d = h.block d := by
    intro d hd
    rw [moveStart_block, if_neg fun heq : d = b => hbL (heq ▸ hd)]
  have hcord := hsrc.ordered c (by simp)
  have hm := ((Moved.refl h T S).moveStart (hsrc.other b (by simp)) off).moveStart (hsrc.other c (by simp)) (-off)
  have hord : ((h.moveStart b off).moveStart c (-off)).Ordered (c :: L) := by
    intro d hd
    rw [moveStart_block, hsame d hd]
    have := hsrc.ordered d (mem_cons_of_mem b hd)
    dsimp only
    split <;> omega
  have hf := hm.feeding (L := c :: L) hc hs hwalk (fun d hd => hsrc.lt d (mem_cons_of_mem b hd)) hord
    fun d hd => hsrc.other d (mem_cons_of_mem b hd)
  have hlen := hsrc.length_le
  rw [length_cons] at hlen
  obtain ⟨n, hn⟩ : ∃ n, h.nextBlock = n + 1 + 1 := ⟨h.nextBlock - 2, by rw [length_cons] at hlen; omega⟩
  have hloop : removeAppendLoop h.nextBlock h m (src.reader j).block (src.reader j).startOffset 0 =
      removeAppendLoop (n + 1) ((h.moveStart b off).moveStart c (-off)) m (some c) 0 0 := by
    rw [hsrc.walk.head, hdef, hn, loop_consumed hb, hsrc.walk.2.head]
    refine loop_offset ?_
    rw [hsame c (by simp)]
    omega
  refine hsrc.not_moves fun h' m' off' heq => ?_
  rw [hloop] at heq
  by_cases htakes : ((h.moveStart b off).moveStart c (-off)).Takes m (c :: L)
  · obtain ⟨h2, m2, T2, U2, hres, -⟩ := hf.run_some (l := 0) htakes (show _ ≤ n + 1 by omega)
    have hl : (0 : Int) + (((h.moveStart b off).moveStart c (-off)).content (c :: L)).length =
        (h.content (b :: c :: L)).length - (src.reader j).startOffset :=
      congrArg (fun r => r.2.2.2) (some.inj (hres.symm.trans heq))
    have htail : ((h.moveStart b off).moveStart c (-off)).content L = h.content L :=
      flatMap_congr fun d hd => by
        have hdc : d ≠ c := fun heq => hcL (heq ▸ hd)
        have hdb : d ≠ b := fun heq => hbL (heq ▸ mem_cons_of_mem c hd)
        rw [bytes_moveStart_ne _ hdc, bytes_moveStart_ne _ hdb]
    have hsize := length_bytes (hord c (by simp))
    have hsize' := length_bytes hcord
    have hsizeb := length_bytes (hsrc.ordered b (by simp))
    rw [readAvail_moveStart, hsame c (by simp)] at hsize
    rw [content_cons, content_cons, content_cons, htail, hdef] at hl
    simp only [length_append] at hl
    omega
  · have hnone := hf.run_none (l := 0) htakes (show (c :: L).length ≤ n + 1 by omega)
    rw [head?_cons] at hnone
    rw [hnone] at heq
    cases heq

/-- **`remove_append` moves the unread bytes** if and only if the offset is 0 or inside the first
block, or there is no other block, and the buffer can take the blocks: no two with bytes follow each
other, except at the start of a buffer without blocks if the first of them has room. -/
theorem movesUnread_iff (hc : h.Chain m T S) (hs : h.Settled T) (hsrc : h.Source T S (src.reader j) L) :
    MovesUnread h m T src j ↔ ((src.reader j).startOffset = 0 ∨ L.length ≤ 1 ∨
        ∃ b ∈ L.head?, (src.reader j).startOffset < (h.block b).readAvail) ∧ h.Takes m L := by
  have hoff := hsrc.offset_nonneg
  have hle := hsrc.offset_le
  by_cases h0 : (src.reader j).startOffset = 0
  · rw [hsrc.moves_iff hc hs (Moved.refl h T S) hsrc.ordered (by rw [h0]; rfl) (by rw [h0, hsrc.walk.head?_eq])]
    simp [h0]
  cases L with
  | nil =>
    rw [content_nil, length_nil] at hle
    omega
  | cons b L =>
    by_cases hin : (src.reader j).startOffset < (h.block b).readAvail
    · rw [hsrc.moves_inside hc hs hin]
      exact ⟨fun ht => ⟨.inr (.inr ⟨b, rfl, hin⟩), ht⟩, fun ht => ht.2⟩
    · cases L with
      | nil =>
        exact iff_of_true (hsrc.moves_consumed hc hs (not_lt.1 hin))
          ⟨.inr (.inl le_rfl), takes_singleton m b⟩
      | cons c L =>
        refine iff_of_false (hsrc.not_moves_carry hc hs (by omega) (not_lt.1 hin)) ?_
        rintro ⟨hfirst | hlen | ⟨d, hd, hlt⟩, -⟩
        · exact h0 hfirst
        · simp at hlen
        · obtain rfl := some.inj hd
          exact hin hlt

def twoBytes : IOHeap where
  block b := ⟨b, 0, 1, 1, if b = 0 then some 1 else none⟩
  nextBlock := 2
  byte data _ := UInt8.ofNat data
  nextData := 2

theorem sizeIndex_zero_lt : 0 < defaultBufferSizes := by decide

def bufferAt (block : Option Nat) (offset : Int) : MIOBuffer :=
  ⟨block, 0, sizeIndex_zero_lt, 0, fun _ => ⟨true, block, offset, ink64Max⟩⟩

/-- Two bytes in a block with an empty one behind it, and one byte in another block. -/
def threeBytes : IOHeap where
  block b := ⟨b, 0, [2, 0, 1].getD b 0, 2, if b = 0 then some 1 else none⟩
  nextBlock := 3
  byte data _ := UInt8.ofNat data
  nextData := 3

/-- The second byte goes behind the one of the other buffer. -/
theorem movesUnread_iff_partly : MovesUnread threeBytes (bufferAt (some 2) 0) [2] (bufferAt (some 0) 1) 0 := by
  have hc : threeBytes.Chain (bufferAt (some 2) 0) [2] [] := ⟨⟨rfl, rfl⟩, by decide, rfl, by decide, by decide⟩
  have hsrc : threeBytes.Source [2] [] ((bufferAt (some 0) 1).reader 0) [0, 1] :=
    ⟨⟨rfl, rfl, rfl⟩, by decide, fun b hb => by fin_cases hb <;> decide, by decide, rfl, by decide, by decide⟩
  refine (movesUnread_iff hc (by unfold Settled; decide) hsrc).2 ⟨.inr (.inr ⟨0, rfl, by decide⟩), ?_⟩
  simp [Takes, Apart, HasBytes, bufferAt, threeBytes]

/-- One of two bytes is read: what is moved are two bytes, the first of which is from before the
second block. -/
theorem consumedByte_not_moved : twoBytes.readAvail ((bufferAt (some 0) 1).reader 0) = some 1 ∧
      (twoBytes.removeAppend (bufferAt none 0) (bufferAt (some 0) 1) 0).map (·.2.2.2) = some 2 ∧
      ¬MovesUnread twoBytes (bufferAt none 0) [] (bufferAt (some 0) 1) 0 := by
  have hc : twoBytes.Chain (bufferAt none 0) [] [] := ⟨rfl, by decide, rfl, by decide, by decide⟩
  have hsrc : twoBytes.Source [] [] ((bufferAt (some 0) 1).reader 0) [0, 1] :=
    ⟨⟨rfl, rfl, rfl⟩, by decide, fun _ _ => Int.zero_le_ofNat 1, by decide, rfl, by decide, by decide⟩
  refine ⟨by decide, by decide, ?_⟩
  exact hsrc.not_moves_carry hc (by unfold Settled; decide) (by decide) (by decide)

end IOHeap

end TrafficServer
