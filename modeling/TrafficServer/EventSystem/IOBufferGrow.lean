import Mathlib.Tactic.Positivity
import TrafficServer.EventSystem.IOBufferRead

/-!
# Growing a chain of blocks

Everything that is done to a buffer lets the content of its chain grow at the end (`Grown`): bytes are
copied to the room of a block and taken in, a new block is linked behind the writer, or the writer
goes on to the next block. Each of these steps is shown here on its own.
-/

namespace TrafficServer

open List Function Option

open Linked (Walk)

namespace IOHeap

variable {h h' h'' : IOHeap} {m m' m'' : MIOBuffer} {b w : Nat} {bs T S T' S' T'' S'' : List Nat}
  {A B : List UInt8} {blk : IOBufferBlock}

/-- The readers of a buffer that had the blocks `T`, when it has the blocks `T'`. -/
def readersOf (m : MIOBuffer) (T T' : List Nat) (j : Fin maxMIOBufferReaders) : IOBufferReader :=
  if T = [] ∧ (m.reader j).allocated ∧ (m.reader j).block = none then
    { m.reader j with block := T'.head? }
  else m.reader j

/-- The content of the chain has grown by `A`; nothing that is not of this chain has changed. -/
structure Grown (h : IOHeap) (m : MIOBuffer) (T S : List Nat) (h' : IOHeap) (m' : MIOBuffer)
    (T' S' : List Nat) (A : List UInt8) : Prop where
  wf : h'.Wf
  chain : h'.Chain m' T' S'
  next : h.nextBlock ≤ h'.nextBlock
  frame : ∀ b < h.nextBlock, b ∉ T ++ S → h'.block b = h.block b ∧ h'.bytes b = h.bytes b
  cells : ∀ b ∈ T' ++ S', b ∈ T ++ S ∨ h.nextBlock ≤ b
  trail : T <+: T'
  front : ∀ b ∈ T.dropLast, h'.bytes b = h.bytes b
  content : h'.content T' = h.content T ++ A
  reader : m'.reader = readersOf m T T'
  sizeIndex : m'.sizeIndex = m.sizeIndex
  waterMark : m'.waterMark = m.waterMark

variable {buf : List UInt8}

theorem content_singleton : h.content [b] = h.bytes b := by simp

section Writer
variable (hc : h.Chain m T S)
include hc

theorem Chain.writer_none : m.writer = none ↔ T = [] := by rw [hc.writer, getLast?_eq_none_iff]

variable (hwriter : w ∈ m.writer)
include hwriter

theorem Chain.eq_concat : T = T.dropLast ++ [w] := (dropLast_append_getLast? w (hc.writer ▸ hwriter)).symm

theorem Chain.writer_mem : w ∈ T := mem_of_getLast? (hc.writer ▸ hwriter)

theorem Chain.writer_lt : w < h.nextBlock := hc.lt w (mem_append_left _ (hc.writer_mem hwriter))

theorem Chain.writer_notMem : w ∉ T.dropLast ++ S := by
  obtain ⟨X, rfl⟩ : ∃ X, T = X ++ [w] := ⟨_, hc.eq_concat hwriter⟩
  have hnodup := hc.walk.nodup
  rw [append_assoc, singleton_append, nodup_middle, nodup_cons] at hnodup
  rw [dropLast_concat]
  exact hnodup.1

end Writer

theorem readersOf_self (m : MIOBuffer) (T : List Nat) : readersOf m T T = m.reader := by
  funext j
  rw [readersOf]
  split
  · next hcase =>
    obtain ⟨rfl, -, hblock⟩ := hcase
    rw [head?_nil, ← hblock]
  · rfl

theorem Grown.refl (hw : h.Wf) (hc : h.Chain m T S) : Grown h m T S h m T S [] where
  wf := hw
  chain := hc
  next := le_rfl
  frame _ _ _ := ⟨rfl, rfl⟩
  cells _ hb := .inl hb
  trail := prefix_rfl
  front _ _ := rfl
  content := (append_nil _).symm
  reader := (readersOf_self m T).symm
  sizeIndex := rfl
  waterMark := rfl

theorem readersOf_trans (hreader : m'.reader = readersOf m T T') (hpre : T <+: T')
    (hpre' : T' <+: T'') : readersOf m' T' T'' = readersOf m T T'' := by
  funext j
  simp only [readersOf, hreader]
  by_cases hT : T = []
  · by_cases hT' : T' = []
    · simp only [hT, hT', head?_nil, true_and]
      split_ifs <;> simp_all
    · have hhead : T''.head? = T'.head? := by
        obtain ⟨N, rfl⟩ := hpre'
        cases T' with
        | nil => exact absurd rfl hT'
        | cons => rfl
      simp [hT, hT', hhead]
  · have hT' : T' ≠ [] := by
      rintro rfl
      exact hT (prefix_nil.1 hpre)
    simp [hT, hT']

theorem mem_dropLast_of_le (hpre : T <+: T') (hb : b ∈ T.dropLast) : b ∈ T'.dropLast := by
  obtain ⟨N, rfl⟩ := hpre
  cases N with
  | nil => simpa using hb
  | cons n N =>
    rw [dropLast_append_of_ne_nil (cons_ne_nil n N)]
    exact mem_append_left _ (dropLast_subset T hb)

theorem Grown.trans (hg : Grown h m T S h' m' T' S' A) (hg' : Grown h' m' T' S' h'' m'' T'' S'' B) :
    Grown h m T S h'' m'' T'' S'' (A ++ B) where
  wf := hg'.wf
  chain := hg'.chain
  next := hg.next.trans hg'.next
  frame b hb hnot := by
    have hnot' : b ∉ T' ++ S' := fun hin => by
      rcases hg.cells b hin with hold | hnew
      · exact hnot hold
      · omega
    obtain ⟨h1, h2⟩ := hg.frame b hb hnot
    obtain ⟨h3, h4⟩ := hg'.frame b (hb.trans_le hg.next) hnot'
    exact ⟨h3.trans h1, h4.trans h2⟩
  cells b hb := by
    rcases hg'.cells b hb with hold | hnew
    · exact hg.cells b hold
    · exact .inr (hg.next.trans hnew)
  trail := hg.trail.trans hg'.trail
  front b hb := (hg'.front b (mem_dropLast_of_le hg.trail hb)).trans (hg.front b hb)
  content := by rw [hg'.content, hg.content, append_assoc]
  reader := hg'.reader.trans (readersOf_trans hg.reader hg.trail hg'.trail)
  sizeIndex := hg'.sizeIndex.trans hg.sizeIndex
  waterMark := hg'.waterMark.trans hg.waterMark

variable {j : Fin maxMIOBufferReaders}

theorem Stands.readersOf {p : Nat} (hr : h.Stands T (m.reader j) p)
    (halloc : (m.reader j).allocated) (htrail : T <+: T')
    (hfront : ∀ b ∈ T.dropLast, h'.bytes b = h.bytes b) (hp' : p ≤ (h'.content T').length) :
    h'.Stands T' (readersOf m T T' j) p := by
  obtain ⟨hlim, -, hoff, hcases⟩ := hr
  obtain ⟨N, rfl⟩ := htrail
  rcases hcases with ⟨rfl, hblock, heq⟩ | ⟨pre, b, post, rfl, hblock, heq⟩
  · rw [readersOf, if_pos ⟨rfl, halloc, hblock⟩]
    refine ⟨hlim, hp', hoff, ?_⟩
    cases N with
    | nil => exact .inl ⟨rfl, rfl, heq⟩
    | cons b post => exact .inr ⟨[], b, post, rfl, rfl, by simp [heq]⟩
  · rw [readersOf, if_neg fun hcase => by simp at hcase]
    refine ⟨hlim, hp', hoff, .inr ⟨pre, b, post ++ N, by simp, hblock, ?_⟩⟩
    have hpre : h'.content pre = h.content pre := by
      refine flatMap_congr fun b' hb' => hfront b' ?_
      rw [dropLast_append_of_ne_nil (cons_ne_nil b post)]
      exact mem_append_left _ hb'
    rw [hpre, heq]

theorem Grown.stands (hg : Grown h m T S h' m' T' S' A) {p : Nat} (halloc : (m.reader j).allocated)
    (hr : h.Stands T (m.reader j) p) : h'.Stands T' (m'.reader j) p := by
  have hp := hr.2.1
  rw [hg.reader]
  refine hr.readersOf halloc hg.trail hg.front ?_
  rw [hg.content, length_append]
  omega

/-! ### Steps on the heap that leave the readers alone -/

theorem Grown.of_blocks (hw : h'.Wf) (hc : h.Chain m T S) (hblocks : h'.nextBlock = h.nextBlock)
    (hnext : ∀ b < h.nextBlock, h'.next b = h.next b)
    (hother : ∀ b < h.nextBlock, b ∉ T.getLast? → h'.block b = h.block b ∧ h'.bytes b = h.bytes b)
    (hgrow : h'.content T = h.content T ++ A) : Grown h m T S h' m T S A := by
  have hlast : ∀ b ∈ T.dropLast ++ S, b ∉ T.getLast? := by
    intro b hb hlast
    rw [← hc.writer] at hlast
    exact hc.writer_notMem hlast hb
  have hbytes : ∀ b ∈ T.dropLast ++ S, h'.bytes b = h.bytes b := fun b hb =>
    (hother b (hc.lt b (by
      rcases mem_append.1 hb with hb | hb
      · exact mem_append_left _ (dropLast_subset T hb)
      · exact mem_append_right _ hb)) (hlast b hb)).2
  refine ⟨hw, ⟨?_, ?_, hc.writer, fun b hb => ?_, fun b hb => ?_⟩, hblocks.ge, fun b hb hnot => ?_,
    fun b hb => .inl hb, prefix_rfl, fun b hb => hbytes b (mem_append_left _ hb), hgrow,
    (readersOf_self m T).symm, rfl, rfl⟩
  · exact hc.walk.congr fun b hb => hnext b (hc.lt b hb)
  · rw [hblocks]
    exact hc.lt
  · rw [hbytes b (mem_append_left _ ?_)]
    · exact hc.inner b hb
    · rw [← tail_dropLast] at hb
      exact mem_of_mem_tail hb
  · rw [hbytes b (mem_append_right _ hb)]
    exact hc.spare b hb
  · refine hother b hb fun hlast => hnot ?_
    exact mem_append_left _ (mem_of_getLast? hlast)

theorem bytes_store (hw : h.Wf) (hwb : w < h.nextBlock) {p : Int}
    (hp : (h.block w).endPos ≤ p) (hbuf : p + buf.length ≤ (h.block w).bufEnd)
    (hb : b < h.nextBlock) : (h.store (h.block w).data p buf).bytes b = h.bytes b := by
  refine map_congr_left fun i hi => ?_
  have hi' := mem_range.1 hi
  change (if (h.block b).data = (h.block w).data ∧ p ≤ (h.block b).start + i ∧
    (h.block b).start + i < p + buf.length then _ else _) = _
  refine if_neg fun hin => ?_
  change i < ((h.block b).endPos - (h.block b).start).toNat at hi'
  by_cases heq : b = w
  · rw [heq] at hin hi'
    omega
  · have := (hw.room b hb w hwb heq hin.1 (by omega)).1
    omega

theorem Grown.store (hw : h.Wf) (hc : h.Chain m T S) (hwb : w < h.nextBlock) {p : Int}
    (hp : (h.block w).endPos ≤ p) (hbuf : p + buf.length ≤ (h.block w).bufEnd) :
    Grown h m T S (h.store (h.block w).data p buf) m T S [] := by
  have hbytes : ∀ b < h.nextBlock, (h.store (h.block w).data p buf).bytes b = h.bytes b :=
    fun b hb => bytes_store hw hwb hp hbuf hb
  refine Grown.of_blocks ⟨hw.data_lt, hw.start_le, hw.end_le, hw.size_pos, hw.room⟩ hc rfl
    (fun _ _ => rfl) (fun b hb _ => ⟨rfl, hbytes b hb⟩) ?_
  rw [append_nil]
  exact flatMap_congr fun b hb => hbytes b (hc.lt b (mem_append_left _ hb))

variable {f : Int}

theorem bytes_fillBlock_ne (hb : b ≠ w) :
    (h.fillBlock w f).block b = h.block b ∧ (h.fillBlock w f).bytes b = h.bytes b := by
  have hblock : (h.fillBlock w f).block b = h.block b := update_of_ne hb ..
  refine ⟨hblock, ?_⟩
  rw [bytes, bytes, hblock]
  rfl

theorem bytes_fillBlock (hw : (h.block w).start ≤ (h.block w).endPos) (hf : 0 ≤ f) :
    (h.fillBlock w f).bytes w = h.bytes w ++ h.bytesAt (h.block w).data (h.block w).endPos f := by
  have hblock : (h.fillBlock w f).block w = { h.block w with endPos := (h.block w).endPos + f } := update_self ..
  rw [bytes, hblock]
  refine ext_getElem ?_ fun i hi hi' => ?_
  · simp only [bytes, length_bytesAt, length_append, IOBufferBlock.readAvail]
    omega
  · rw [getElem_append]
    simp only [bytes, bytesAt, getElem_map, getElem_range, length_map, length_range, IOBufferBlock.readAvail]
    split
    · rfl
    · change h.byte _ _ = h.byte _ _
      congr 1
      omega

theorem fillBlock_block (w : Nat) (f : Int) (b : Nat) : (h.fillBlock w f).block b =
    ⟨(h.block b).data, (h.block b).start, (h.block b).endPos + (if b = w then f else 0),
      (h.block b).bufEnd, (h.block b).next⟩ := by
  change update h.block w _ b = _
  by_cases heq : b = w
  · rw [heq, update_self, if_pos rfl]
  · rw [update_of_ne heq, if_neg heq, add_zero]

def Sound (h : IOHeap) (blk : IOBufferBlock) : Prop :=
  blk.data < h.nextData ∧ blk.start ≤ blk.endPos ∧ blk.endPos ≤ blk.bufEnd ∧ blk.start < blk.bufEnd

theorem Wf.sound (hw : h.Wf) (hb : b < h.nextBlock) : h.Sound (h.block b) :=
  ⟨hw.data_lt b hb, hw.start_le b hb, hw.end_le b hb, hw.size_pos b hb⟩

theorem Wf.of_sound (hs : ∀ b < h.nextBlock, h.Sound (h.block b))
    (hroom : ∀ a < h.nextBlock, ∀ b < h.nextBlock, a ≠ b → (h.block a).data = (h.block b).data →
      (h.block b).endPos < (h.block b).bufEnd →
      (h.block a).endPos ≤ (h.block b).endPos ∧ (h.block a).bufEnd = (h.block a).endPos) : h.Wf :=
  ⟨fun b hb => (hs b hb).1, fun b hb => (hs b hb).2.1, fun b hb => (hs b hb).2.2.1,
    fun b hb => (hs b hb).2.2.2, hroom⟩

theorem Wf.fillBlock (hw : h.Wf) (hf : 0 ≤ f) (hroom : f ≤ (h.block w).writeAvail) : (h.fillBlock w f).Wf := by
  rw [IOBufferBlock.writeAvail] at hroom
  refine .of_sound (fun b hb => ?_) fun a ha b hb hne hdata hless => ?_
  · obtain ⟨hdata, hstart, hend, hsize⟩ := hw.sound hb
    rw [fillBlock_block]
    refine ⟨hdata, ?_, ?_, hsize⟩ <;> dsimp only <;> split
    · omega
    · omega
    · next heq =>
      rw [heq]
      omega
    · omega
  · rw [fillBlock_block, fillBlock_block] at hdata
    rw [fillBlock_block] at hless
    rw [fillBlock_block, fillBlock_block]
    dsimp only at hdata hless ⊢
    have hold := hw.room a ha b hb hne hdata (by split at hless <;> omega)
    -- a block that takes in more has room, so it is the one with the room
    by_cases haw : a = w
    · rw [haw] at hold hne ⊢
      rw [if_pos rfl, if_neg (Ne.symm hne)]
      omega
    · rw [if_neg haw]
      split <;> omega

theorem Grown.fillBlock (hw : h.Wf) (hc : h.Chain m T S) (hlast : T.getLast? = some w) (hf : 0 ≤ f)
    (hroom : f ≤ (h.block w).writeAvail) :
    Grown h m T S (h.fillBlock w f) m T S (h.bytesAt (h.block w).data (h.block w).endPos f) := by
  have hwriter : w ∈ m.writer := hc.writer.trans hlast
  have hT := hc.eq_concat hwriter
  refine Grown.of_blocks (hw.fillBlock hf hroom) hc rfl (fun b _ => ?_) (fun b _ hb => ?_) ?_
  · rw [IOHeap.next, fillBlock_block]
    rfl
  · refine bytes_fillBlock_ne fun heq => hb ?_
    rw [hlast, heq]
    rfl
  · have hfront : ∀ b ∈ T.dropLast, (h.fillBlock w f).bytes b = h.bytes b := fun b hb => by
      refine (bytes_fillBlock_ne fun heq => ?_).2
      exact hc.writer_notMem hwriter (mem_append_left _ (heq ▸ hb))
    rw [hT, content_append, content_append, append_assoc]
    refine congrArg₂ (· ++ ·) (flatMap_congr hfront) ?_
    rw [content_singleton, content_singleton]
    exact bytes_fillBlock (hw.start_le w (hc.writer_lt hwriter)) hf

/-! ### Going on to the next block -/

def Settled (h : IOHeap) (T : List Nat) : Prop := ∀ b ∈ T.tail, h.bytes b ≠ []

theorem Grown.move (hw : h.Wf) (hc : h.Chain m T (b :: S)) (hs : h.Settled T) (hne : T ≠ []) :
    Grown h m T (b :: S) h { m with writer := some b } (T ++ [b]) S [] := by
  refine ⟨hw, ⟨?_, ?_, ?_, ?_, fun b' hb' => hc.spare b' (by simp [hb'])⟩, le_rfl,
    fun _ _ _ => ⟨rfl, rfl⟩, fun b' hb' => .inl (by simpa using hb'), ⟨[b], rfl⟩, fun _ _ => rfl,
    ?_, ?_, rfl, rfl⟩
  · rw [head?_append_of_ne_nil _ hne, append_assoc]
    exact hc.walk
  · rw [append_assoc]
    exact hc.lt
  · exact getLast?_concat.symm
  · intro b' hb'
    rw [tail_append_of_ne_nil hne, dropLast_concat] at hb'
    exact hs b' hb'
  · rw [content_append, content_cons, content_nil, hc.spare b (by simp)]
    rfl
  · funext j
    rw [readersOf, if_neg fun hcase => hne hcase.1]

/-! ### Linking a new block -/

/-- A block that can join the heap: it is in no chain, and room is had by it or by one of the others. -/
structure Joins (h : IOHeap) (blk : IOBufferBlock) : Prop where
  data_lt : blk.data < h.nextData
  start_le : blk.start ≤ blk.endPos
  end_le : blk.endPos ≤ blk.bufEnd
  size_pos : blk.start < blk.bufEnd
  next : blk.next = none
  below : ∀ b < h.nextBlock, (h.block b).data = blk.data → (h.block b).endPos < (h.block b).bufEnd →
    blk.endPos ≤ (h.block b).endPos ∧ blk.bufEnd = blk.endPos
  above : ∀ b < h.nextBlock, (h.block b).data = blk.data → blk.endPos < blk.bufEnd →
    (h.block b).endPos ≤ blk.endPos ∧ (h.block b).bufEnd = (h.block b).endPos

theorem newBlock_self : (h.newBlock blk).block h.nextBlock = blk := update_self ..

theorem newBlock_of_lt (hb : b < h.nextBlock) : (h.newBlock blk).block b = h.block b := update_of_ne hb.ne ..

theorem Wf.newBlock (hw : h.Wf) (hj : h.Joins blk) : (h.newBlock blk).Wf := by
  -- every block is an old one or the new one
  have hcases : ∀ b < (h.newBlock blk).nextBlock, b < h.nextBlock ∨ b = h.nextBlock := fun b hb =>
    Nat.lt_succ_iff_lt_or_eq.1 hb
  refine .of_sound (fun b hb => ?_) fun a ha b hb hne hdata hless => ?_
  · rcases hcases b hb with hb | rfl
    · rw [newBlock_of_lt hb]
      exact hw.sound hb
    · rw [newBlock_self]
      exact ⟨hj.data_lt, hj.start_le, hj.end_le, hj.size_pos⟩
  · rcases hcases a ha with ha | rfl
    · rw [newBlock_of_lt ha] at hdata ⊢
      rcases hcases b hb with hb | rfl
      · rw [newBlock_of_lt hb] at hdata hless ⊢
        exact hw.room a ha b hb hne hdata hless
      · rw [newBlock_self] at hdata hless ⊢
        exact hj.above a ha hdata hless
    · rcases hcases b hb with hb | rfl
      · rw [newBlock_self, newBlock_of_lt hb] at hdata
        rw [newBlock_of_lt hb] at hless
        rw [newBlock_self, newBlock_of_lt hb]
        exact hj.below b hb hdata.symm hless
      · exact absurd rfl hne

def link (h : IOHeap) (m : MIOBuffer) (blk : IOBufferBlock) : IOHeap :=
  match m.writer with
  | none => h.newBlock blk
  | some w => (h.newBlock blk).setNext w h.nextBlock

theorem setNext_block (w n b : Nat) : (h.setNext w n).block b =
    ⟨(h.block b).data, (h.block b).start, (h.block b).endPos, (h.block b).bufEnd,
      if b = w then some n else (h.block b).next⟩ := by
  change update h.block w _ b = _
  by_cases heq : b = w
  · rw [heq, update_self, if_pos rfl]
  · rw [update_of_ne heq, if_neg heq]

theorem Wf.setNext (hw : h.Wf) (w n : Nat) : (h.setNext w n).Wf := by
  refine .of_sound (fun b hb => ?_) fun a ha b hb hne hdata hless => ?_
  · rw [setNext_block]
    exact hw.sound hb
  · rw [setNext_block, setNext_block] at hdata
    rw [setNext_block] at hless
    rw [setNext_block, setNext_block]
    exact hw.room a ha b hb hne hdata hless

theorem bytes_setNext (w n : Nat) : (h.setNext w n).bytes b = h.bytes b := by
  rw [bytes, bytes, setNext_block]
  rfl

theorem bytes_newBlock (hb : b < h.nextBlock) : (h.newBlock blk).bytes b = h.bytes b := by
  rw [bytes, bytes, newBlock_of_lt hb]
  rfl

/-- What linking a block does to the heap. -/
structure LinkedIn (h : IOHeap) (m : MIOBuffer) (blk : IOBufferBlock) (h' : IOHeap) : Prop where
  wf : h'.Wf
  nextBlock : h'.nextBlock = h.nextBlock + 1
  old : ∀ b < h.nextBlock, b ∉ m.writer → h'.block b = h.block b
  bytes : ∀ b < h.nextBlock, h'.bytes b = h.bytes b
  writer : ∀ w ∈ m.writer, h'.next w = some h.nextBlock
  room : ∀ b < h.nextBlock, (h'.block b).writeAvail = (h.block b).writeAvail
  readAvail : (h'.block h.nextBlock).readAvail = blk.readAvail
  writeAvail : (h'.block h.nextBlock).writeAvail = blk.writeAvail
  new : h'.bytes h.nextBlock = h.bytesAt blk.data blk.start blk.readAvail
  last : h'.next h.nextBlock = none

theorem linkedIn_link (hw : h.Wf) (hj : h.Joins blk) (hwriter : ∀ w ∈ m.writer, w < h.nextBlock) :
    LinkedIn h m blk (h.link m blk) := by
  rw [link]
  cases hm : m.writer with
  | none =>
    refine ⟨hw.newBlock hj, rfl, fun b hb _ => newBlock_of_lt hb, fun b hb => bytes_newBlock hb,
      fun w hw => ?_, fun b hb => ?_, ?_, ?_, ?_, ?_⟩
    · rw [hm] at hw
      cases hw
    · rw [newBlock_of_lt hb]
    · rw [newBlock_self]
    · rw [newBlock_self]
    · rw [bytes, newBlock_self]
      rfl
    · rw [next, newBlock_self, hj.next]
  | some w =>
    have hwb := hwriter w hm
    refine ⟨(hw.newBlock hj).setNext _ _, rfl, fun b hb hnot => ?_, fun b hb => ?_, fun w' hw' => ?_,
      fun b hb => ?_, ?_, ?_, ?_, ?_⟩
    · have hne : b ≠ w := fun heq => hnot (by rw [hm, heq]; rfl)
      rw [setNext_block, if_neg hne, newBlock_of_lt hb]
    · rw [bytes_setNext, bytes_newBlock hb]
    · obtain rfl := some.inj (hm.symm.trans hw')
      rw [next, setNext_block, if_pos rfl]
    · rw [setNext_block, newBlock_of_lt hb]
      rfl
    · rw [setNext_block, newBlock_self]
      rfl
    · rw [setNext_block, newBlock_self]
      rfl
    · rw [bytes_setNext, bytes, newBlock_self]
      rfl
    · rw [next, setNext_block, if_neg hwb.ne', newBlock_self, hj.next]

theorem settle_eq {a : Option Nat} (ha : m.writer = a) (hbs : h.blocksFrom a = some bs) :
    h.settle m = some (h, { m with writer := h.settleLoop bs }) := by
  rw [settle, ha, hbs]
  rfl

/-- `append_block_internal` of an empty block leaves the writer where it is, if there is one, and goes
on to a block with bytes. -/
theorem appendBlock_eq (hw : h.Wf) (hc : h.Chain m T S) (hj : h.Joins blk) :
    h.appendBlock m blk = some (h.link m blk, if m.writer = none then
        { m with writer := some h.nextBlock, reader := readersOf m [] [h.nextBlock] }
      else if blk.readAvail ≠ 0 then { m with writer := some h.nextBlock } else m) := by
  have hl := linkedIn_link hw hj fun w hw => hc.writer_lt hw
  -- the new block has nothing behind it
  have hone : (h.link m blk).blocksFrom (some h.nextBlock) = some [h.nextBlock] := by
    refine blocksFrom_of_walk ⟨rfl, hl.last⟩ fun b hb => ?_
    rw [mem_singleton.1 hb, hl.nextBlock]
    exact Nat.lt_succ_self _
  rw [appendBlock, appendBlockInternal]
  cases hm : m.writer with
  | none =>
    have hlink : h.link m blk = h.newBlock blk := by rw [link, hm]
    have hreaders : (({ m with writer := some h.nextBlock } : MIOBuffer).initReaders).reader =
        readersOf m [] [h.nextBlock] := by
      funext j
      simp [MIOBuffer.initReaders, readersOf]
    rw [if_pos rfl, hlink, ← hreaders]
    rw [hlink] at hone
    exact settle_eq (a := some h.nextBlock) rfl hone
  | some w =>
    have hlink : h.link m blk = (h.newBlock blk).setNext w h.nextBlock := by rw [link, hm]
    have hloop : (h.link m blk).appendLoop [h.nextBlock] w = if blk.readAvail ≠ 0 then h.nextBlock else w := by
      rw [appendLoop, hl.readAvail]
      rfl
    rw [if_neg nofun]
    dsimp only
    rw [← hlink, hone, Option.bind_eq_bind, bind_some, hloop]
    by_cases hbytes : blk.readAvail ≠ 0
    · rw [if_pos hbytes, if_pos hbytes]
      exact settle_eq (a := some h.nextBlock) rfl hone
    · have htwo : (h.link m blk).blocksFrom (some w) = some [w, h.nextBlock] := by
        refine blocksFrom_of_walk ⟨rfl, hl.writer w hm, hl.last⟩ fun b hb => ?_
        rw [hl.nextBlock]
        rcases mem_cons.1 hb with rfl | hb
        · exact Nat.lt_succ_of_lt (hc.writer_lt hm)
        · rw [mem_singleton.1 hb]
          exact Nat.lt_succ_self _
      have hsettle : (h.link m blk).settleLoop [w, h.nextBlock] = some w := by
        rw [settleLoop, if_neg fun hcase => hbytes (hl.readAvail ▸ hcase.2)]
      rw [if_neg hbytes, if_neg hbytes, settle_eq rfl htwo, hsettle, ← hm]

section
variable (hl : LinkedIn h m blk h') (hc : h.Chain m T S)

include hl hc

theorem LinkedIn.walk : Walk h'.next (T ++ [h.nextBlock]).head? (T ++ [h.nextBlock]) none := by
  rcases eq_nil_or_concat' T with rfl | ⟨X, w, rfl⟩
  · exact ⟨rfl, hl.last⟩
  · have hwriter : m.writer = some w := hc.writer.trans getLast?_concat
    have hwalk := hc.walk
    have hnot := hc.writer_notMem hwriter
    rw [dropLast_concat] at hnot
    rw [head?_append_of_ne_nil _ (by simp), append_assoc]
    rw [append_assoc, Linked.walk_append] at hwalk
    obtain ⟨a, ha, hrest⟩ := hwalk
    refine Linked.walk_append.2 ⟨a, ha.congr fun b hb => ?_, hrest.1, ?_⟩
    · have hne : b ∉ m.writer := fun hin => by
        rw [hwriter] at hin
        obtain rfl := some.inj hin
        exact hnot (mem_append_left _ hb)
      rw [next, hl.old b (hc.lt b (by simp [hb])) hne]
      rfl
    · exact ⟨hl.writer w hwriter, hl.last⟩

theorem LinkedIn.lt : ∀ b ∈ T ++ [h.nextBlock], b < h'.nextBlock := by
  intro b hb
  rw [hl.nextBlock]
  rcases mem_append.1 hb with hb | hb
  · exact Nat.lt_succ_of_lt (hc.lt b (mem_append_left _ hb))
  · rw [mem_singleton.1 hb]
    exact Nat.lt_succ_self _

theorem Grown.of_linkedIn (hc' : h'.Chain m' T' S')
    (htrail : T <+: T') (hcells : ∀ b ∈ T' ++ S', b ∈ T ∨ b = h.nextBlock)
    (hcontent : h'.content T' = h'.content T ++ A) (hreader : m'.reader = readersOf m T T')
    (hsize : m'.sizeIndex = m.sizeIndex) (hmark : m'.waterMark = m.waterMark) : Grown h m T S h' m' T' S' A := by
  have hT : ∀ b ∈ T, h'.bytes b = h.bytes b := fun b hb => hl.bytes b (hc.lt b (mem_append_left _ hb))
  refine ⟨hl.wf, hc', by rw [hl.nextBlock]; omega, fun b hb hnot => ⟨?_, hl.bytes b hb⟩,
    fun b hb => ?_, htrail, fun b hb => hT b (dropLast_subset T hb), ?_, hreader, hsize, hmark⟩
  · exact hl.old b hb fun hin => hnot (mem_append_left _ (hc.writer_mem hin))
  · rcases hcells b hb with hold | hnew
    · exact .inl (mem_append_left _ hold)
    · exact .inr hnew.ge
  · rw [hcontent]
    exact congrArg (· ++ A) (flatMap_congr hT)

end

theorem Grown.append (hw : h.Wf) (hc : h.Chain m T S) (hs : h.Settled T) (hj : h.Joins blk)
    (hpos : blk.start < blk.endPos) : ∃ m', h.appendBlock m blk = some (h.link m blk, m') ∧
      LinkedIn h m blk (h.link m blk) ∧ Grown h m T S (h.link m blk) m' (T ++ [h.nextBlock]) []
        (h.bytesAt blk.data blk.start blk.readAvail) ∧ (h.link m blk).Settled (T ++ [h.nextBlock]) := by
  have hl := linkedIn_link hw hj fun w hw => hc.writer_lt hw
  have hbytes : blk.readAvail ≠ 0 := by rw [IOBufferBlock.readAvail]; omega
  have hne : (h.link m blk).bytes h.nextBlock ≠ [] := by
    rw [hl.new]
    refine ne_nil_of_length_pos ?_
    rw [length_bytesAt, IOBufferBlock.readAvail]
    omega
  have hsettled : (h.link m blk).Settled (T ++ [h.nextBlock]) := fun b hb => by
    cases T with
    | nil => cases hb
    | cons x T =>
      rcases mem_append.1 (show b ∈ T ++ [h.nextBlock] from hb) with hb | hb
      · rw [hl.bytes b (hc.lt b (by simp [hb]))]
        exact hs b hb
      · rw [mem_singleton.1 hb]
        exact hne
  obtain ⟨m', happend, hwriter, hreader, hsize, hmark⟩ : ∃ m',
      h.appendBlock m blk = some (h.link m blk, m') ∧ m'.writer = some h.nextBlock ∧
      m'.reader = readersOf m T (T ++ [h.nextBlock]) ∧ m'.sizeIndex = m.sizeIndex ∧
      m'.waterMark = m.waterMark := by
    refine ⟨_, appendBlock_eq hw hc hj, ?_⟩
    by_cases hnone : m.writer = none
    · rw [if_pos hnone, hc.writer_none.1 hnone]
      exact ⟨rfl, rfl, rfl, rfl⟩
    · rw [if_neg hnone, if_pos hbytes]
      refine ⟨rfl, ?_, rfl, rfl⟩
      funext j
      rw [readersOf, if_neg fun hcase => hnone (hc.writer_none.2 hcase.1)]
  refine ⟨m', happend, hl, Grown.of_linkedIn hl hc ⟨?_, fun b hb => ?_, ?_, fun b hb => ?_,
    fun b hb => absurd hb not_mem_nil⟩ ⟨_, rfl⟩ ?_ ?_ hreader hsize hmark, hsettled⟩
  · rw [append_nil]
    exact hl.walk hc
  · rw [append_nil] at hb
    exact hl.lt hc b hb
  · rw [hwriter, getLast?_concat]
  · exact hsettled b (dropLast_subset _ hb)
  · simp
  · rw [content_append, content_singleton, hl.new]

theorem Grown.addEmpty (hw : h.Wf) (hc : h.Chain m T S) (hj : h.Joins blk)
    (hzero : blk.readAvail = 0) : ∃ m' T' S', h.appendBlock m blk = some (h.link m blk, m') ∧
      Grown h m T S (h.link m blk) m' T' S' [] ∧ T' ++ S' = T ++ [h.nextBlock] ∧
      (T ≠ [] → T' = T ∧ m' = m) ∧ T' ≠ [] := by
  have hl := linkedIn_link hw hj fun w hw => hc.writer_lt hw
  have hnil : (h.link m blk).bytes h.nextBlock = [] := by
    rw [hl.new, hzero]
    rfl
  have happend := appendBlock_eq hw hc hj
  by_cases hT : T = []
  · rw [if_pos (hc.writer_none.2 hT)] at happend
    refine ⟨_, [h.nextBlock], [], happend, Grown.of_linkedIn hl hc ⟨?_, fun b hb => ?_, rfl, nofun,
      nofun⟩ (hT ▸ nil_prefix) (by simp) ?_ (by rw [hT]) rfl rfl, by rw [hT]; rfl,
      fun hne => absurd hT hne, cons_ne_nil _ _⟩
    · have := hl.walk hc
      rwa [hT] at this
    · exact hl.lt hc b (by rw [hT]; exact hb)
    · rw [hT, content_singleton, hnil]
      rfl
  · rw [if_neg fun hnone => hT (hc.writer_none.1 hnone), if_neg (not_not.2 hzero)] at happend
    refine ⟨m, T, [h.nextBlock], happend, Grown.of_linkedIn hl hc ⟨?_, hl.lt hc, hc.writer, fun b hb => ?_,
      fun b hb => ?_⟩ prefix_rfl (by simp) (append_nil _).symm (readersOf_self m T).symm
      rfl rfl, rfl, fun _ => ⟨rfl, rfl⟩, hT⟩
    · rw [← head?_append_of_ne_nil T hT]
      exact hl.walk hc
    · have hmem : b ∈ T := mem_of_mem_tail (dropLast_subset _ hb)
      rw [hl.bytes b (hc.lt b (by simp [hmem]))]
      exact hc.inner b hb
    · rw [mem_singleton.1 hb, hnil]

theorem indexToBufferSize_pos (idx : Int) : 0 < indexToBufferSize idx := by
  rw [indexToBufferSize]
  split
  · omega
  · positivity

theorem joins_fresh (hw : h.Wf) (size : Int) (hsize : 0 < size) :
    ({ h with nextData := h.nextData + 1 } : IOHeap).Joins ⟨h.nextData, 0, 0, size, none⟩ where
  data_lt := Nat.lt_succ_self _
  start_le := le_rfl
  end_le := hsize.le
  size_pos := hsize
  next := rfl
  below b hb hdata := absurd hdata (hw.data_lt b hb).ne
  above b hb hdata := absurd hdata (hw.data_lt b hb).ne

/-- What `add_block` does: the block is the first one, or it is behind the writer, which stays. -/
structure Added (h : IOHeap) (m : MIOBuffer) (T : List Nat) (h' : IOHeap) (m' : MIOBuffer)
    (T' S' : List Nat) : Prop where
  settled : h.Settled T → h'.Settled T'
  first : T = [] → ∃ b, m'.writer = some b ∧ 0 < (h'.block b).writeAvail
  stays : ∀ w ∈ m.writer, m' = m ∧ T' = T ∧ h'.next w ≠ none ∧
    (h'.block w).writeAvail = (h.block w).writeAvail

theorem Grown.addBlock (hw : h.Wf) (hc : h.Chain m T S) : ∃ h' m' T' S',
    h.addBlock m = some (h', m') ∧ Grown h m T S h' m' T' S' [] ∧ Added h m T h' m' T' S' := by
  generalize hh0 : ({ h with nextData := h.nextData + 1 } : IOHeap) = h0
  have hw0 : h0.Wf := by
    rw [← hh0]
    exact ⟨fun b hb => Nat.lt_succ_of_lt (hw.data_lt b hb), hw.start_le, hw.end_le, hw.size_pos, hw.room⟩
  have hc0 : h0.Chain m T S := by
    rw [← hh0]
    exact ⟨hc.walk, hc.lt, hc.writer, hc.inner, hc.spare⟩
  have hj := joins_fresh hw _ (indexToBufferSize_pos m.sizeIndex)
  rw [hh0] at hj
  obtain ⟨blk, hblk⟩ : ∃ blk : IOBufferBlock,
      blk = ⟨h.nextData, 0, 0, indexToBufferSize m.sizeIndex, none⟩ := ⟨_, rfl⟩
  rw [← hblk] at hj
  have hl := linkedIn_link hw0 hj fun w hw => hc0.writer_lt hw
  obtain ⟨m', T', S', happend, hg, hcells, hstays, -⟩ := Grown.addEmpty hw0 hc0 hj (by rw [hblk]; rfl)
  have hg' : Grown h m T S (h0.link m blk) m' T' S' [] := by
    rw [← hh0] at hg ⊢
    exact ⟨hg.wf, hg.chain, hg.next, hg.frame, hg.cells, hg.trail, hg.front, hg.content, hg.reader,
      hg.sizeIndex, hg.waterMark⟩
  refine ⟨h0.link m blk, m', T', S', ?_, hg', fun hs b hb => ?_, fun hT => ?_, fun w hwriter => ?_⟩
  · rw [IOHeap.addBlock, hh0, ← hblk]
    exact happend
  · by_cases hT : T = []
    · have hlen := congrArg List.length hcells
      have hpos := length_pos_of_mem hb
      rw [length_append, hT] at hlen
      rw [length_tail] at hpos
      simp at hlen
      omega
    · rw [(hstays hT).1] at hb
      have hmem := mem_of_mem_tail hb
      rw [hl.bytes b (hc0.lt b (by simp [hmem]))]
      have := hs b hb
      rwa [← hh0]
  · have hwriter : m'.writer = some h0.nextBlock := by
      have hone := appendBlock_eq hw0 hc0 hj
      rw [if_pos (hc0.writer_none.2 hT), happend] at hone
      rw [(Prod.mk.inj (some.inj hone)).2]
    refine ⟨h0.nextBlock, hwriter, ?_⟩
    rw [hl.writeAvail, hblk, IOBufferBlock.writeAvail]
    have := indexToBufferSize_pos m.sizeIndex
    dsimp only
    omega
  · have hT : T ≠ [] := ne_nil_of_mem (hc.writer_mem hwriter)
    obtain ⟨hT', hm'⟩ := hstays hT
    refine ⟨hm', hT', ?_, ?_⟩
    · rw [hl.writer w hwriter]
      exact some_ne_none _
    · rw [hl.room w (hc0.writer_lt hwriter), ← hh0]

end IOHeap

end TrafficServer
