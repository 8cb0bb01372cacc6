import TrafficServer.EventSystem.IOBufferGrow

/-!
# Writing to a chain of blocks

The loops of `write`, `fill` and `write` from a reader compose the steps that grow a chain. Between two
rounds the writer may be at a block that is still empty; at the end of each call it is not, unless the
block is the first one (`Settled`).
-/

namespace TrafficServer

open Option List IOBufferBlock
open Linked (Walk)

namespace IOHeap

variable {h h' : IOHeap} {m m' : MIOBuffer} {b w : Nat} {bs T S T' S' : List Nat} {A B : List UInt8}

/-- The call returns, and the content of the chain has grown by `A`. -/
def Appends (h : IOHeap) (m : MIOBuffer) (T S : List Nat) (A : List UInt8)
    (call : Option (IOHeap × MIOBuffer)) : Prop :=
  ∃ h' m' T' S', call = some (h', m') ∧ Grown h m T S h' m' T' S' A ∧ h'.Settled T'

variable {buf : List UInt8}

theorem Appends.nothing (hw : h.Wf) (hc : h.Chain m T S) (hs : h.Settled T) : Appends h m T S [] (some (h, m)) :=
  ⟨h, m, T, S, rfl, .refl hw hc, hs⟩

theorem Appends.after {call : Option (IOHeap × MIOBuffer)} (ha : Appends h' m' T' S' B call)
    (hg : Grown h m T S h' m' T' S' A) : Appends h m T S (A ++ B) call := by
  obtain ⟨h1, m1, T1, S1, hcall, hg1, hs⟩ := ha
  exact ⟨h1, m1, T1, S1, hcall, hg.trans hg1, hs⟩

def Copies (h : IOHeap) (m : MIOBuffer) (T S : List Nat) (A : List UInt8) (n : Int)
    (call : Option (IOHeap × MIOBuffer × Int)) : Prop :=
  Appends h m T S A (call.map fun r => (r.1, r.2.1)) ∧ call.map (·.2.2) = some n

/-! ### `write` -/

theorem Chain.next_writer (hc : h.Chain m T S) (hwriter : w ∈ m.writer) : h.next w = S.head? := by
  obtain ⟨X, rfl⟩ : ∃ X, T = X ++ [w] := ⟨_, hc.eq_concat hwriter⟩
  have hwalk := hc.walk
  rw [append_assoc] at hwalk
  exact hwalk.next_eq

theorem Chain.settled_of_writer (hc : h.Chain m T S) (hwriter : w ∈ m.writer)
    (hne : h.bytes w ≠ []) : h.Settled T := by
  intro b hb
  have hT := hc.eq_concat hwriter
  by_cases hdrop : T.dropLast = []
  · rw [hT, hdrop] at hb
    cases hb
  · rw [hT, tail_append_of_ne_nil hdrop, mem_append, mem_singleton] at hb
    rcases hb with hb | rfl
    · refine hc.inner b ?_
      rwa [← tail_dropLast]
    · exact hne

theorem bytesAt_store (data : Nat) (p : Int) (buf : List UInt8) :
    (h.store data p buf).bytesAt data p buf.length = buf := by
  refine ext_getElem (by simp) fun i hi hi' => ?_
  have hin : data = data ∧ p ≤ p + i ∧ p + i < p + buf.length := ⟨rfl, by omega, by omega⟩
  have hsub : (p + i - p).toNat = i := by omega
  simp only [bytesAt, getElem_map, getElem_range]
  change (if data = data ∧ p ≤ p + i ∧ p + i < p + buf.length then _ else _) = _
  rw [if_pos hin, hsub, getD_eq_getElem _ _ hi']

theorem Wf.bytes_ne_nil (hw : h.Wf) (hb : b < h.nextBlock) (hfull : (h.block b).writeAvail ≤ 0) : h.bytes b ≠ [] := by
  have hsize := hw.size_pos b hb
  have hlen := length_bytes (hw.start_le b hb)
  rw [IOBufferBlock.readAvail] at hlen
  rw [IOBufferBlock.writeAvail] at hfull
  exact ne_nil_of_length_pos (by omega)

theorem Grown.copyToWriter (hw : h.Wf) (hc : h.Chain m T S) (hwriter : w ∈ m.writer)
    (hbuf : buf ≠ []) : ∃ h' A rest, h.copyToWriter w buf = (h', rest) ∧
      Grown h m T S h' m T S A ∧ buf = A ++ rest ∧ h'.Settled T ∧
      (rest ≠ [] → (h'.block w).writeAvail = 0) ∧ (0 < (h.block w).writeAvail → A ≠ []) := by
  have hwb := hc.writer_lt hwriter
  have hlast : T.getLast? = some w := hc.writer ▸ hwriter
  have hend := hw.end_le w hwb
  have hpos := length_pos_iff.2 hbuf
  generalize hf : min (h.block w).writeAvail (buf.length : Int) = f
  rw [IOHeap.copyToWriter, hf]
  rw [writeAvail] at hf
  split_ifs with hzero
  · have hlen : (buf.take f.toNat).length = f.toNat := by rw [length_take]; omega
    have hg1 : Grown h m T S (h.store (h.block w).data (h.block w).endPos (buf.take f.toNat)) m T S [] :=
      Grown.store hw hc hwb le_rfl (by omega)
    have hg2 := Grown.fillBlock hg1.wf hg1.chain hlast (f := f) hzero.le
      (by change f ≤ (h.block w).bufEnd - (h.block w).endPos; omega)
    have hbytes : (h.store (h.block w).data (h.block w).endPos (buf.take f.toNat)).bytesAt
        (h.block w).data (h.block w).endPos f = buf.take f.toNat := by
      have := bytesAt_store (h := h) (h.block w).data (h.block w).endPos (buf.take f.toNat)
      rwa [hlen, Int.toNat_of_nonneg hzero.le] at this
    have hA : buf.take f.toNat ≠ [] := ne_nil_of_length_pos (by omega)
    have hg := hg1.trans hg2
    change Grown h m T S _ m T S ((h.store _ _ _).bytesAt (h.block w).data (h.block w).endPos f) at hg
    rw [hbytes] at hg
    refine ⟨_, buf.take f.toNat, buf.drop f.toNat, rfl, hg, (take_append_drop ..).symm, ?_, ?_, fun _ => hA⟩
    · refine hg.chain.settled_of_writer hwriter ?_
      rw [bytes_fillBlock (hg1.wf.start_le w hwb) hzero.le]
      refine append_ne_nil_of_right_ne_nil _ ?_
      change (h.store _ _ _).bytesAt (h.block w).data (h.block w).endPos f ≠ []
      rw [hbytes]
      exact hA
    · intro hrest
      have hless : f.toNat < buf.length := by simpa using hrest
      rw [fillBlock_block, writeAvail, if_pos rfl]
      change (h.block w).bufEnd - ((h.block w).endPos + f) = 0
      omega
  · have hfull : (h.block w).writeAvail ≤ 0 := by
      rw [writeAvail]
      omega
    refine ⟨h, [], buf, rfl, .refl hw hc, rfl, hc.settled_of_writer hwriter (hw.bytes_ne_nil hwb hfull),
      fun _ => ?_, fun hroom => absurd hroom hfull.not_gt⟩
    rw [writeAvail] at hfull ⊢
    omega

def rounds (h : IOHeap) (m : MIOBuffer) (buf : List UInt8) : Nat :=
  match m.writer with
  | none => 2 * buf.length
  | some w =>
    if 0 < (h.block w).writeAvail then 2 * buf.length - 1
    else if h.next w = none then 2 * buf.length + 1 else 2 * buf.length

variable {fuel : Nat}

theorem Grown.writeLoop (hw : h.Wf) (hc : h.Chain m T S)
    (hs : buf = [] → h.Settled T) (hfuel : rounds h m buf ≤ fuel) : Appends h m T S buf (writeLoop fuel h m buf) := by
  induction fuel generalizing h m T S buf with
  | zero =>
    cases buf with
    | nil => exact .nothing hw hc (hs rfl)
    | cons x xs =>
      rw [rounds] at hfuel
      simp only [length_cons] at hfuel
      split at hfuel
      · omega
      · split_ifs at hfuel <;> omega
  | succ fuel ih =>
    cases buf with
    | nil => exact .nothing hw hc (hs rfl)
    | cons x xs =>
      rw [rounds] at hfuel
      rw [writeLoop]
      cases hm : m.writer with
      | none =>
        rw [hm] at hfuel
        dsimp only at hfuel ⊢
        obtain ⟨h1, m1, T1, S1, hadd, hg1, hadded⟩ := Grown.addBlock hw hc
        obtain ⟨b, hwriter, hroom⟩ := hadded.first (hc.writer_none.1 hm)
        have hrounds : rounds h1 m1 (x :: xs) ≤ fuel := by
          rw [rounds, hwriter]
          dsimp only
          rw [if_pos hroom]
          omega
        rw [hadd]
        exact (ih hg1.wf hg1.chain (by intro hnil; cases hnil) hrounds).after hg1
      | some w =>
        rw [hm] at hfuel
        dsimp only at hfuel ⊢
        obtain ⟨h1, A, rest, hcopy, hg1, hsplit, hs1, hfull, hA⟩ := Grown.copyToWriter hw hc hm (cons_ne_nil x xs)
        have hlen := congrArg List.length hsplit
        rw [length_append] at hlen
        rw [hcopy, hsplit]
        cases rest with
        | nil => exact ⟨h1, m, T, S, rfl, by rwa [append_nil], hs1⟩
        | cons y ys =>
          have hzero := hfull (cons_ne_nil y ys)
          -- a round that copies has one byte less to go, and one that does not has found no room
          have hround : 2 * (y :: ys).length ≤ fuel + if h.next w = none then 0 else 1 := by
            split_ifs at hfuel ⊢ with hnext hroom hroom
            · have := length_pos_iff.2 (hA hroom)
              omega
            · omega
            · have := length_pos_iff.2 (hA hroom)
              omega
            · omega
          have hsame : h1.next w = h.next w := by rw [hc.next_writer hm, hg1.chain.next_writer hm]
          dsimp only
          cases hnext : h1.next w with
          | none =>
            rw [← hsame, if_pos hnext] at hround
            obtain ⟨h2, m₂, T₂, S₂, hadd, hg2, hadded⟩ := Grown.addBlock hg1.wf hg1.chain
            obtain ⟨rfl, rfl, hsome, hroom⟩ := hadded.stays w hm
            have hrounds : rounds h2 m₂ (y :: ys) ≤ fuel := by
              rw [rounds, hm]
              dsimp only
              rwa [if_neg (by omega), if_neg hsome]
            rw [hadd]
            exact ((ih hg2.wf hg2.chain (by intro hnil; cases hnil) hrounds).after hg2).after hg1
          | some n =>
            rw [← hsame, hnext, if_neg (some_ne_none n)] at hround
            obtain ⟨S', rfl⟩ := head?_eq_some_iff.1 ((hg1.chain.next_writer hm).symm.trans hnext)
            have hT : T ≠ [] := ne_nil_of_mem (hc.writer_mem hm)
            have hg2 := Grown.move hg1.wf hg1.chain hs1 hT
            have hroom : 0 < (h1.block n).writeAvail := lt_of_not_ge fun hfull =>
              hg1.wf.bytes_ne_nil (hg1.chain.lt n (by simp)) hfull (hg1.chain.spare n (by simp))
            have hrounds : rounds h1 { m with writer := some n } (y :: ys) ≤ fuel := by
              rw [rounds]
              dsimp only
              rw [if_pos hroom]
              omega
            exact ((ih hg2.wf hg2.chain (by intro hnil; cases hnil) hrounds).after hg2).after hg1

theorem Grown.write (hw : h.Wf) (hc : h.Chain m T S) (hs : h.Settled T) (buf : List UInt8) :
    Appends h m T S buf (h.write m buf) := by
  refine Grown.writeLoop hw hc (fun _ => hs) ?_
  rw [rounds]
  split
  · omega
  · split_ifs <;> omega

/-! ### `fill` -/

def space (h : IOHeap) (bs : List Nat) : List UInt8 :=
  bs.flatMap fun b => h.bytesAt (h.block b).data (h.block b).endPos (h.block b).writeAvail

theorem space_cons : h.space (b :: bs) =
    h.bytesAt (h.block b).data (h.block b).endPos (h.block b).writeAvail ++ h.space bs :=
  flatMap_cons

variable {n : Int}

theorem take_bytesAt (data : Nat) (p : Int) {k : Int} (hk : k ≤ n) :
    (h.bytesAt data p n).take k.toNat = h.bytesAt data p k := by
  have hmin : min k.toNat n.toNat = k.toNat := by omega
  rw [bytesAt, bytesAt, ← map_take, take_range, hmin]

theorem Grown.fillWriter (hw : h.Wf) (hc : h.Chain m T S) (hwriter : w ∈ m.writer) {f : Int}
    (hf : 0 ≤ f) (hroom : f ≤ (h.block w).writeAvail) (hs : f = 0 → h.Settled T) :
    Grown h m T S (h.fillBlock w f) m T S (h.bytesAt (h.block w).data (h.block w).endPos f) ∧
      (h.fillBlock w f).Settled T := by
  have hg := Grown.fillBlock hw hc (hc.writer ▸ hwriter) hf hroom
  have hbytes := bytes_fillBlock (hw.start_le w (hc.writer_lt hwriter)) hf
  refine ⟨hg, ?_⟩
  by_cases hzero : f = 0
  · intro b hb
    by_cases heq : b = w
    · rw [heq, hbytes]
      exact append_ne_nil_of_left_ne_nil (hs hzero w (heq ▸ hb)) _
    · rw [(bytes_fillBlock_ne heq).2]
      exact hs hzero b hb
  · refine hg.chain.settled_of_writer hwriter ?_
    rw [hbytes]
    refine append_ne_nil_of_right_ne_nil _ (ne_nil_of_length_pos ?_)
    rw [length_bytesAt]
    omega

variable {len : Int}

section
variable (hw : h.Wf) (hc : h.Chain m T S) (hwriter : w ∈ m.writer) (hlen : 0 ≤ len)

include hw hc hwriter hlen

theorem Grown.fillLast (hle : len ≤ (h.block w).writeAvail) (hs : len = 0 → h.Settled T) :
    Grown h m T S (h.fillBlock w len) { m with writer := some w } T S ((h.space (w :: S)).take len.toNat) ∧
      (h.fillBlock w len).Settled T := by
  have hself : ({ m with writer := some w } : MIOBuffer) = m := by rw [← hwriter]
  rw [hself, space_cons, take_append_of_le_length (by rw [length_bytesAt]; omega), take_bytesAt _ _ hle]
  exact Grown.fillWriter hw hc hwriter hlen hle hs

theorem Grown.fillLoop
    (hroom : len ≤ ((w :: S).map fun b => (h.block b).writeAvail).sum) (hs : len = 0 → h.Settled T) :
    ∃ h' w' T' S', fillLoop h (w :: S) len = some (h', w') ∧
      Grown h m T S h' { m with writer := some w' } T' S' ((h.space (w :: S)).take len.toNat) ∧ h'.Settled T' := by
  induction S generalizing h m T w len with
  | nil =>
    have hle : len ≤ (h.block w).writeAvail := by simpa using hroom
    refine ⟨h.fillBlock w len, w, T, [], ?_, Grown.fillLast hw hc hwriter hlen hle hs⟩
    rw [fillLoop, if_neg (by omega)]
  | cons n S ih =>
    rw [map_cons, sum_cons] at hroom
    have hend := hw.end_le w (hc.writer_lt hwriter)
    rw [fillLoop]
    split_ifs
    · have hf : 0 ≤ (h.block w).writeAvail := by rw [writeAvail]; omega
      -- the block is full, so it has bytes
      have hg1 := Grown.fillBlock hw hc (hc.writer ▸ hwriter) hf le_rfl
      have hs1 : (h.fillBlock w (h.block w).writeAvail).Settled T := by
        refine hg1.chain.settled_of_writer hwriter (hg1.wf.bytes_ne_nil (hg1.chain.writer_lt hwriter) ?_)
        rw [fillBlock_block, if_pos rfl, writeAvail, writeAvail]
        dsimp only
        omega
      have hne : T ≠ [] := ne_nil_of_mem (hc.writer_mem hwriter)
      have hg2 := Grown.move hg1.wf hg1.chain hs1 hne
      have hblocks : ∀ b ∈ n :: S, (h.fillBlock w (h.block w).writeAvail).block b = h.block b := by
        intro b hb
        refine (bytes_fillBlock_ne fun heq => ?_).1
        exact hc.writer_notMem hwriter (mem_append_right _ (heq ▸ hb))
      have hsum : ((n :: S).map fun b =>
          ((h.fillBlock w (h.block w).writeAvail).block b).writeAvail) =
            (n :: S).map fun b => (h.block b).writeAvail :=
        map_congr_left fun b hb => by rw [hblocks b hb]
      have hspace : (h.fillBlock w (h.block w).writeAvail).space (n :: S) = h.space (n :: S) :=
        flatMap_congr fun b hb => by rw [hblocks b hb]; rfl
      have hpos : 0 < len - (h.block w).writeAvail := by omega
      obtain ⟨h', w', T', S', hloop, hg3, hs3⟩ := ih hg2.wf hg2.chain rfl hpos.le
        (by rw [hsum]; omega) (fun hzero => by omega)
      refine ⟨h', w', T', S', hloop, ?_, hs3⟩
      have hg := hg1.trans (hg2.trans hg3)
      rw [hspace, nil_append] at hg
      have hle : (h.bytesAt (h.block w).data (h.block w).endPos (h.block w).writeAvail).length ≤
          len.toNat := by rw [length_bytesAt]; omega
      rw [space_cons, take_append, take_of_length_le hle, length_bytesAt,
        show len.toNat - (h.block w).writeAvail.toNat = (len - (h.block w).writeAvail).toNat by omega]
      exact hg
    · exact ⟨_, w, T, n :: S, rfl, Grown.fillLast hw hc hwriter hlen (by omega) hs⟩

end

theorem Chain.blocksFrom_writer (hc : h.Chain m T S) (hwriter : w ∈ m.writer) :
    h.blocksFrom m.writer = some (w :: S) := by
  rw [show m.writer = some w from hwriter, hc.blocksFrom (hc.eq_concat hwriter)]
  rfl

theorem Chain.blocksFrom_isSome (hc : h.Chain m T S) : ∃ bs, h.blocksFrom m.writer = some bs := by
  cases hm : m.writer with
  | none => exact ⟨[], blocksFrom_none⟩
  | some w => exact ⟨w :: S, hm ▸ hc.blocksFrom_writer hm⟩

section
variable (hw : h.Wf) (hc : h.Chain m T S)

include hw hc

theorem Grown.fill (hs : h.Settled T) (hwriter : w ∈ m.writer)
    {avail : Int} (hlen : 0 ≤ len) (havail : h.currentWriteAvail m = some avail) (hle : len ≤ avail) :
    Appends h m T S ((h.space (w :: S)).take len.toNat) (h.fill m len) := by
  have hbs := hc.blocksFrom_writer hwriter
  rw [currentWriteAvail, hbs] at havail
  have hsum := some.inj havail
  obtain ⟨h', w', T', S', hloop, hg, hs'⟩ := Grown.fillLoop hw hc hwriter hlen (hsum ▸ hle) fun _ => hs
  refine ⟨h', { m with writer := some w' }, T', S', ?_, hg, hs'⟩
  rw [IOHeap.fill, hbs, bind_eq_bind, bind_some, hloop]
  rfl

/-! ### `check_add_block` -/

theorem Grown.addBlock_settled (hs : h.Settled T) : Appends h m T S [] (h.addBlock m) := by
  obtain ⟨h', m', T', S', hadd, hg, hadded⟩ := Grown.addBlock hw hc
  exact ⟨h', m', T', S', hadd, hg, hadded.settled hs⟩

theorem Chain.maxReadAvail
    (hr : ∀ j, (m.reader j).allocated → ∃ p, h.Stands T (m.reader j) p) : ∃ s, h.maxReadAvail m = some s := by
  rw [IOHeap.maxReadAvail]
  split
  · split <;> exact ⟨_, rfl⟩
  · have hall : ∀ rs : List IOBufferReader, (∀ r ∈ rs, ∃ p, h.Stands T r p) →
        ∃ avails, rs.mapM h.readAvail = some avails := fun rs hrs => by
      induction rs with
      | nil => exact ⟨[], rfl⟩
      | cons r rs ih =>
        obtain ⟨p, hp⟩ := hrs r (by simp)
        obtain ⟨avails, havails⟩ := ih fun r hr => hrs r (by simp [hr])
        exact ⟨_, by rw [mapM_cons, hc.readAvail_eq hw hp, havails]; rfl⟩
    obtain ⟨avails, havails⟩ := hall (allocatedReaders m) fun r hr' => by
      obtain ⟨hmem, halloc⟩ := mem_filter.1 hr'
      obtain ⟨j, -, rfl⟩ := mem_map.1 hmem
      exact hr j halloc
    exact ⟨avails.foldl max 0, by rw [havails]; rfl⟩

theorem Grown.checkAddBlock (hs : h.Settled T) (hr : ∀ j, (m.reader j).allocated → ∃ p, h.Stands T (m.reader j) p) :
    Appends h m T S [] (h.checkAddBlock m) := by
  obtain ⟨s, hsome⟩ := hc.maxReadAvail hw hr
  obtain ⟨bs, hbs⟩ := hc.blocksFrom_isSome
  rw [IOHeap.checkAddBlock, hsome, bind_eq_bind, bind_some, currentWriteAvail, hbs]
  simp only [bind_eq_bind, bind_some]
  split
  · exact Grown.addBlock_settled hw hc hs
  · exact .nothing hw hc hs

end

/-! ### `write` from a reader -/

/-- What is appended when a reader of the buffer itself is the source: the end that the loop runs
to moves on with what it appends. -/
def cycle : Nat → List UInt8 → List UInt8
  | 0, _ => []
  | _ + 1, [] => []
  | n + 1, x :: xs => x :: cycle n (xs ++ [x])

theorem cycle_nil (n : Nat) : cycle n [] = [] := by cases n <;> rfl

theorem cycle_append {n : Nat} (A B : List UInt8) (hn : A.length ≤ n) :
    cycle n (A ++ B) = A ++ cycle (n - A.length) (B ++ A) := by
  induction A generalizing n B with
  | nil => simp
  | cons a A ih =>
    cases n with
    | zero => simp at hn
    | succ n =>
      have hle : A.length ≤ n := Nat.le_of_succ_le_succ hn
      rw [cons_append, cycle, append_assoc, ih _ hle, append_assoc, singleton_append,
        length_cons, Nat.add_sub_add_right]
      rfl

variable {off : Int}

theorem joins_clonePart (hw : h.Wf) (hb : b < h.nextBlock) (hn : 0 < n)
    (hle : off + n ≤ (h.block b).readAvail) : h.Joins ((h.block b).clonePart off n) := by
  rw [IOBufferBlock.readAvail] at hle
  refine ⟨hw.data_lt b hb, by simp [IOBufferBlock.clonePart]; omega, le_rfl,
    by simp [IOBufferBlock.clonePart]; omega, rfl, fun a ha hdata hroom => ⟨?_, rfl⟩,
    fun _ _ _ hroom => absurd hroom (lt_irrefl _)⟩
  simp only [clonePart] at hdata ⊢
  by_cases heq : a = b
  · rw [heq]
    omega
  · have := (hw.room b hb a ha (Ne.symm heq) hdata.symm hroom).1
    omega

theorem Grown.appendClone (hw : h.Wf) (hc : h.Chain m T S) (hs : h.Settled T) (hb : b < h.nextBlock)
    (hoff : 0 ≤ off) (hn : 0 < n) (hle : off + n ≤ (h.block b).readAvail) :
    ∃ h' m', h.appendBlock m ((h.block b).clonePart off n) = some (h', m') ∧
      LinkedIn h m ((h.block b).clonePart off n) h' ∧
      Grown h m T S h' m' (T ++ [h.nextBlock]) [] (((h.bytes b).drop off.toNat).take n.toNat) ∧
      h'.bytes h.nextBlock = ((h.bytes b).drop off.toNat).take n.toNat ∧ h'.Settled (T ++ [h.nextBlock]) := by
  have hj := joins_clonePart hw hb hn hle
  obtain ⟨m', happend, hl, hg, hs'⟩ := Grown.append hw hc hs hj (by simp [clonePart]; omega)
  have hbytes : h.bytesAt ((h.block b).clonePart off n).data ((h.block b).clonePart off n).start
      ((h.block b).clonePart off n).readAvail = ((h.bytes b).drop off.toNat).take n.toNat := by
    have hread : ((h.block b).clonePart off n).readAvail = n := by
      simp [IOBufferBlock.clonePart, IOBufferBlock.readAvail]
    rw [hread]
    exact bytesAt_part hoff hle
  refine ⟨_, m', happend, hl, ?_, ?_, hs'⟩
  · rw [← hbytes]
    exact hg
  · rw [hl.new, hbytes]

theorem scanBytes_bounds {max : Int} (hlen : 0 < len) (hmax : 0 < max) :
    0 < scanBytes len max ∧ scanBytes len max ≤ max ∧ scanBytes len max ≤ len ∧
      (scanBytes len max = max ∨ scanBytes len max = len) := by
  rw [scanBytes]
  split <;> omega

theorem writeReaderLoop_empty {a : Option Nat} {L : List Nat} (hwalk : Walk h.next a L none)
    (hord : h.Ordered L) (hbytes : ∀ b ∈ L, h.bytes b = []) (hfuel : L.length ≤ fuel)
    (hoff : 0 ≤ off) : writeReaderLoop fuel h m a len off = some (h, m, len) := by
  induction L generalizing a fuel off with
  | nil =>
    rw [show a = none from hwalk]
    cases fuel <;> rfl
  | cons b L ih =>
    obtain ⟨rfl, hwalk⟩ := hwalk
    cases fuel with
    | zero => simp at hfuel
    | succ fuel =>
      rw [writeReaderLoop]
      split
      · rfl
      · have hsize := length_bytes (hord b (by simp))
        rw [hbytes b (by simp), length_nil] at hsize
        have hmax : (h.block b).readAvail - off ≤ 0 := by omega
        rw [if_pos hmax]
        exact ih hwalk (fun b hb => hord b (by simp [hb])) (fun b hb => hbytes b (by simp [hb]))
          (Nat.le_of_succ_le_succ hfuel) (by omega)

theorem Grown.writeReaderLoop {a : Option Nat} {L : List Nat} (hw : h.Wf) (hc : h.Chain m T S)
    (hs : h.Settled T) (hwalk : Walk h.next a L none) (hlt : ∀ b ∈ L, b < h.nextBlock)
    (hdisj : ∀ b ∈ L, b ∉ T) (hfuel : L.length ≤ fuel) (hlen : 0 ≤ len) (hoff : 0 ≤ off)
    (hA : A = limit len ((h.content L).drop off.toNat)) :
    Copies h m T S A (len - A.length) (writeReaderLoop fuel h m a len off) := by
  induction L generalizing a fuel h m T S len off A with
  | nil =>
    obtain rfl : A = [] := by simpa [limit] using hA
    rw [show a = none from hwalk, length_nil, Nat.cast_zero, sub_zero]
    cases fuel <;> exact ⟨.nothing hw hc hs, rfl⟩
  | cons b L ih =>
    obtain ⟨rfl, hwalk⟩ := hwalk
    have hb := hlt b (by simp)
    have hord := hw.start_le b hb
    have hsize := length_bytes hord
    cases fuel with
    | zero => simp at hfuel
    | succ fuel =>
      have hfuel' : L.length ≤ fuel := Nat.le_of_succ_le_succ hfuel
      rw [writeReaderLoop]
      by_cases hzero : len ≤ 0
      · obtain rfl : len = 0 := by omega
        obtain rfl : A = [] := by simpa [limit] using hA
        rw [if_pos hzero]
        exact ⟨.nothing hw hc hs, rfl⟩
      rw [if_neg hzero]
      dsimp only
      rw [drop_content_cons hord hoff] at hA
      split_ifs
      · have hle : (h.bytes b).length ≤ off.toNat := by omega
        have hoff' : 0 ≤ off - (h.block b).readAvail := by omega
        rw [drop_of_length_le hle, nil_append] at hA
        rw [neg_sub]
        exact ih hw hc hs hwalk (fun b hb => hlt b (by simp [hb])) (fun b hb => hdisj b (by simp [hb]))
          hfuel' hlen hoff' hA
      · obtain ⟨n, hn⟩ : ∃ n, n = scanBytes len ((h.block b).readAvail - off) := ⟨_, rfl⟩
        obtain ⟨hpos, hle, hle', -⟩ := scanBytes_bounds (show 0 < len by omega)
          (show 0 < (h.block b).readAvail - off by omega)
        rw [← hn] at hpos hle hle' ⊢
        obtain ⟨h1, m1, happend, hl, hg1, -, hs1⟩ := Grown.appendClone hw hc hs hb hoff hpos (by omega)
        -- the blocks of the source are none of the chain, so they stay as they are
        have hold : ∀ b' ∈ b :: L, h1.block b' = h.block b' ∧ h1.bytes b' = h.bytes b' := fun b' hb' =>
          ⟨hl.old b' (hlt b' hb') fun hin => hdisj b' hb' (hc.writer_mem hin), hl.bytes b' (hlt b' hb')⟩
        have hnext : h1.next b = h.next b := by rw [IOHeap.next, (hold b (by simp)).1]; rfl
        have hwalk1 : Walk h1.next (h1.next b) L none := by
          rw [hnext]
          refine hwalk.congr fun b' hb' => ?_
          rw [IOHeap.next, (hold b' (by simp [hb'])).1]
          rfl
        have hcontent : h1.content L = h.content L := flatMap_congr fun b' hb' => (hold b' (by simp [hb'])).2
        have hleft : 0 ≤ len - n := by omega
        have hrest := ih hg1.wf hg1.chain hs1 hwalk1 (fun b' hb' => (hlt b' (by simp [hb'])).trans_le hg1.next)
          (fun b' hb' hin => by
            rcases mem_append.1 hin with hin | hin
            · exact hdisj b' (by simp [hb']) hin
            · exact absurd (mem_singleton.1 hin) (hlt b' (by simp [hb'])).ne)
          hfuel' hleft le_rfl rfl
        have hdrop : ((h.bytes b).drop off.toNat).length = (h.block b).readAvail - off := by
          rw [length_drop]
          omega
        rw [show (off - (h.block b).readAvail).toNat = 0 by omega, drop_zero, ← hcontent,
          ← limit_append (hn.trans (by rw [hdrop]))] at hA
        have hlength : len - n - (limit (len - n) (h1.content L)).length = len - A.length := by
          rw [hA, length_append, length_take]
          omega
        rw [happend, ← hlength, hA]
        exact ⟨hrest.1.after hg1, hrest.2⟩

theorem Grown.writeReaderLoop_self {pre post : List Nat} (hw : h.Wf)
    (hc : h.Chain m (pre ++ b :: post) S) (hs : h.Settled (pre ++ b :: post)) (hlen : 0 ≤ len)
    (hoff : 0 ≤ off) (hfuel : (b :: post ++ S).length + len.toNat ≤ fuel)
    (hA : A = cycle len.toNat ((h.content (b :: post)).drop off.toNat)) :
    Copies h m (pre ++ b :: post) S A (len - A.length) (IOHeap.writeReaderLoop fuel h m (some b) len off) := by
  induction fuel generalizing h m b pre post S len off A with
  | zero => simp at hfuel
  | succ fuel ih =>
    have hb := hc.lt b (by simp)
    have hord := hw.start_le b hb
    have hsize := length_bytes hord
    have hnext : h.next b = (post ++ S).head? := by
      have hwalk := hc.walk
      rw [append_assoc] at hwalk
      exact hwalk.next_eq
    rw [IOHeap.writeReaderLoop]
    by_cases hzero : len ≤ 0
    · obtain rfl : len = 0 := by omega
      obtain rfl : A = [] := hA
      rw [if_pos hzero]
      exact ⟨.nothing hw hc hs, rfl⟩
    rw [if_neg hzero]
    dsimp only
    rw [drop_content_cons hord hoff] at hA
    split_ifs
    · have hle : (h.bytes b).length ≤ off.toNat := by omega
      have hoff' : 0 ≤ off - (h.block b).readAvail := by omega
      rw [drop_of_length_le hle, nil_append] at hA
      rw [neg_sub, hnext]
      cases post with
      | nil =>
        have hwalk := hc.walk
        rw [append_assoc, Linked.walk_append] at hwalk
        obtain ⟨a, -, -, hwalk⟩ := hwalk
        rw [singleton_append, length_cons] at hfuel
        change Walk h.next (h.next b) S none at hwalk
        rw [hnext] at hwalk
        rw [content_nil, drop_nil, cycle_nil] at hA
        rw [writeReaderLoop_empty hwalk (hc.ordered hw (by simp)) hc.spare (by omega) hoff', hA,
          length_nil, Nat.cast_zero, sub_zero]
        exact ⟨.nothing hw hc hs, rfl⟩
      | cons b' post =>
        have hT : pre ++ b :: b' :: post = (pre ++ [b]) ++ b' :: post := by simp
        rw [hT] at hc hs ⊢
        refine ih hw hc hs hlen hoff' ?_ hA
        simp only [length_cons, cons_append] at hfuel ⊢
        omega
    · obtain ⟨n, hn⟩ : ∃ n, n = scanBytes len ((h.block b).readAvail - off) := ⟨_, rfl⟩
      obtain ⟨hpos, hle, hle', hcase⟩ := scanBytes_bounds (show 0 < len by omega)
        (show 0 < (h.block b).readAvail - off by omega)
      rw [← hn] at hpos hle hle' hcase ⊢
      obtain ⟨h1, m1, happend, hl, hg1, hnew, hs1⟩ := Grown.appendClone hw hc hs hb hoff hpos (by omega)
      generalize hP : (h.bytes b).drop off.toNat = P
      have hPlen : (P.length : Int) = (h.block b).readAvail - off := by
        rw [← hP, length_drop]
        omega
      rw [hP] at hg1 hnew hA
      have hclen : (P.take n.toNat).length = n.toNat := by rw [length_take]; omega
      -- the loop goes on behind the block, with the new one at the end
      obtain ⟨y, rest, hy⟩ : ∃ y rest, post ++ [h.nextBlock] = y :: rest := by
        cases post with
        | nil => exact ⟨_, _, rfl⟩
        | cons y post => exact ⟨_, _, rfl⟩
      have hT : pre ++ b :: post ++ [h.nextBlock] = (pre ++ [b]) ++ y :: rest := by
        rw [append_assoc, cons_append, hy, append_assoc]
        rfl
      have hcontent : h1.content (y :: rest) = h.content post ++ P.take n.toNat := by
        rw [← hy, content_append, content_singleton, hnew]
        refine congrArg (· ++ _) (flatMap_congr fun b' hb' => hl.bytes b' (hc.lt b' ?_))
        simp [hb']
      have hnext1 : h1.next b = some y := by
        have hwalk := hg1.chain.walk
        rw [hT, append_nil, append_assoc] at hwalk
        exact hwalk.next_eq
      have hfuel1 : (y :: rest ++ []).length + (len - n).toNat ≤ fuel := by
        have hlength := congrArg List.length hy
        simp only [length_append, length_cons, length_nil, append_nil, cons_append] at hfuel hlength ⊢
        omega
      have hg1' := hg1
      have hs1' := hs1
      rw [hT] at hg1' hs1'
      have hleft : 0 ≤ len - n := by omega
      have hrest := ih hg1'.wf hg1'.chain hs1' hleft le_rfl hfuel1 rfl
      have hA' : A = P.take n.toNat ++ cycle (len - n).toNat (h1.content (y :: rest)) := by
        have hsplit : P = P.take n.toNat ++ P.drop n.toNat := (take_append_drop ..).symm
        rw [hA, show (off - (h.block b).readAvail).toNat = 0 by omega, drop_zero]
        nth_rewrite 1 [hsplit]
        rw [append_assoc, cycle_append _ _ (by omega), hclen, hcontent,
          show (len - n).toNat = len.toNat - n.toNat by omega]
        rcases hcase with hfull | hlast
        · rw [drop_of_length_le (show P.length ≤ n.toNat by omega), nil_append]
        · rw [show len.toNat - n.toNat = 0 by omega]
          rfl
      have hlength : len - n - (cycle (len - n).toNat (h1.content (y :: rest))).length = len - A.length := by
        rw [hA', length_append, hclen]
        omega
      rw [happend, ← hlength, hA']
      change Copies _ _ _ _ _ _ (IOHeap.writeReaderLoop fuel h1 m1 (h1.next b) (len - n) 0)
      rw [hnext1]
      exact ⟨hrest.1.after hg1', hrest.2⟩

section Reader
variable {m₂ : MIOBuffer} {T₂ S₂ : List Nat} {r : IOBufferReader} {p : Nat}

theorem writeReader_nonpos {len : Int} (hlen : len ≤ 0) (off : Int) : h.writeReader m r len off = some (h, m, 0) := by
  rw [writeReader]
  cases r.block with
  | none => simp [writeReaderLoop]
  | some b => simp [writeReaderLoop, hlen]

theorem copies_writeReader {len off : Int} (hloop : Copies h m T S A (len - A.length)
      (writeReaderLoop (h.nextBlock + len.toNat + 1) h m r.block len (off + r.startOffset))) :
    Copies h m T S A A.length (h.writeReader m r len off) := by
  obtain ⟨ha, hn⟩ := hloop
  obtain ⟨r', hcall, hlen⟩ := map_eq_some_iff.1 hn
  rw [hcall] at ha
  rw [writeReader, hcall]
  refine ⟨ha, congrArg some ?_⟩
  rw [hlen, sub_sub_cancel]

theorem Grown.writeReader (hw : h.Wf) (hc : h.Chain m T S) (hs : h.Settled T)
    (hc2 : h.Chain m₂ T₂ S₂) (hdisj : ∀ b ∈ T₂ ++ S₂, b ∉ T ++ S) (hr : h.Stands T₂ r p) (len : Int)
    (off : Nat) (hA : A = (((h.content T₂).drop p).drop off).take len.toNat) :
    Copies h m T S A A.length (h.writeReader m r len off) := by
  by_cases hlen : len ≤ 0
  · rw [Int.toNat_eq_zero.2 hlen, take_zero] at hA
    rw [writeReader_nonpos hlen off, hA]
    exact ⟨.nothing hw hc hs, rfl⟩
  · obtain ⟨bs, hwalk, hsub, hdrop, -⟩ := hc2.walkUnread hr
    have hlt : ∀ b ∈ bs, b < h.nextBlock := fun b hb => hc2.lt b (hsub hb)
    have hout : ∀ b ∈ bs, b ∉ T := fun b hb hT => hdisj b (hsub hb) (mem_append_left _ hT)
    have hfuel : bs.length ≤ h.nextBlock + len.toNat + 1 := by
      have := length_le_of_walk hwalk hlt
      omega
    have hoff := hr.2.2.1
    have hnonneg : 0 ≤ (off : Int) + r.startOffset := by omega
    have hnat : ((off : Int) + r.startOffset).toNat = r.startOffset.toNat + off := by omega
    apply copies_writeReader
    apply Grown.writeReaderLoop hw hc hs hwalk hlt hout hfuel (le_of_not_ge hlen) hnonneg
    rw [hA, hnat, ← drop_drop, hdrop, limit, if_neg (by omega)]

theorem Grown.writeReader_self (hw : h.Wf) (hc : h.Chain m T S) (hs : h.Settled T)
    (hr : h.Stands T r p) (len : Int) (off : Nat) (hA : A = cycle len.toNat (((h.content T).drop p).drop off)) :
    Copies h m T S A A.length (h.writeReader m r len off) := by
  by_cases hlen : len ≤ 0
  · rw [Int.toNat_eq_zero.2 hlen, cycle] at hA
    rw [writeReader_nonpos hlen off, hA]
    exact ⟨.nothing hw hc hs, rfl⟩
  · obtain ⟨-, hp, hoff, ⟨rfl, hblock, heq⟩ | ⟨pre, b, post, rfl, hblock, heq⟩⟩ := hr
    · rw [content_nil, drop_nil, drop_nil, cycle_nil] at hA
      rw [IOHeap.writeReader, hblock, hA]
      simp only [IOHeap.writeReaderLoop, bind_eq_bind, bind_some, sub_self]
      exact ⟨.nothing hw hc hs, rfl⟩
    · obtain ⟨hwalk, hsub⟩ := hc.walkFrom rfl
      have hfuel : (b :: post ++ S).length + len.toNat ≤ h.nextBlock + len.toNat + 1 := by
        have := length_le_of_walk hwalk fun b' hb' => hc.lt b' (hsub hb')
        simp only [cons_append]
        omega
      have hnonneg : 0 ≤ (off : Int) + r.startOffset := by omega
      have hnat : ((off : Int) + r.startOffset).toNat = r.startOffset.toNat + off := by omega
      have hle : (h.content pre).length ≤ p := by omega
      have hrest : p - (h.content pre).length = r.startOffset.toNat := by omega
      apply copies_writeReader
      rw [hblock]
      apply Grown.writeReaderLoop_self hw hc hs (le_of_not_ge hlen) hnonneg hfuel
      rw [hA, hnat, ← drop_drop, content_append, drop_append, drop_of_length_le hle, nil_append, hrest]

end Reader

end IOHeap

end TrafficServer
