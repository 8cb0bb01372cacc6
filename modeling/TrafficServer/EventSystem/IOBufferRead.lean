import Mathlib.Algebra.BigOperators.Group.List.Basic
import Mathlib.Tactic.Ring
import Mathlib.Tactic.Tauto
import TrafficServer.EventSystem.IOBuffer

/-!
# Reading along a chain of blocks

What a reader has still to read is the content of the blocks from its own on, after its offset. The
loops of `memcpy`, `memchr` and `operator[]` see the list of the blocks only, and each is shown equal
to an operation on the content. `consume` goes along the chain without passing the last block with
bytes, so that a reader stands at a position of the content of the whole chain (`Chain.Stands`).
-/

namespace TrafficServer

open Option List
open Linked (Walk)

namespace IOHeap

variable {h : IOHeap} {m : MIOBuffer} {b : Nat} {bs T S : List Nat} {r : IOBufferReader} {p : Nat}

def bytes (h : IOHeap) (b : Nat) : List UInt8 :=
  h.bytesAt (h.block b).data (h.block b).start (h.block b).readAvail

def content (h : IOHeap) (bs : List Nat) : List UInt8 := bs.flatMap h.bytes

variable {pre post : List Nat} {off n : Int}

@[simp] theorem content_nil : h.content [] = [] := rfl

@[simp] theorem content_cons : h.content (b :: bs) = h.bytes b ++ h.content bs := flatMap_cons

@[simp] theorem content_append : h.content (S ++ T) = h.content S ++ h.content T := flatMap_append

theorem content_eq_nil (hbs : ∀ b ∈ bs, h.bytes b = []) : h.content bs = [] := flatMap_eq_nil_iff.2 hbs

@[simp] theorem length_bytesAt (data : Nat) (p n : Int) : (h.bytesAt data p n).length = n.toNat := by simp [bytesAt]

def Ordered (h : IOHeap) (bs : List Nat) : Prop := ∀ b ∈ bs, (h.block b).start ≤ (h.block b).endPos

theorem length_bytes (hb : (h.block b).start ≤ (h.block b).endPos) :
    ((h.bytes b).length : Int) = (h.block b).readAvail := by
  rw [bytes, length_bytesAt, IOBufferBlock.readAvail]
  omega

theorem bytesAt_part (hoff : 0 ≤ off) (hn : off + n ≤ (h.block b).readAvail) :
    h.bytesAt (h.block b).data ((h.block b).start + off) n = ((h.bytes b).drop off.toNat).take n.toNat := by
  refine ext_getElem ?_ fun i hi _ => ?_
  · simp only [bytes, length_bytesAt, length_take, length_drop]
    omega
  · simp only [bytes, bytesAt, getElem_map, getElem_range, getElem_take, getElem_drop]
    congr 1
    omega

theorem sum_readAvail (hbs : h.Ordered bs) : (bs.map fun b => (h.block b).readAvail).sum = (h.content bs).length := by
  induction bs with
  | nil => rfl
  | cons b bs ih =>
    rw [map_cons, sum_cons, content_cons, length_append, Nat.cast_add,
      length_bytes (hbs b (by simp)), ih fun b hb => hbs b (by simp [hb])]

/-- What a scan of `len` bytes sees; a negative `len` is no limit. -/
def limit (len : Int) (l : List UInt8) : List UInt8 := if len < 0 then l else l.take len.toNat

theorem limit_append {len : Int} {l1 l2 : List UInt8} (hn : n = scanBytes len l1.length) :
    l1.take n.toNat ++ limit (len - n) l2 = limit len (l1 ++ l2) := by
  rw [scanBytes] at hn
  simp only [limit]
  split at hn
  · next hcase =>
    rw [hn, Int.toNat_natCast, take_length]
    by_cases hneg : len < 0
    · rw [if_pos hneg, if_pos (by omega)]
    · have hle : l1.length ≤ len.toNat := by omega
      have hsub : (len - l1.length).toNat = len.toNat - l1.length := by omega
      rw [if_neg hneg, if_neg (by omega), take_append, take_of_length_le hle, hsub]
  · next hcase =>
    have hle : len.toNat ≤ l1.length := by omega
    rw [hn, if_neg (by omega), if_neg (by omega), take_append_of_le_length hle,
      sub_self, Int.toNat_zero, take_zero, append_nil]

theorem drop_content_cons (hb : (h.block b).start ≤ (h.block b).endPos) (hoff : 0 ≤ off) :
    (h.content (b :: bs)).drop off.toNat =
      (h.bytes b).drop off.toNat ++ (h.content bs).drop (off - (h.block b).readAvail).toNat := by
  have := length_bytes hb
  rw [content_cons, drop_append]
  congr 2
  omega

theorem memcpyLoop_eq (hbs : h.Ordered bs) (len : Int) (hoff : 0 ≤ off) :
    h.memcpyLoop bs len off = limit len ((h.content bs).drop off.toNat) := by
  induction bs generalizing len off with
  | nil => simp [memcpyLoop, limit]
  | cons b bs ih =>
    have hb := hbs b (by simp)
    have htail : h.Ordered bs := fun b hb => hbs b (by simp [hb])
    have hsize := length_bytes hb
    rw [memcpyLoop, drop_content_cons hb hoff]
    by_cases hlen : len = 0
    · rw [if_pos hlen, hlen]
      simp [limit]
    rw [if_neg hlen]
    dsimp only
    by_cases hmax : (h.block b).readAvail - off ≤ 0
    · have hle : (h.bytes b).length ≤ off.toNat := by omega
      rw [if_pos hmax, ih htail _ (by omega), drop_of_length_le hle, nil_append, neg_sub]
    · -- the rest of this block, and then the next ones from their beginning
      have hdrop : ((h.bytes b).drop off.toNat).length = (h.block b).readAvail - off := by
        rw [length_drop]
        omega
      have hscan : scanBytes len ((h.block b).readAvail - off) ≤ (h.block b).readAvail - off := by
        rw [scanBytes]
        split <;> omega
      rw [if_neg hmax, bytesAt_part hoff (by omega), ih htail _ le_rfl]
      rw [limit_append (by rw [hdrop])]
      rw [show ((h.content bs).drop (0 : Int).toNat) = h.content bs from rfl,
        show (off - (h.block b).readAvail).toNat = 0 by omega, drop_zero]

theorem memchrLoop_eq (start : Int) (c : UInt8) (len off o : Int) : h.memchrLoop start c bs len off o =
      match (h.memcpyLoop bs len off).idxOf? c with
      | some i => o - start + i
      | none => -1 := by
  induction bs generalizing len off o with
  | nil => rfl
  | cons b bs ih =>
    rw [memchrLoop, memcpyLoop]
    by_cases hlen : len = 0
    · rw [if_pos hlen, if_pos hlen]
      rfl
    rw [if_neg hlen, if_neg hlen]
    by_cases hmax : (h.block b).readAvail - off ≤ 0
    · rw [if_pos hmax, if_pos hmax, ih]
    · rw [if_neg hmax, if_neg hmax]
      have hpos : 0 ≤ scanBytes len ((h.block b).readAvail - off) := by
        rw [scanBytes]
        split <;> omega
      generalize hpart : h.bytesAt (h.block b).data ((h.block b).start + off) (scanBytes len ((h.block
        b).readAvail - off)) = part
      have hlength : (part.length : Int) = scanBytes len ((h.block b).readAvail - off) := by
        rw [← hpart, length_bytesAt, Int.toNat_of_nonneg hpos]
      simp only [List.idxOf?] at ih ⊢
      rw [hpart, ← hlength, findIdx?_append, ih]
      cases hfind : part.findIdx? (· == c) with
      | some i => rfl
      | none =>
        rw [none_or]
        cases (h.memcpyLoop bs (len - part.length) 0).findIdx? (· == c) with
        | none => rfl
        | some i =>
          simp only [map_some, Nat.cast_add]
          ring

theorem indexLoop_eq (hbs : h.Ordered bs) {i : Int} (hi : 0 ≤ i) : h.indexLoop bs i = (h.content bs)[i.toNat]? := by
  induction bs generalizing i with
  | nil => rfl
  | cons b bs ih =>
    have hsize := length_bytes (hbs b (by simp))
    rw [indexLoop, content_cons]
    split_ifs
    · rw [getElem?_append_left (by omega)]
      simp only [bytes, bytesAt, getElem?_map, getElem?_range (show i.toNat <
        (h.block b).readAvail.toNat by omega), map_some, Int.toNat_of_nonneg hi]
    · rw [ih (fun b hb => hbs b (by simp [hb])) (by omega), getElem?_append_right (by omega)]
      congr 1
      omega

theorem skipLoop_eq (hbs : h.Ordered bs) (hne : bs ≠ []) {s : Int} (hs : 0 ≤ s) :
    ∃ pre b rest, bs = pre ++ b :: rest ∧
      h.skipLoop bs s = (b :: rest, s - (h.content pre).length) ∧ ((h.content pre).length : Int) ≤ s ∧
      (pre ≠ [] → h.bytes b ≠ []) ∧
      (s - (h.content pre).length < (h.bytes b).length ∨ ∀ n ∈ rest.head?, h.bytes n = []) := by
  induction bs generalizing s with
  | nil => exact absurd rfl hne
  | cons b bs ih =>
    cases bs with
    | nil => exact ⟨[], b, [], rfl, by simp [skipLoop], by simpa using hs, nofun, .inr (by simp)⟩
    | cons n bs =>
      have hb := length_bytes (hbs b (by simp))
      have hn := length_bytes (hbs n (by simp))
      rw [skipLoop]
      split_ifs with hgo
      · obtain ⟨pre, b', rest, heq, hskip, hle, hpre, hstop⟩ :=
          ih (fun b hb => hbs b (by simp [hb])) (cons_ne_nil n bs) (s := s - (h.block b).readAvail) (by omega)
        have hlen : ((h.content (b :: pre)).length : Int) = (h.block b).readAvail + (h.content pre).length := by
          rw [content_cons, length_append]
          push_cast
          omega
        refine ⟨b :: pre, b', rest, by rw [heq]; rfl, ?_, by omega, fun _ => ?_, ?_⟩
        · rw [hskip, hlen, sub_sub]
        · cases pre with
          | nil =>
            obtain ⟨rfl, -⟩ := List.cons.inj heq
            exact ne_nil_of_length_pos (by omega)
          | cons => exact hpre (cons_ne_nil _ _)
        · rw [hlen, ← sub_sub]
          exact hstop
      · refine ⟨[], b, n :: bs, rfl, by simp, by simpa using hs, nofun, ?_⟩
        rcases not_and_or.1 hgo with hzero | hless
        · refine .inr fun n' hn' => ?_
          obtain rfl := some.inj hn'
          exact eq_nil_of_length_eq_zero (by omega)
        · exact .inl (by simp; omega)

/-! ### The chain of a buffer -/

/-- The blocks have data, in order and with some size, and only one block has the room behind its end:
other blocks of the data are before it, and have no room of their own. -/
structure Wf (h : IOHeap) : Prop where
  data_lt : ∀ b < h.nextBlock, (h.block b).data < h.nextData
  start_le : ∀ b < h.nextBlock, (h.block b).start ≤ (h.block b).endPos
  end_le : ∀ b < h.nextBlock, (h.block b).endPos ≤ (h.block b).bufEnd
  size_pos : ∀ b < h.nextBlock, (h.block b).start < (h.block b).bufEnd
  room : ∀ a < h.nextBlock, ∀ b < h.nextBlock, a ≠ b → (h.block a).data = (h.block b).data →
    (h.block b).endPos < (h.block b).bufEnd →
    (h.block a).endPos ≤ (h.block b).endPos ∧ (h.block a).bufEnd = (h.block a).endPos

/-- The chain of a buffer: the blocks `T` from the first to that of the writer, and the blocks `S`
behind it, which are empty. Blocks inside the chain are not. -/
structure Chain (h : IOHeap) (m : MIOBuffer) (T S : List Nat) : Prop where
  walk : Walk h.next T.head? (T ++ S) none
  lt : ∀ b ∈ T ++ S, b < h.nextBlock
  writer : m.writer = T.getLast?
  inner : ∀ b ∈ T.tail.dropLast, h.bytes b ≠ []
  spare : ∀ b ∈ S, h.bytes b = []

/-- A reader stands at position `p` of the content of the blocks `T`. -/
def Stands (h : IOHeap) (T : List Nat) (r : IOBufferReader) (p : Nat) : Prop :=
  r.sizeLimit = ink64Max ∧ p ≤ (h.content T).length ∧ 0 ≤ r.startOffset ∧
    ((T = [] ∧ r.block = none ∧ r.startOffset = p) ∨
      ∃ pre b post, T = pre ++ b :: post ∧ r.block = some b ∧
        (p : Int) = (h.content pre).length + r.startOffset)

theorem length_le_of_walk {a : Option Nat} (hw : Walk h.next a bs none)
    (hlt : ∀ b ∈ bs, b < h.nextBlock) : bs.length ≤ h.nextBlock := by
  have hsub : bs ⊆ List.range h.nextBlock := fun b hb => mem_range.2 (hlt b hb)
  simpa using (hw.nodup.subperm hsub).length_le

theorem blocksFrom_of_walk {a : Option Nat} (hw : Walk h.next a bs none)
    (hlt : ∀ b ∈ bs, b < h.nextBlock) : h.blocksFrom a = some bs :=
  hw.follow (length_le_of_walk hw hlt)

theorem blocksFrom_none : h.blocksFrom none = some [] := by
  rw [blocksFrom]
  cases h.nextBlock <;> rfl

theorem Chain.content_spare (hc : h.Chain m T S) : h.content S = [] := content_eq_nil hc.spare

theorem Chain.ordered (hw : h.Wf) (hc : h.Chain m T S) (hbs : bs ⊆ T ++ S) : h.Ordered bs :=
  fun b hb => hw.start_le b (hc.lt b (hbs hb))

theorem Chain.walkFrom (hc : h.Chain m T S) (hT : T = pre ++ b :: post) :
    Walk h.next (some b) (b :: (post ++ S)) none ∧ b :: (post ++ S) ⊆ T ++ S := by
  have hwalk := hc.walk
  rw [hT, append_assoc, Linked.walk_append] at hwalk
  obtain ⟨a, -, ha⟩ := hwalk
  obtain rfl : a = some b := ha.1
  refine ⟨ha, fun b' hb' => ?_⟩
  rw [hT]
  simp only [mem_append, mem_cons] at hb' ⊢
  tauto

theorem Chain.blocksFrom (hc : h.Chain m T S) (hT : T = pre ++ b :: post) :
    h.blocksFrom (some b) = some (b :: (post ++ S)) := by
  obtain ⟨hwalk, hsub⟩ := hc.walkFrom hT
  exact blocksFrom_of_walk hwalk fun b' hb' => hc.lt b' (hsub hb')

/-- What a reader sees of the heap: a walk along blocks, of which the content after its offset is what
it has still to read. -/
theorem Chain.walkUnread (hc : h.Chain m T S) (hr : h.Stands T r p) :
    ∃ bs, Walk h.next r.block bs none ∧ bs ⊆ T ++ S ∧ (h.content bs).drop r.startOffset.toNat = (h.content T).drop p ∧
      ((h.content bs).length : Int) - r.startOffset = ((h.content T).drop p).length := by
  obtain ⟨-, hp, hoff, ⟨rfl, hblock, heq⟩ | ⟨pre, b, post, hT, hblock, heq⟩⟩ := hr
  · rw [content_nil, length_nil] at hp
    refine ⟨[], hblock, nil_subset _, by simp, ?_⟩
    simp
    omega
  · have hcontent : h.content (b :: (post ++ S)) = h.content (b :: post) := by simp [hc.content_spare]
    obtain ⟨hwalk, hsub⟩ := hc.walkFrom hT
    refine ⟨b :: (post ++ S), by rwa [hblock], hsub, ?_, ?_⟩
    · have hle : (h.content pre).length ≤ p := by omega
      have hsub : p - (h.content pre).length = r.startOffset.toNat := by omega
      rw [hcontent, hT, content_append, drop_append, drop_of_length_le hle, nil_append, hsub]
    · rw [hT, content_append, length_append] at hp
      rw [hcontent, length_drop, hT, content_append, length_append]
      omega

section Stands
variable (hw : h.Wf) (hc : h.Chain m T S) (hr : h.Stands T r p)
include hw hc hr

theorem Chain.unread : ∃ bs, h.blocksFrom r.block = some bs ∧ h.Ordered bs ∧
      (h.content bs).drop r.startOffset.toNat = (h.content T).drop p ∧
      ((h.content bs).length : Int) - r.startOffset = ((h.content T).drop p).length := by
  obtain ⟨bs, hwalk, hsub, hcontent⟩ := hc.walkUnread hr
  exact ⟨bs, blocksFrom_of_walk hwalk fun b hb => hc.lt b (hsub hb), hc.ordered hw hsub, hcontent⟩

theorem Chain.readAvail_eq : h.readAvail r = some (((h.content T).drop p).length : Int) := by
  obtain ⟨bs, hbs, hord, -, hlen⟩ := hc.unread hw hr
  rw [readAvail, hbs, bind_eq_bind, bind_some, sum_readAvail hord, hlen, if_neg fun hlim => hlim.1 hr.1]

theorem Chain.memcpy_eq (len : Int)
    (off : Nat) : h.memcpy r len off = some (limit len (((h.content T).drop p).drop off)) := by
  obtain ⟨bs, hbs, hord, hdrop, -⟩ := hc.unread hw hr
  have hoff := hr.2.2.1
  have hnat : ((off : Int) + r.startOffset).toNat = r.startOffset.toNat + off := by omega
  rw [memcpy, hbs, bind_eq_bind, bind_some, memcpyLoop_eq hord len (by omega), hnat, ← drop_drop, hdrop]

theorem Chain.memchr_eq (c : UInt8) (len : Int) (off : Nat) : h.memchr r c len off = some
      (match (limit len (((h.content T).drop p).drop off)).idxOf? c with
      | some i => (off + i : Int)
      | none => -1) := by
  obtain ⟨bs, hbs, hord, hdrop, -⟩ := hc.unread hw hr
  have hoff := hr.2.2.1
  have hnat : ((off : Int) + r.startOffset).toNat = r.startOffset.toNat + off := by omega
  rw [memchr, hbs, bind_eq_bind, bind_some, memchrLoop_eq,
    memcpyLoop_eq hord len (by omega), hnat, ← drop_drop, hdrop, Int.add_sub_cancel]

theorem Chain.index_eq (i : Nat) : h.index r i = ((h.content T).drop p)[i]? := by
  obtain ⟨bs, hbs, hord, hdrop, -⟩ := hc.unread hw hr
  have hoff := hr.2.2.1
  have hnat : ((i : Int) + r.startOffset).toNat = r.startOffset.toNat + i := by omega
  rw [index, hbs, bind_eq_bind, bind_some, indexLoop_eq hord (by omega), hnat, ← hdrop, getElem?_drop]

end Stands

/-! ### Moving -/

theorem Chain.content_rest (hc : h.Chain m T S) (hT : T = pre ++ b :: post)
    (hstop : ∀ n ∈ (post ++ S).head?, h.bytes n = []) : h.content (post ++ S) = [] := by
  cases post with
  | nil => exact hc.content_spare
  | cons n post =>
    have hn : h.bytes n = [] := hstop n rfl
    obtain rfl : post = [] := by
      by_contra hne
      refine hc.inner n ?_ hn
      have htail : T.tail = (pre ++ [b]).tail ++ n :: post := by
        rw [hT]
        cases pre <;> simp
      rw [htail, dropLast_append_of_ne_nil (cons_ne_nil n post), dropLast_cons_of_ne_nil hne]
      simp
    simp [hn, hc.content_spare]

section Consume
variable (hw : h.Wf) (hc : h.Chain m T S) (hr : h.Stands T r p)
include hw hc hr

theorem Chain.skip : ∃ r', h.skipEmptyBlocks r = some r' ∧ h.Stands T r' p ∧ r'.allocated = r.allocated ∧
      (p < (h.content T).length → ∃ pre b post, T = pre ++ b :: post ∧ r'.block = some b ∧
        (p : Int) = (h.content pre).length + r'.startOffset ∧ r'.startOffset < (h.bytes b).length) := by
  obtain ⟨bs, hbs, hord, -, -⟩ := hc.unread hw hr
  obtain ⟨hlim, hp, hoff, ⟨rfl, hblock, heq⟩ | ⟨pre, b, post, hT, hblock, heq⟩⟩ := hr
  · refine ⟨{ r with block := none }, ?_, ⟨hlim, hp, hoff, .inl ⟨rfl, rfl, heq⟩⟩, rfl, fun hlt => ?_⟩
    · rw [skipEmptyBlocks, hblock, blocksFrom_none]
      rfl
    · rw [content_nil, length_nil] at hlt
      omega
  · rw [hblock, hc.blocksFrom hT] at hbs
    obtain rfl := some.inj hbs
    obtain ⟨pre', b', rest, hsplit, hskip, hle, hne, hstop⟩ := skipLoop_eq hord (cons_ne_nil _ _) hoff
    -- the block reached has bytes, or is the one left, so it is not behind the writer
    obtain ⟨post', hpost, hrest⟩ : ∃ post', b :: post = pre' ++ b' :: post' ∧ rest = post' ++ S := by
      have hnot : pre' ≠ [] → b' ∉ S := fun hpre hin => hne hpre (hc.spare b' hin)
      rcases append_eq_append_iff.1 (show (b :: post) ++ S = pre' ++ b' :: rest from hsplit)
        with ⟨c, hpre, hS⟩ | ⟨c, hpost, hS⟩
      · have hin : b' ∈ S := by simp [hS]
        exact absurd hin (hnot (by simp [hpre]))
      · cases c with
        | nil =>
          have hpre : pre' ≠ [] := by
            rintro rfl
            cases hpost
          have hin : b' ∈ S := by
            rw [nil_append] at hS
            simp [← hS]
          exact absurd hin (hnot hpre)
        | cons c post' =>
          obtain ⟨rfl, hrest⟩ := List.cons.inj hS
          exact ⟨post', hpost, hrest⟩
    have hT' : T = (pre ++ pre') ++ b' :: post' := by rw [hT, hpost, append_assoc]
    have hpos : (p : Int) = (h.content (pre ++ pre')).length + (r.startOffset - (h.content pre').length) := by
      rw [content_append, length_append]
      push_cast
      omega
    refine ⟨{ r with block := some b', startOffset := r.startOffset - (h.content pre').length }, ?_,
      ⟨hlim, hp, by dsimp only; omega, .inr ⟨pre ++ pre', b', post', hT', rfl, hpos⟩⟩, rfl,
      fun hlt => ⟨pre ++ pre', b', post', hT', rfl, hpos, ?_⟩⟩
    · rw [skipEmptyBlocks, hblock, hc.blocksFrom hT, bind_eq_bind, bind_some, hskip]
      rfl
    · rcases hstop with hless | hempty
      · exact hless
      · rw [hrest] at hempty
        have hnil := congrArg List.length (hc.content_rest hT' hempty)
        have hlen := congrArg (fun l => (h.content l).length) hT'
        simp only [content_append, content_cons, length_append, length_nil] at hlen hnil hpos
        dsimp only
        omega

theorem Chain.consume {n : Nat} (hn : p + n ≤ (h.content T).length) :
    ∃ r', h.consume r n = some r' ∧ h.Stands T r' (p + n) ∧ r'.allocated = r.allocated := by
  obtain ⟨hlim, hp, hoff, hcases⟩ := hr
  have hr' : h.Stands T { r with
      startOffset := r.startOffset + n
      sizeLimit := if r.sizeLimit ≠ ink64Max then r.sizeLimit - n else r.sizeLimit } (p + n) := by
    refine ⟨?_, hn, by dsimp only; omega, ?_⟩
    · rw [if_neg (not_not.2 hlim)]
      exact hlim
    · rcases hcases with ⟨hT, hblock, heq⟩ | ⟨pre, b, post, hT, hblock, heq⟩
      · exact .inl ⟨hT, hblock, by dsimp only; omega⟩
      · exact .inr ⟨pre, b, post, hT, hblock, by dsimp only; omega⟩
  obtain ⟨r', hskip, hstands, halloc, -⟩ := hc.skip hw hr'
  exact ⟨r', hskip, hstands, halloc⟩

theorem Chain.blockBytes (hlt : p < (h.content T).length) :
    ∃ r' bytes rest, h.blockBytes r = some (r', bytes) ∧ h.Stands T r' p ∧
      r'.allocated = r.allocated ∧ bytes ≠ [] ∧ (h.content T).drop p = bytes ++ rest := by
  obtain ⟨r', hskip, hstands, halloc, hblock⟩ := hc.skip hw hr
  obtain ⟨pre, b, post, hT, hb, hpos, hless⟩ := hblock hlt
  have hoff := hstands.2.2.1
  have hsize := length_bytes (hw.start_le b (hc.lt b (by simp [hT])))
  have hpart : h.bytesAt (h.block b).data ((h.block b).start + r'.startOffset)
      ((h.block b).endPos - ((h.block b).start + r'.startOffset)) = (h.bytes b).drop r'.startOffset.toNat := by
    rw [bytesAt_part hoff (by rw [IOBufferBlock.readAvail]; omega), take_of_length_le]
    rw [length_drop]
    rw [IOBufferBlock.readAvail] at hsize
    omega
  refine ⟨r', (h.bytes b).drop r'.startOffset.toNat, h.content post, ?_, hstands, halloc, ?_, ?_⟩
  · rw [IOHeap.blockBytes, hskip, bind_eq_bind, bind_some, hb, bind_eq_bind, bind_some]
    dsimp only
    rw [hpart]
  · exact ne_nil_of_length_pos (by rw [length_drop]; omega)
  · have hle : (h.content pre).length ≤ p := by omega
    have hle' : p - (h.content pre).length ≤ (h.bytes b).length := by omega
    rw [hT, content_append, drop_append, drop_of_length_le hle, nil_append,
      content_cons, drop_append_of_le_length hle']
    congr 2
    omega

/-- **`read` copies what is there**, and takes a round at most for each byte. -/
theorem Chain.readLoop {fuel n : Nat} (hfuel : n ≤ fuel) (hn : p + n ≤ (h.content T).length) (out : List UInt8) :
    ∃ r', h.readLoop fuel r n out = some (r', out ++ ((h.content T).drop p).take n) ∧
      h.Stands T r' (p + n) ∧ r'.allocated = r.allocated := by
  induction fuel generalizing r p n out with
  | zero =>
    obtain rfl : n = 0 := by omega
    exact ⟨r, by simp [readLoop], hr, rfl⟩
  | succ fuel ih =>
    cases n with
    | zero => exact ⟨r, by simp [readLoop], hr, rfl⟩
    | succ n =>
      obtain ⟨r1, bytes, rest, hblock, hr1, ha1, hne, hdrop⟩ := hc.blockBytes hw hr (by omega)
      have hpos := length_pos_iff.2 hne
      generalize hpart : bytes.take (n + 1) = part
      have hlen : part.length = min (n + 1) bytes.length := by rw [← hpart, length_take]
      obtain ⟨r2, hconsume, hr2, ha2⟩ := hc.consume hw hr1 (n := part.length) (by omega)
      obtain ⟨r3, hloop, hr3, ha3⟩ := ih (n := n + 1 - part.length) hr2 (by omega) (by omega) (out ++ part)
      refine ⟨r3, ?_, by rwa [show p + (n + 1) = p + part.length + (n + 1 - part.length) by omega],
        ha3.trans (ha2.trans ha1)⟩
      have htake : part = ((h.content T).drop p).take part.length := by
        have hle : part.length ≤ bytes.length := by omega
        rw [hdrop, take_append_of_le_length hle, hlen, ← hpart, take_eq_take_iff]
        omega
      have hsum : n + 1 = part.length + (n + 1 - part.length) := by omega
      rw [readLoop, hblock, bind_eq_bind, bind_some]
      dsimp only
      rw [hpart, hconsume, bind_eq_bind, bind_some, hloop, append_assoc, ← drop_drop]
      nth_rewrite 1 [htake]
      rw [← take_add, ← hsum]

theorem Chain.read (len : Nat) : ∃ r', h.read r len = some (r', ((h.content T).drop p).take len) ∧
      h.Stands T r' (p + min len ((h.content T).drop p).length) ∧ r'.allocated = r.allocated := by
  have hp := hr.2.1
  generalize hn : min len ((h.content T).drop p).length = n
  have hlen := length_drop (i := p) (l := h.content T)
  obtain ⟨r', hloop, hstands, halloc⟩ := hc.readLoop hw hr (le_refl n) (by omega) []
  refine ⟨r', ?_, hn ▸ hstands, halloc⟩
  rw [IOHeap.read, hc.readAvail_eq hw hr, bind_eq_bind, bind_some]
  rw [Int.toNat_natCast, hn, hloop, nil_append, ← hn, ← take_eq_take_min]

end Consume

end IOHeap

end TrafficServer
