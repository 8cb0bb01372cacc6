import TrafficServer.EventSystem.IOBufferGrow
import TrafficServer.Lib.CInt

/-!
# Copying, cloning and skipping along a chain of blocks

The cache takes the body of a document from a chain of blocks that it does not own. It copies bytes
to an aggregation buffer (`iobufferblock_memcpy`), makes a chain of its own of the same memory
(`iobufferblock_clone`), and moves on in the chain (`iobufferblock_skip`).

The three loops treat a block alike. Of a block with nothing behind the offset they only take what
it leaves of the offset; of any other they take up to `len` bytes, and the offset is then 0. On the
content of the chain these are the two equations `slice_skip` and `slice_part`, and each loop is a
recursion over them. A loop goes on with `len` at 0, but it takes no bytes any more.
-/

namespace TrafficServer

open List Option
open Linked (Walk)
open CInt (toInt32)

namespace IOHeap

/-! ### The code -/

/-- The heap with a new block behind `current_buf`, if there is one; `made` are `start_buf` and
`current_buf`. -/
def linkClone (h : IOHeap) (made : Option (Nat × Nat)) (newBuf : IOBufferBlock) : IOHeap :=
  match made with
  | none => h.newBlock newBuf
  | some (_, current) => (h.newBlock newBuf).setNext current h.nextBlock

def cloneLoop : List Nat → IOHeap → Option (Nat × Nat) → Int → Int → IOHeap × Option Nat
  | [], h, made, _, _ => (h, made.map Prod.fst)
  | b :: bs, h, made, offset, len =>
    if len < 0 then (h, made.map Prod.fst)
    else
      let maxBytes := (h.block b).readAvail - offset
      if maxBytes ≤ 0 then cloneLoop bs h made (-maxBytes) len
      else
        let bytes := min len maxBytes
        cloneLoop bs (h.linkClone made ((h.block b).clonePart offset bytes))
          (some ((made.map Prod.fst).getD h.nextBlock, h.nextBlock)) 0 (len - bytes)

def iobufferblockClone (h : IOHeap) (b : Option Nat) (offset len : Int) :
    Option (IOHeap × Option Nat) := do
  let bs ← h.blocksFrom b
  some (cloneLoop bs h none offset len)

/-- The loop of `iobufferblock_skip`: the blocks that are left, and the offset in the first of them. -/
def skipBlocks (h : IOHeap) : List Nat → Int → Int → List Nat × Int
  | [], offset, _ => ([], offset)
  | b :: bs, offset, len =>
    if len < 0 then (b :: bs, offset)
    else
      let maxBytes := (h.block b).readAvail - offset
      if maxBytes ≤ 0 then skipBlocks h bs (-maxBytes) len
      else if len ≥ maxBytes then skipBlocks h bs 0 (len - maxBytes)
      else (b :: bs, offset + len)

/-- `iobufferblock_skip`: the block, `*poffset` and `*plen`. -/
def iobufferblockSkip (h : IOHeap) (b : Option Nat) (offset len write : Int) :
    Option (Option Nat × Int × Int) := do
  let bs ← h.blocksFrom b
  let p := h.skipBlocks bs offset write
  some (p.1.head?, p.2, len - write)

def FitsInt (x : Int) : Prop := -2 ^ 31 ≤ x ∧ x < 2 ^ 31
deriving Decidable

/-- The loop of `iobufferblock_memcpy`, whose variables are `int`s: the bytes it writes. `none` is an
overflow. -/
def memcpyBlocks (h : IOHeap) : List Nat → Int → Int → Option (List UInt8)
  | [], _, _ => some []
  | b :: bs, len, offset =>
    if len < 0 then some []
    else
      let maxBytes := toInt32 (h.block b).readAvail - offset
      if ¬FitsInt maxBytes then none
      else if maxBytes ≤ 0 then
        if FitsInt (-maxBytes) then memcpyBlocks h bs len (-maxBytes) else none
      else
        let bytes := min len maxBytes
        (memcpyBlocks h bs (len - bytes) 0).map fun out =>
          h.bytesAt (h.block b).data ((h.block b).start + offset) bytes ++ out

def iobufferblockMemcpy (h : IOHeap) (len : Int) (b : Option Nat) (offset : Int) :
    Option (List UInt8) := do
  let bs ← h.blocksFrom b
  h.memcpyBlocks bs (toInt32 len) (toInt32 offset)

/-! ### Slices of the content -/

variable {h h' : IOHeap} {b : Nat} {bs L C : List Nat} {off len n : Int} {a : Option Nat}

def slice (h : IOHeap) (bs : List Nat) (off len : Int) : List UInt8 :=
  ((h.content bs).drop off.toNat).take len.toNat

@[simp] theorem slice_nil : h.slice [] off len = [] := by simp [slice]

section Skip
variable (hb : (h.block b).start ≤ (h.block b).endPos)
include hb

theorem drop_content_skip (hmax : (h.block b).readAvail ≤ off) : (h.content (b :: bs)).drop off.toNat =
      (h.content bs).drop (off - (h.block b).readAvail).toNat := by
  have hsize := length_bytes hb
  rw [drop_content_cons hb (by omega), drop_of_length_le (by omega), nil_append]

theorem slice_skip (hmax : (h.block b).readAvail - off ≤ 0) (len : Int) :
    h.slice (b :: bs) off len = h.slice bs (-((h.block b).readAvail - off)) len := by
  rw [slice, drop_content_skip hb (by omega), slice, neg_sub]

theorem slice_part (hoff : 0 ≤ off) (hlen : 0 ≤ len) (hmax : 0 < (h.block b).readAvail - off) :
    h.slice (b :: bs) off len = h.bytesAt (h.block b).data ((h.block b).start + off)
        (min len ((h.block b).readAvail - off)) ++ h.slice bs 0 (len - min len ((h.block b).readAvail - off)) := by
  have hsize := length_bytes hb
  have hdrop : ((h.bytes b).drop off.toNat).length = ((h.block b).readAvail - off).toNat := by
    rw [length_drop]
    omega
  rw [bytesAt_part hoff (by omega), slice, drop_content_cons hb hoff, take_append, hdrop, slice]
  congr 1
  · rcases le_total len ((h.block b).readAvail - off) with hle | hle
    · rw [min_eq_left hle]
    · rw [min_eq_right hle, take_of_length_le (by omega), take_of_length_le hdrop.le]
  · rw [show (off - (h.block b).readAvail).toNat = 0 by omega,
      show (len - min len ((h.block b).readAvail - off)).toNat =
        len.toNat - ((h.block b).readAvail - off).toNat by omega]
    rfl

end Skip

/-! ### `iobufferblock_memcpy` -/

theorem memcpyBlocks_eq (hbs : h.Ordered bs) (hsize : ∀ b ∈ bs, (h.block b).readAvail < 2 ^ 31)
    (hlen : 0 ≤ len) (hoff : 0 ≤ off) (hint : off < 2 ^ 31) :
    h.memcpyBlocks bs len off = some (h.slice bs off len) := by
  induction bs generalizing len off with
  | nil => simp [memcpyBlocks]
  | cons b bs ih =>
    have hb := hbs b (by simp)
    have htail : h.Ordered bs := fun b hb => hbs b (by simp [hb])
    have hsmall := hsize b (by simp)
    have hpos : 0 ≤ (h.block b).readAvail := by
      rw [IOBufferBlock.readAvail]
      omega
    have hcast : toInt32 (h.block b).readAvail = (h.block b).readAvail := CInt.toInt32_of_mem (by omega) hsmall
    have hfits : FitsInt ((h.block b).readAvail - off) := by
      rw [FitsInt]
      omega
    rw [memcpyBlocks, if_neg (by omega), hcast]
    dsimp only
    rw [if_neg (not_not.2 hfits)]
    by_cases hmax : (h.block b).readAvail - off ≤ 0
    · rw [if_pos hmax, if_pos (by rw [FitsInt]; omega), slice_skip hb hmax]
      exact ih htail (fun b hb => hsize b (by simp [hb])) hlen (by omega) (by omega)
    · rw [if_neg hmax, slice_part hb hoff hlen (by omega),
        ih htail (fun b hb => hsize b (by simp [hb])) (by omega) le_rfl (by omega)]
      rfl

theorem iobufferblockMemcpy_eq (hL : h.blocksFrom a = some L) (hord : h.Ordered L)
    (hsize : ∀ b ∈ L, (h.block b).readAvail < 2 ^ 31) (hoff : 0 ≤ off) (hoff' : off < 2 ^ 31)
    (hn : 0 ≤ n) (hn' : n < 2 ^ 31) : h.iobufferblockMemcpy n a off = some (h.slice L off n) := by
  rw [iobufferblockMemcpy, hL, Option.bind_eq_bind, bind_some,
    CInt.toInt32_of_mem (by omega) hn', CInt.toInt32_of_mem (by omega) hoff']
  exact memcpyBlocks_eq hord hsize hn hoff hoff'

theorem blocksFrom_suffix (hL : Walk h.next a L none) (hlt : ∀ b ∈ L, b < h.nextBlock)
    (hbs : bs <:+ L) : h.blocksFrom bs.head? = some bs := by
  obtain ⟨pre, rfl⟩ := hbs
  obtain ⟨c, -, hc⟩ := Linked.walk_append.1 hL
  rw [hc.head?_eq]
  exact blocksFrom_of_walk hc fun b hb => hlt b (mem_append_right _ hb)

/-- The copy is the slice from any block of the chain on, at every offset and length that is an `int`. -/
def MemcpyAgrees (h : IOHeap) (L : List Nat) : Prop :=
  ∀ bs, bs <:+ L → ∀ off n : Int, 0 ≤ off → off < 2 ^ 31 → 0 ≤ n → n < 2 ^ 31 →
    off + n ≤ (h.content bs).length → h.iobufferblockMemcpy n bs.head? off = some (h.slice bs off n)

def Separate (h : IOHeap) (L : List Nat) : Prop :=
  L.Pairwise fun b c => (h.block b).data = (h.block c).data →
    (h.block b).endPos ≤ (h.block c).start ∨ (h.block c).endPos ≤ (h.block b).start

theorem mem_memcpyBlocks (hbs : h.Ordered bs) (hlen : 0 ≤ len) (hoff : 0 ≤ off) {out : List UInt8}
    (hrun : h.memcpyBlocks bs len off = some out) {x : UInt8} (hx : x ∈ out) :
    ∃ b ∈ bs, ∃ p, (h.block b).start ≤ p ∧ p < (h.block b).endPos ∧ x = h.byte (h.block b).data p := by
  induction bs generalizing len off out with
  | nil =>
    cases hrun
    exact absurd hx not_mem_nil
  | cons b bs ih =>
    have hb := hbs b (by simp)
    have htail : h.Ordered bs := fun b hb => hbs b (by simp [hb])
    have hcast : toInt32 (h.block b).readAvail ≤ (h.block b).readAvail := by
      refine CInt.toInt32_le ?_
      rw [IOBufferBlock.readAvail]
      omega
    rw [memcpyBlocks, if_neg (by omega)] at hrun
    dsimp only at hrun
    split at hrun
    · cases hrun
    split at hrun
    · split at hrun
      · obtain ⟨c, hc, hp⟩ := ih htail hlen (by omega) hrun hx
        exact ⟨c, mem_cons_of_mem _ hc, hp⟩
      · cases hrun
    · obtain ⟨out', hrun', rfl⟩ := map_eq_some_iff.1 hrun
      rcases mem_append.1 hx with hx | hx
      · obtain ⟨i, hi, rfl⟩ := mem_map.1 hx
        rw [mem_range] at hi
        have hread : (h.block b).readAvail = (h.block b).endPos - (h.block b).start := rfl
        exact ⟨b, by simp, _, by omega, by omega, rfl⟩
      · obtain ⟨c, hc, hp⟩ := ih htail (by omega) le_rfl hrun' hx
        exact ⟨c, mem_cons_of_mem _ hc, hp⟩

/-- **When copies are slices**, whatever the blocks hold: when each block has a size that is an `int`.
A copy of the byte where the size of a larger block is cut comes from a later block. -/
theorem memcpyAgrees_iff (hL : Walk h.next a L none) (hlt : ∀ b ∈ L, b < h.nextBlock) (hord : h.Ordered L)
    (hsep : h.Separate L) :
    (∀ byte, { h with byte := byte }.MemcpyAgrees L) ↔ ∀ b ∈ L, (h.block b).readAvail < 2 ^ 31 := by
  constructor
  · intro hall b hb
    by_contra hbig
    obtain ⟨pre, bs, rfl⟩ := append_of_mem hb
    have hsuf : b :: bs <:+ pre ++ b :: bs := suffix_append ..
    have hb := hord b hb
    have htail : h.Ordered bs := fun c hc => hord c (hsuf.subset (by simp [hc]))
    obtain ⟨off, hoff⟩ : ∃ off, off = max 0 (toInt32 (h.block b).readAvail) := ⟨_, rfl⟩
    have hcut := CInt.toInt32_lt (h.block b).readAvail
    have hcut' := CInt.le_toInt32 (h.block b).readAvail
    -- one byte of the memory is 1: the one at `off` in block `b`
    let byte : Nat → Int → UInt8 := fun d p => if d = (h.block b).data ∧ p = (h.block b).start + off then 1 else 0
    have hslice : { h with byte := byte }.slice (b :: bs) off 1 = [1] := by
      have hmin : min 1 ((h.block b).readAvail - off) = 1 := by omega
      have hpart : { h with byte := byte }.slice (b :: bs) off 1 = _ := slice_part hb (by omega) (by decide)
        (show 0 < (h.block b).readAvail - off by omega)
      rw [hpart, hmin]
      simp [slice, bytesAt, byte]
    have hrun := hall byte (b :: bs) hsuf off 1 (by omega) (by omega) (by decide) (by decide) ?_
    · rw [hslice, iobufferblockMemcpy, blocksFrom_suffix (h := { h with byte := byte }) hL hlt hsuf] at hrun
      change { h with byte := byte }.memcpyBlocks (b :: bs) (toInt32 1) (toInt32 off) = some [1] at hrun
      rw [CInt.toInt32_of_mem (show -2 ^ 31 ≤ off by omega) (by omega), memcpyBlocks, if_neg (by decide)] at hrun
      dsimp only at hrun
      rw [if_neg (by rw [not_not, FitsInt]; omega), if_pos (by omega)] at hrun
      split at hrun
      · obtain ⟨c, hc, p, hstart, hend, hp⟩ := mem_memcpyBlocks (h := { h with byte := byte }) htail (by decide)
          (by omega) hrun (mem_singleton_self 1)
        obtain ⟨hdata, rfl⟩ : (h.block c).data = (h.block b).data ∧ p = (h.block b).start + off := by
          by_contra hne
          exact absurd (hp.trans (if_neg hne)) (by decide)
        have hread : (h.block b).readAvail = (h.block b).endPos - (h.block b).start := rfl
        have hapart := pairwise_cons.1 (pairwise_append.1 hsep).2.1
        rcases hapart.1 c hc hdata.symm with hle | hle
        · have : (h.block c).start ≤ _ := hstart
          omega
        · have : _ < (h.block c).endPos := hend
          omega
      · cases hrun
    · rw [content_cons, length_append]
      have hsize : (({ h with byte := byte }.bytes b).length : Int) = (h.block b).readAvail := length_bytes hb
      omega
  · intro hsize byte bs hbs off n hoff hoff' hn hn' _
    have hblocks := blocksFrom_suffix (h := { h with byte := byte }) hL hlt hbs
    exact iobufferblockMemcpy_eq hblocks (fun b hb => hord b (hbs.subset hb)) (fun b hb => hsize b (hbs.subset hb))
      hoff hoff' hn hn'

/-! ### `iobufferblock_skip` -/

theorem skipBlocks_spec (hbs : h.Ordered bs) (hlen : 0 ≤ len) (hoff : 0 ≤ off)
    (hle : off + len ≤ (h.content bs).length) : (h.skipBlocks bs off len).1 <:+ bs ∧ 0 ≤ (h.skipBlocks bs off len).2 ∧
      (h.content (h.skipBlocks bs off len).1).drop (h.skipBlocks bs off len).2.toNat =
        (h.content bs).drop (off + len).toNat := by
  induction bs generalizing len off with
  | nil => exact ⟨suffix_rfl, hoff, by simp [skipBlocks]⟩
  | cons b bs ih =>
    have hb := hbs b (by simp)
    have htail : h.Ordered bs := fun b hb => hbs b (by simp [hb])
    have hsize := length_bytes hb
    rw [content_cons, length_append] at hle
    rw [skipBlocks, if_neg (by omega)]
    by_cases hmax : (h.block b).readAvail - off ≤ 0
    · obtain ⟨hsuf, hpos, hcontent⟩ := ih htail hlen (show 0 ≤ -((h.block b).readAvail - off) by omega) (by omega)
      rw [if_pos hmax]
      refine ⟨hsuf.trans (suffix_cons b bs), hpos, ?_⟩
      rw [hcontent, drop_content_skip hb (by omega)]
      congr 2
      omega
    · rw [if_neg hmax]
      by_cases hall : len ≥ (h.block b).readAvail - off
      · obtain ⟨hsuf, hpos, hcontent⟩ := ih htail
          (show 0 ≤ len - ((h.block b).readAvail - off) by omega) (le_refl 0) (by omega)
        rw [if_pos hall]
        refine ⟨hsuf.trans (suffix_cons b bs), hpos, ?_⟩
        rw [hcontent, drop_content_skip hb (by omega)]
        congr 2
        omega
      · rw [if_neg hall]
        exact ⟨suffix_rfl, by omega, rfl⟩

/-! ### `iobufferblock_clone` -/

/-- The heap `h` is `h₀` with the clones `C`, which are linked in this order. -/
structure Cloned (h₀ h : IOHeap) (C : List Nat) : Prop where
  next : h₀.nextBlock ≤ h.nextBlock
  byte : h.byte = h₀.byte
  old : ∀ b < h₀.nextBlock, h.block b = h₀.block b
  walk : Walk h.next C.head? C none
  new : ∀ c ∈ C, h₀.nextBlock ≤ c ∧ c < h.nextBlock

/-- `start_buf` and `current_buf` for the clones `C`. -/
def ends (C : List Nat) : Option (Nat × Nat) :=
  C.head?.bind fun start => C.getLast?.map fun current => (start, current)

variable {h₀ : IOHeap} {blk : IOBufferBlock}

theorem Cloned.refl (h : IOHeap) : Cloned h h [] :=
  ⟨le_rfl, rfl, fun _ _ => rfl, rfl, fun _ hc => absurd hc not_mem_nil⟩

theorem ends_concat (C : List Nat) (n : Nat) : ends (C ++ [n]) = some (((ends C).map Prod.fst).getD n, n) := by
  cases C with
  | nil => rfl
  | cons c C => simp [ends, getLast?_cons]

theorem ends_fst (C : List Nat) : (ends C).map Prod.fst = C.head? := by
  cases C with
  | nil => rfl
  | cons c C => simp [ends, getLast?_cons]

variable (made : Option (Nat × Nat))

theorem linkClone_nextBlock : (h.linkClone made blk).nextBlock = h.nextBlock + 1 := by cases made <;> rfl

theorem linkClone_byte : (h.linkClone made blk).byte = h.byte := by cases made <;> rfl

theorem linkClone_old (hb : b < h.nextBlock) (hne : b ∉ C.getLast?) :
    (h.linkClone (ends C) blk).block b = h.block b := by
  rcases eq_nil_or_concat' C with rfl | ⟨X, c, rfl⟩
  · exact newBlock_of_lt hb
  · rw [getLast?_concat, Option.mem_some_iff] at hne
    rw [ends_concat, linkClone, setNext_block, if_neg (Ne.symm hne), newBlock_of_lt hb]

theorem linkClone_bytes (hb : b < h.nextBlock) : (h.linkClone made blk).bytes b = h.bytes b := by
  cases made with
  | none => exact bytes_newBlock hb
  | some made => rw [linkClone, bytes_setNext, bytes_newBlock hb]

theorem linkClone_bytes_new :
    (h.linkClone made blk).bytes h.nextBlock = h.bytesAt blk.data blk.start blk.readAvail := by
  have hnew : (h.newBlock blk).bytes h.nextBlock = h.bytesAt blk.data blk.start blk.readAvail := by
    rw [bytes, newBlock_self]
    rfl
  cases made with
  | none => exact hnew
  | some made => rw [linkClone, bytes_setNext, hnew]

section
variable (hC : Cloned h₀ h C)

include hC

theorem Cloned.walk_link (hnext : blk.next = none) :
    Walk (h.linkClone (ends C) blk).next (C ++ [h.nextBlock]).head? (C ++ [h.nextBlock]) none := by
  rcases eq_nil_or_concat' C with rfl | ⟨X, c, rfl⟩
  · refine ⟨rfl, ?_⟩
    exact (congrArg IOBufferBlock.next newBlock_self).trans hnext
  · have hlt : ∀ b ∈ X ++ [c], b < h.nextBlock := fun b hb => (hC.new b hb).2
    have hhead : (X ++ [c] ++ [h.nextBlock]).head? = (X ++ [c]).head? := by cases X <;> rfl
    obtain ⟨d, hX, hc, -⟩ := Linked.walk_append.1 hC.walk
    have hnodup := hC.walk.nodup
    rw [hhead, append_assoc]
    refine Linked.walk_append.2 ⟨d, hX.congr fun b hb => ?_, hc, ?_, ?_⟩
    · have hne : c ≠ b := fun heq => by
        rw [← heq] at hb
        exact (nodup_append.1 hnodup).2.2 c hb c (by simp) rfl
      rw [IOHeap.next, linkClone_old (hlt b (by simp [hb])) (by simpa using hne)]
      rfl
    · rw [IOHeap.next, ends_concat, linkClone, setNext_block, if_pos rfl]
    · have hne : h.nextBlock ≠ c := (hlt c (by simp)).ne'
      rw [Linked.walk_nil, IOHeap.next, ends_concat, linkClone, setNext_block, if_neg hne, newBlock_self]
      exact hnext

theorem Cloned.link (blk : IOBufferBlock) (hnext : blk.next = none) :
    Cloned h₀ (h.linkClone (ends C) blk) (C ++ [h.nextBlock]) where
  next := by
    rw [linkClone_nextBlock]
    exact hC.next.trans (Nat.le_succ _)
  byte := (linkClone_byte _).trans hC.byte
  old b hb := by
    refine (linkClone_old (hb.trans_le hC.next) fun hlast => ?_).trans (hC.old b hb)
    exact absurd (hC.new b (mem_of_getLast? hlast)).1 (not_le.2 hb)
  walk := hC.walk_link hnext
  new c hc := by
    rw [linkClone_nextBlock]
    rcases mem_append.1 hc with hc | hc
    · exact ⟨(hC.new c hc).1, Nat.lt_succ_of_lt (hC.new c hc).2⟩
    · rw [mem_singleton.1 hc]
      exact ⟨hC.next, Nat.lt_succ_self _⟩

theorem Cloned.content_link (blk : IOBufferBlock) : (h.linkClone (ends C) blk).content (C ++ [h.nextBlock]) =
      h.content C ++ h.bytesAt blk.data blk.start blk.readAvail := by
  rw [content_append, content_singleton, linkClone_bytes_new]
  congr 1
  exact flatMap_congr fun c hc => linkClone_bytes _ (hC.new c hc).2

theorem Cloned.bytesAt_eq (data : Nat) (p n : Int) : h.bytesAt data p n = h₀.bytesAt data p n := by
  rw [bytesAt, bytesAt, hC.byte]

end

theorem readAvail_clonePart (blk : IOBufferBlock) (off n : Int) : (blk.clonePart off n).readAvail = n := by
  simp [IOBufferBlock.clonePart, IOBufferBlock.readAvail]

theorem cloneLoop_spec (hC : Cloned h₀ h C) (hord : h₀.Ordered bs)
    (hlt : ∀ b ∈ bs, b < h₀.nextBlock) (hoff : 0 ≤ off) (hlen : 0 ≤ len) :
    ∃ h' C', cloneLoop bs h (ends C) off len = (h', C'.head?) ∧ Cloned h₀ h' C' ∧
      h'.content C' = h.content C ++ h₀.slice bs off len := by
  induction bs generalizing h C off len with
  | nil => exact ⟨h, C, by rw [cloneLoop, ends_fst], hC, by simp⟩
  | cons b bs ih =>
    have hb := hord b (by simp)
    have htail : h₀.Ordered bs := fun b hb => hord b (by simp [hb])
    have hlt' : ∀ b ∈ bs, b < h₀.nextBlock := fun b hb => hlt b (by simp [hb])
    rw [cloneLoop, if_neg (by omega), hC.old b (hlt b (by simp))]
    dsimp only
    split_ifs with hmax
    · rw [slice_skip hb hmax]
      exact ih hC htail hlt' (by omega) hlen
    · rw [← ends_concat, slice_part hb hoff hlen (by omega)]
      obtain ⟨h', C', hrun, hC', hcontent⟩ := ih
        (hC.link ((h₀.block b).clonePart off (min len ((h₀.block b).readAvail - off))) rfl)
        htail hlt' le_rfl (show 0 ≤ len - min len ((h₀.block b).readAvail - off) by omega)
      refine ⟨h', C', hrun, hC', ?_⟩
      rw [hcontent, hC.content_link, readAvail_clonePart, hC.bytesAt_eq, append_assoc]
      rfl

/-! ### The three together -/

def Holds (h : IOHeap) (a : Option Nat) (l : List UInt8) : Prop :=
  ∃ bs, h.blocksFrom a = some bs ∧ h.content bs = l

def Extends (h h' : IOHeap) : Prop :=
  h.nextBlock ≤ h'.nextBlock ∧ h'.byte = h.byte ∧ ∀ b < h.nextBlock, h'.block b = h.block b

theorem iobufferblockClone_spec (hL : h.blocksFrom a = some L) (hlt : ∀ b ∈ L, b < h.nextBlock)
    (hord : h.Ordered L) (hoff : 0 ≤ off) (hn : 0 ≤ n) :
    ∃ h' c, h.iobufferblockClone a off n = some (h', c) ∧ h.Extends h' ∧ h'.Holds c (h.slice L off n) := by
  obtain ⟨h', C, hrun, hC, hcontent⟩ := cloneLoop_spec (Cloned.refl h) hord hlt hoff hn
  refine ⟨h', C.head?, ?_, ⟨hC.next, hC.byte, hC.old⟩, C, ?_, hcontent⟩
  · rw [iobufferblockClone, hL, Option.bind_eq_bind, bind_some, ← hrun]
    rfl
  · exact blocksFrom_of_walk hC.walk fun c hc => (hC.new c hc).2

theorem iobufferblockSkip_spec (hL : Walk h.next a L none) (hlt : ∀ b ∈ L, b < h.nextBlock)
    (hord : h.Ordered L) (hoff : 0 ≤ off) (hn : 0 ≤ n) (hle : off + n ≤ (h.content L).length) (len : Int) :
    ∃ c bs off', h.iobufferblockSkip a off len n = some (c, off', len - n) ∧ 0 ≤ off' ∧
      h.blocksFrom c = some bs ∧ bs <:+ L ∧ (h.content bs).drop off'.toNat = (h.content L).drop (off + n).toNat := by
  obtain ⟨hsuf, hpos, hcontent⟩ := skipBlocks_spec hord hn hoff hle
  refine ⟨_, _, _, ?_, hpos, blocksFrom_suffix hL hlt hsuf, hsuf, hcontent⟩
  rw [iobufferblockSkip, blocksFrom_of_walk hL hlt]
  rfl

/-- **Copy, clone and skip agree.** On a chain with the blocks `L`, the copy has the slice, if its
`int`s can hold the lengths; for blocks that share no memory it has it in general only then. The
clones have it at every length, and leave the chain as it is. Skipping leaves the content after the
slice, and what is cloned from there is what is cloned that much further on. -/
theorem copy_clone_skip_agree (hL : Walk h.next a L none) (hlt : ∀ b ∈ L, b < h.nextBlock)
    (hord : h.Ordered L) (hoff : 0 ≤ off) (hn : 0 ≤ n) (hle : off + n ≤ (h.content L).length) :
    (off < 2 ^ 31 → n < 2 ^ 31 → (∀ b ∈ L, (h.block b).readAvail < 2 ^ 31) →
      h.iobufferblockMemcpy n a off = some (h.slice L off n)) ∧
    (h.Separate L →
      ((∀ byte, { h with byte := byte }.MemcpyAgrees L) ↔ ∀ b ∈ L, (h.block b).readAvail < 2 ^ 31)) ∧
    (∃ h' c, h.iobufferblockClone a off n = some (h', c) ∧ h.Extends h' ∧ h'.Holds c (h.slice L off n)) ∧
    (∀ len, ∃ c bs off', h.iobufferblockSkip a off len n = some (c, off', len - n) ∧ 0 ≤ off' ∧
      h.blocksFrom c = some bs ∧ (h.content bs).drop off'.toNat = (h.content L).drop (off + n).toNat) ∧
    ∀ m len, 0 ≤ m → off + m + n ≤ (h.content L).length →
      ∃ c off' h₁ c₁ h₂ c₂, h.iobufferblockSkip a off len m = some (c, off', len - m) ∧
        h.iobufferblockClone c off' n = some (h₁, c₁) ∧ h.iobufferblockClone a (off + m) n = some (h₂, c₂) ∧
        h₁.Holds c₁ (h.slice L (off + m) n) ∧ h₂.Holds c₂ (h.slice L (off + m) n) := by
  have hblocks := blocksFrom_of_walk hL hlt
  refine ⟨fun hoff' hn' hsize => iobufferblockMemcpy_eq hblocks hord hsize hoff hoff' hn hn',
    memcpyAgrees_iff hL hlt hord, iobufferblockClone_spec hblocks hlt hord hoff hn, fun len => ?_,
    fun m len hm hle' => ?_⟩
  · obtain ⟨c, bs, off', hskip, hpos, hbs, -, hcontent⟩ :=
      iobufferblockSkip_spec hL hlt hord hoff hn hle len
    exact ⟨c, bs, off', hskip, hpos, hbs, hcontent⟩
  · obtain ⟨c, bs, off', hskip, hpos, hbs, hsuf, hcontent⟩ :=
      iobufferblockSkip_spec hL hlt hord hoff hm (by omega) len
    obtain ⟨h₁, c₁, hclone1, -, hholds1⟩ := iobufferblockClone_spec (n := n) hbs
      (fun b hb => hlt b (hsuf.subset hb)) (fun b hb => hord b (hsuf.subset hb)) hpos hn
    obtain ⟨h₂, c₂, hclone2, -, hholds2⟩ := iobufferblockClone_spec (n := n) hblocks hlt hord
      (show 0 ≤ off + m by omega) hn
    refine ⟨c, off', h₁, c₁, h₂, c₂, hskip, hclone1, hclone2, ?_, hholds2⟩
    rwa [slice, hcontent] at hholds1

def twoBlocks : IOHeap where
  block b := if b = 0 then ⟨0, 0, 2, 2, some 1⟩ else ⟨0, 2, 4, 4, none⟩
  nextBlock := 2
  byte _ i := UInt8.ofNat i.toNat
  nextData := 1

theorem copy_clone_skip_agree_twoBlocks : twoBlocks.iobufferblockMemcpy 2 (some 0) 1 = some [1, 2] ∧
    (∀ byte, { twoBlocks with byte := byte }.MemcpyAgrees [0, 1]) ∧
      ∃ h' c, twoBlocks.iobufferblockClone (some 0) 1 2 = some (h', c) ∧ h'.Holds c [1, 2] := by
  have hwalk : Walk twoBlocks.next (some 0) [0, 1] none := ⟨rfl, rfl, rfl⟩
  have hord : twoBlocks.Ordered [0, 1] := fun b _ => by
    rw [twoBlocks]
    dsimp only
    split <;> decide
  obtain ⟨hcopy, hagrees, ⟨h', c, hclone, -, hholds⟩, -⟩ := copy_clone_skip_agree hwalk (by decide) hord
    (show (0 : Int) ≤ 1 by decide) (show (0 : Int) ≤ 2 by decide) (by decide)
  have hsep : twoBlocks.Separate [0, 1] := by simp [Separate, twoBlocks]
  exact ⟨hcopy (by decide) (by decide) (by decide), (hagrees hsep).2 (by decide), h', c, hclone, hholds⟩

def hugeBlock : IOHeap where
  block _ := ⟨0, 0, 2 ^ 31 + 1, 2 ^ 31 + 1, none⟩
  nextBlock := 1
  byte _ _ := 0
  nextData := 1

/-- A block whose size an `int` cannot hold is skipped: of one byte nothing is copied. -/
theorem memcpy_skips_hugeBlock : Walk hugeBlock.next (some 0) [0] none ∧ hugeBlock.Ordered [0] ∧
      (0 : Int) + 1 ≤ (hugeBlock.content [0]).length ∧
      hugeBlock.slice [0] 0 1 = [0] ∧ hugeBlock.iobufferblockMemcpy 1 (some 0) 0 = some [] := by
  have hread : (hugeBlock.block 0).readAvail = 2 ^ 31 + 1 := rfl
  have hord : (hugeBlock.block 0).start ≤ (hugeBlock.block 0).endPos := by decide
  refine ⟨⟨rfl, rfl⟩, fun b _ => hord, ?_, ?_, by decide +kernel⟩
  · rw [content_singleton, length_bytes hord, hread]
    decide
  · have hpart := bytesAt_part (le_refl 0)
      (show (0 : Int) + 1 ≤ (hugeBlock.block 0).readAvail by rw [hread]; decide)
    rw [slice, content_singleton, ← hpart]
    rfl

end IOHeap

end TrafficServer
