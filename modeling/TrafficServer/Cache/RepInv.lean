import TrafficServer.Cache.Part

/-!
# The directory invariant

The lists of a segment are read off its links (`bucketChain`, `freeChain`), and `RepInv` says of
them what the directory code relies on. A segment is well formed (`WF`) when it has a layout with
no loose slot and no empty entry inside a chain; that is the same thing seen from the layout, and
what each operation keeps. A run of a directory is any sequence of `DirOp`s, with the header
changing under it as it likes.
-/

namespace TrafficServer

open List Linked

namespace Segment

/-- The entries that `next_dir` visits from `e`, at most `n` of them. -/
def follow (sg : Segment) : Nat → Option Nat → List Nat
  | 0, _ => []
  | _ + 1, none => []
  | n + 1, some e => e :: sg.follow n (sg.nextDir e)

def bucketChain (buckets : Nat) (sg : Segment) (b : Nat) : List Nat :=
  sg.follow (dirDepth * buckets) (some (dirBucket b))

def freeChain (buckets : Nat) (sg : Segment) : List Nat :=
  sg.follow (dirDepth * buckets) (dirFromOffset sg.freelist.toNat)

/-- What bucket `b` says: the abstraction of the directory. -/
def contents (buckets : Nat) (sg : Segment) (b : Nat) : Multiset Content :=
  (live sg (sg.bucketChain buckets b) : Multiset Content)

/-- A probe from `last` has to start again at a bucket head that it deletes: no entry of the tag is at
the address of `last`, and the head has the tag and is not valid. -/
structure Stray (valid : Dir → Bool) (buckets base b tag : Nat) (last : Option Nat) (sg : Segment) : Prop where
  missing : ∃ c ∈ last, ∀ i ∈ sg.bucketChain buckets b, dirTag (sg.dir i) = tag → c ≠ base + i
  used : dirOffset (sg.dir (dirBucket b)) ≠ 0
  tagged : dirTag (sg.dir (dirBucket b)) = tag
  invalid : valid (sg.dir (dirBucket b)) = false

def dirFreelistLength (buckets : Nat) (sg : Segment) : Nat := (sg.freeChain buckets).length

def accountedUsed (buckets : Nat) (sg : Segment) : Nat :=
  ((List.range buckets).map fun bi =>
    (sg.bucketChain buckets bi).countP fun e => !dirIsEmpty (sg.dir e)).sum

def accountedEmpty (buckets : Nat) (sg : Segment) : Nat :=
  ((List.range buckets).map fun bi =>
    (sg.bucketChain buckets bi).countP fun e => dirIsEmpty (sg.dir e)).sum

/-- The representation invariant of one segment. -/
structure RepInv (buckets : Nat) (sg : Segment) : Prop where
  /-- Every chain starts at its row-0 entry and ends. -/
  chain_walk : ∀ b < buckets, Walk sg.nextDir (some (dirBucket b)) (sg.bucketChain buckets b) none
  chain_nodup : ∀ b < buckets, (sg.bucketChain buckets b).Nodup
  /-- The freelist ends, and is linked backwards from its first entry. -/
  free_walk : Walk sg.nextDir (dirFromOffset sg.freelist.toNat) (sg.freeChain buckets) none
  free_nodup : (sg.freeChain buckets).Nodup
  free_first : ∀ e ∈ dirFromOffset sg.freelist.toNat, dirPrev (sg.dir e) = 0
  free_back : ∀ e ∈ sg.freeChain buckets, ∀ n ∈ sg.nextDir e, dirPrev (sg.dir n) = e
  free_empty : ∀ e ∈ sg.freeChain buckets, dirOffset (sg.dir e) = 0
  /-- A row-0 entry is on its own chain only. -/
  head_own : ∀ b < buckets, ∀ b' < buckets, dirBucket b ∈ sg.bucketChain buckets b' → b' = b
  head_not_free : ∀ b < buckets, dirBucket b ∉ sg.freeChain buckets
  /-- Every entry of the segment is on exactly one list. -/
  one_list : ∀ e < dirDepth * buckets,
    (e ∉ sg.freeChain buckets ∧ ∃! b, b < buckets ∧ e ∈ sg.bucketChain buckets b) ∨
      (e ∈ sg.freeChain buckets ∧ ∀ b < buckets, e ∉ sg.bucketChain buckets b)
  in_segment : ∀ e, (e ∈ sg.freeChain buckets ∨ ∃ b < buckets, e ∈ sg.bucketChain buckets b) →
    e < dirDepth * buckets
  /-- Only a bucket head can be empty, and then it is alone. -/
  used : ∀ b < buckets, ∀ e ∈ sg.bucketChain buckets b, e ≠ dirBucket b → dirOffset (sg.dir e) ≠ 0
  empty_head : ∀ b < buckets, dirOffset (sg.dir (dirBucket b)) = 0 → dirNext (sg.dir (dirBucket b)) = 0

/-- A segment with a layout, all of whose slots are accounted for. -/
def WF (buckets : Nat) (sg : Segment) : Prop :=
  ∃ L : Layout buckets sg, L.Full ∧ ∀ b < buckets, L.Tight b

theorem follow_eq {sg : Segment} {l : List Nat} :
    ∀ {n : Nat} {a : Option Nat}, Walk sg.nextDir a l none → l.length ≤ n → sg.follow n a = l := by
  induction l with
  | nil =>
    rintro (_ | n) a h -
    · rfl
    · rw [walk_nil.1 h]
      rfl
  | cons x l ih =>
    rintro (_ | n) a h hn
    · simp at hn
    · rw [h.head, follow, ih h.2 (by simpa using hn)]

end Segment

namespace Layout

open Segment

variable {buckets b e : Nat} {sg : Segment} (L : Layout buckets sg)

theorem bucketChain_eq (hb : b < buckets) : sg.bucketChain buckets b = L.chain b :=
  follow_eq (L.chain_walk b hb) (L.chain_length_le hb)

theorem free_length_le : L.free.length ≤ dirDepth * buckets := by
  rw [← toFinset_card_of_nodup L.free_nodup, ← Finset.card_range (dirDepth * buckets)]
  exact Finset.card_le_card fun i hi => Finset.mem_range.2 (L.mem_free_lt (mem_toFinset.1 hi))

theorem freeChain_eq : sg.freeChain buckets = L.free := follow_eq L.free_walk L.free_length_le

theorem contents_eq (hb : b < buckets) : sg.contents buckets b = (live sg (L.chain b) : Multiset _) := by
  rw [contents, L.bucketChain_eq hb]

theorem freelist_ne_zero_iff : sg.freelist ≠ 0 ↔ L.free ≠ [] := by
  have hhead := L.free_walk.head?_eq
  have hzero : dirFromOffset sg.freelist.toNat = none ↔ sg.freelist = 0 := by
    rw [dirFromOffset_eq_none]
    exact ⟨fun h => BitVec.eq_of_toNat_eq h, fun h => by rw [h]; rfl⟩
  rw [ne_eq, ← hzero, ← hhead, head?_eq_none_iff]

theorem lists_perm (hfull : L.Full) :
    ((List.range buckets).flatMap L.chain ++ L.free).Perm (List.range (dirDepth * buckets)) := by
  refine (perm_ext_iff_of_nodup ?_ nodup_range).2 fun e => ?_
  · refine nodup_append'.2 ⟨nodup_flatMap.2 ⟨?_, ?_⟩, L.free_nodup, ?_⟩
    · exact fun b hb => L.chain_nodup (mem_range.1 hb)
    · exact nodup_range.imp fun hne e he he' => L.chain_disjoint hne he he'
    · intro e he
      obtain ⟨b, -, he⟩ := mem_flatMap.1 he
      exact L.not_mem_free he
  · simp only [mem_append, mem_flatMap, mem_range]
    constructor
    · rintro (⟨b, -, he⟩ | he)
      · exact L.mem_chain_lt he
      · exact L.mem_free_lt he
    · intro he
      cases hown : L.own e with
      | chain b => exact .inl ⟨b, L.chain_lt e b hown, (L.mem_chain b e).2 hown⟩
      | free => exact .inr ((L.mem_free e).2 hown)
      | loose => exact absurd hown (hfull e he)

end Layout

namespace Segment

variable {buckets b e : Nat} {sg : Segment}

theorem WF.one_list (h : sg.WF buckets) (he : e < dirDepth * buckets) :
    (e ∉ sg.freeChain buckets ∧ ∃! b, b < buckets ∧ e ∈ sg.bucketChain buckets b) ∨
      (e ∈ sg.freeChain buckets ∧ ∀ b < buckets, e ∉ sg.bucketChain buckets b) := by
  obtain ⟨L, hfull, -⟩ := h
  rw [L.freeChain_eq]
  cases hown : L.own e with
  | loose => exact absurd hown (hfull e he)
  | free =>
    refine .inr ⟨(L.mem_free e).2 hown, fun b hb => ?_⟩
    rw [L.bucketChain_eq hb, L.mem_chain, hown]
    simp
  | chain b =>
    have hb := L.chain_lt e b hown
    refine .inl ⟨by simp [L.mem_free, hown], b, ⟨hb, ?_⟩, ?_⟩
    · rw [L.bucketChain_eq hb, L.mem_chain, hown]
    · rintro b' ⟨hb', h⟩
      rw [L.bucketChain_eq hb', L.mem_chain, hown] at h
      exact (Owner.chain.inj h).symm

theorem WF.repInv (h : sg.WF buckets) : sg.RepInv buckets := by
  have hone := fun {e} => h.one_list (e := e)
  obtain ⟨L, hfull, htight⟩ := h
  have hchain : ∀ {b}, b < buckets → sg.bucketChain buckets b = L.chain b := L.bucketChain_eq
  have hfree := L.freeChain_eq
  refine
    { chain_walk := fun b hb => hchain hb ▸ L.chain_walk b hb
      chain_nodup := fun b hb => hchain hb ▸ L.chain_nodup hb
      free_walk := hfree ▸ L.free_walk
      free_nodup := hfree ▸ L.free_nodup
      one_list := fun e => hone
      free_first := ?_, free_back := ?_, free_empty := ?_, head_own := ?_, head_not_free := ?_
      in_segment := ?_, used := ?_, empty_head := ?_ }
  · intro e he
    have hhead : L.free.head? = some e := L.free_walk.head?_eq.trans he
    cases hF : L.free with
    | nil => simp [hF] at hhead
    | cons f F =>
      obtain rfl : f = e := by simpa [hF] using hhead
      have hback : Back sg.prevDir none (f :: F) := hF ▸ L.free_back
      exact dirFromOffset_eq_none.1 hback.1
  · intro e he n hn
    exact (dirFromOffset_eq_some.1 (L.free_back.prev_next L.free_walk (hfree ▸ he) hn)).1
  · exact fun e he => L.free_empty e (hfree ▸ he)
  · intro b hb b' hb' hmem
    rw [hchain hb', L.mem_chain, L.own_bucket hb] at hmem
    exact (Owner.chain.inj hmem).symm
  · exact fun b hb => hfree ▸ L.bucket_not_mem_free hb
  · rintro e (he | ⟨b, hb, he⟩)
    · exact L.mem_free_lt (hfree ▸ he)
    · exact L.mem_chain_lt (b := b) (hchain hb ▸ he)
  · intro b hb e he hne
    rw [hchain hb] at he
    rcases htight b hb with h | ⟨h, -⟩
    · exact h e he
    · rw [h, mem_singleton] at he
      exact absurd he hne
  · intro b hb h0
    obtain ⟨l, hl⟩ := L.chain_eq_cons hb
    rcases htight b hb with h | ⟨h, -⟩
    · exact absurd h0 (h _ (by simp [hl]))
    · exact dirFromOffset_eq_none.1 (L.next_eq hb (show L.chain b = [] ++ dirBucket b :: [] from h))

def ownerOf (buckets : Nat) (sg : Segment) (e : Nat) : Owner :=
  if e ∈ sg.freeChain buckets then .free
  else match (List.range buckets).find? fun b => e ∈ sg.bucketChain buckets b with
    | some b => .chain b
    | none => .loose

theorem ownerOf_free : sg.ownerOf buckets e = .free ↔ e ∈ sg.freeChain buckets := by
  unfold ownerOf
  split
  · simp_all
  · split <;> simp_all

theorem mem_of_ownerOf (h : sg.ownerOf buckets e = .chain b) : b < buckets ∧ e ∈ sg.bucketChain buckets b := by
  unfold ownerOf at h
  split at h
  · cases h
  · split at h
    · next hfind =>
      cases h
      exact ⟨by simpa using mem_of_find?_eq_some hfind, by simpa using find?_some hfind⟩
    · cases h

theorem RepInv.ownerOf_chain (h : sg.RepInv buckets) (hb : b < buckets)
    (he : e ∈ sg.bucketChain buckets b) : sg.ownerOf buckets e = .chain b := by
  obtain ⟨hf, b', -, huniq⟩ := (h.one_list e (h.in_segment e (.inr ⟨b, hb, he⟩))).resolve_right fun h' => h'.2 b hb he
  have hnone : sg.ownerOf buckets e ≠ .loose := by
    unfold ownerOf
    rw [if_neg hf]
    split
    · simp
    · next hfind => exact absurd he (by simpa using find?_eq_none.1 hfind b (by simpa using hb))
  cases ho : sg.ownerOf buckets e with
  | free => exact absurd (ownerOf_free.1 ho) hf
  | loose => exact absurd ho hnone
  | chain c => rw [huniq b ⟨hb, he⟩, huniq c (mem_of_ownerOf ho)]

/-- The lists of a segment that satisfies the invariant are a layout of it. -/
def RepInv.layout (h : sg.RepInv buckets) : Layout buckets sg where
  chain b := if b < buckets then sg.bucketChain buckets b else []
  free := sg.freeChain buckets
  own := sg.ownerOf buckets
  chain_walk b hb := by
    rw [if_pos hb]
    exact h.chain_walk b hb
  mem_chain b e := by
    refine ⟨fun he => ?_, fun ho => ?_⟩
    · split at he
      · exact h.ownerOf_chain ‹_› he
      · cases he
    · obtain ⟨hb, he⟩ := mem_of_ownerOf ho
      rwa [if_pos hb]
  chain_lt e b ho := (mem_of_ownerOf ho).1
  free_walk := h.free_walk
  free_back := by
    refine .of_walk h.free_walk (fun x hx => ?_) fun e he n hn => ?_
    · exact dirFromOffset_eq_none.2 (h.free_first x hx)
    · have hlt : e < dirDepth * buckets := h.in_segment e (.inl he)
      have hpos : 0 < e := by
        refine Nat.pos_of_ne_zero ?_
        rintro rfl
        exact h.head_not_free 0 (Nat.pos_of_mul_pos_left hlt) (by simpa [dirBucket] using he)
      exact dirFromOffset_eq_some.2 ⟨h.free_back e he n hn, hpos⟩
  mem_free e := ownerOf_free.symm
  free_empty := h.free_empty
  slot_lt e ho := by
    refine h.in_segment e ?_
    cases hown : sg.ownerOf buckets e with
    | free => exact .inl (ownerOf_free.1 hown)
    | loose => exact absurd hown ho
    | chain b => exact .inr ⟨b, mem_of_ownerOf hown⟩

theorem wf_iff_repInv : sg.WF buckets ↔ sg.RepInv buckets := by
  refine ⟨WF.repInv, fun h => ⟨h.layout, fun e he ho => ?_, fun b hb => ?_⟩⟩
  · rcases h.one_list e he with ⟨-, b, ⟨hb, hmem⟩, -⟩ | ⟨hf, -⟩
    · rw [show h.layout.own e = sg.ownerOf buckets e from rfl, h.ownerOf_chain hb hmem] at ho
      cases ho
    · rw [show h.layout.own e = sg.ownerOf buckets e from rfl, ownerOf_free.2 hf] at ho
      cases ho
  · have hC : h.layout.chain b = sg.bucketChain buckets b := if_pos hb
    by_cases h0 : dirOffset (sg.dir (dirBucket b)) = 0
    · refine .inr ⟨?_, h0⟩
      have hw := h.chain_walk b hb
      obtain ⟨l, hl⟩ := h.layout.chain_eq_cons hb
      rw [hC] at hl ⊢
      rw [hl] at hw ⊢
      have hnext : sg.nextDir (dirBucket b) = none := dirFromOffset_eq_none.2 (h.empty_head b hb h0)
      have hnil : l.head? = none := hw.2.head?_eq.trans hnext
      rw [head?_eq_none_iff.1 hnil]
    · refine .inl fun e he => ?_
      by_cases hne : e = dirBucket b
      · rwa [hne]
      · exact h.used b hb e (hC ▸ he) hne

theorem WF.accounted (h : sg.WF buckets) :
    sg.dirFreelistLength buckets + sg.accountedUsed buckets + sg.accountedEmpty buckets = dirDepth * buckets := by
  obtain ⟨L, hfull, -⟩ := h
  have hlen := (L.lists_perm hfull).length_eq
  rw [length_append, length_flatMap, length_range] at hlen
  have hsplit : sg.accountedUsed buckets + sg.accountedEmpty buckets =
      ((List.range buckets).map fun b => (L.chain b).length).sum := by
    rw [accountedUsed, accountedEmpty, ← sum_map_add]
    refine congrArg List.sum (map_congr_left fun b hb => ?_)
    rw [L.bucketChain_eq (mem_range.1 hb), length_eq_countP_add_countP (fun e => !dirIsEmpty (sg.dir e))]
    simp
  rw [add_assoc, hsplit, dirFreelistLength, L.freeChain_eq]
  omega

end Segment

end TrafficServer
