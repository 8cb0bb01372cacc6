import TrafficServer.Lib.Linked
import TrafficServer.Cache.Segment

/-!
# Which list each slot is on

A `Layout` of a segment names the slots of every bucket chain and of the freelist, and for every
slot the one list it is on. It carries the proof that the links of the segment say so; that no list
has a cycle follows, since each of them ends. A slot is `loose` between the two halves of a move.

Every operation is made of four moves: out of a chain, onto the freelist, out of the freelist,
into a chain. Each is given here once, as the layout of the segment it leaves behind.
-/

namespace TrafficServer

open Linked

namespace Segment

section Fields
variable (sg : Segment) (i j o : Nat) (d : Dir)

def content : Content := (sg.dir i).content

@[simp] theorem setPrev_freelist : (sg.setPrev i o).freelist = sg.freelist := rfl

theorem set_dir : (sg.set i d).dir j = if j = i then d else sg.dir j := by simp [set, Function.update_apply]

theorem setNext_dir : (sg.setNext i o).dir j = if j = i then dirSetNext (sg.dir i) o else sg.dir j := set_dir ..

theorem setPrev_dir : (sg.setPrev i o).dir j = if j = i then dirSetPrev (sg.dir i) o else sg.dir j := set_dir ..

theorem nextDir_setNext : (sg.setNext i o).nextDir j = if j = i then dirFromOffset (o % 65536) else sg.nextDir j := by
  rw [nextDir, setNext_dir]
  split <;> simp [nextDir]

@[simp] theorem prevDir_setNext : (sg.setNext i o).prevDir j = sg.prevDir j := by
  rw [prevDir, setNext_dir]
  split <;> simp_all [prevDir]

@[simp] theorem setNext_content : (sg.setNext i o).content j = sg.content j := by
  rw [content, setNext_dir]
  split <;> simp_all [content]

@[simp] theorem setNext_offset : dirOffset ((sg.setNext i o).dir j) = dirOffset (sg.dir j) := by
  rw [setNext_dir]
  split <;> simp_all

@[simp] theorem nextDir_setPrev : (sg.setPrev i o).nextDir j = sg.nextDir j := by
  rw [nextDir, setPrev_dir]
  split <;> simp_all [nextDir]

theorem prevDir_setPrev : (sg.setPrev i o).prevDir j = if j = i then dirFromOffset (o % 65536) else sg.prevDir j := by
  rw [prevDir, setPrev_dir]
  split <;> simp [prevDir]

@[simp] theorem setPrev_offset : dirOffset ((sg.setPrev i o).dir j) = dirOffset (sg.dir j) := by
  rw [setPrev_dir]
  split <;> simp_all

end Fields

theorem dirFromOffset_pos {i : Nat} (h : 0 < i) : dirFromOffset i = some i := if_neg (by omega)

theorem dirFromOffset_eq_some {i j : Nat} : dirFromOffset i = some j ↔ i = j ∧ 0 < j := by
  simp only [dirFromOffset]
  split <;> simp <;> omega

theorem dirFromOffset_eq_none {i : Nat} : dirFromOffset i = none ↔ i = 0 := by simp [dirFromOffset]

end Segment

/-- The list a slot is on. -/
inductive Owner
  | chain (b : Nat)
  | free
  | loose
deriving DecidableEq, Repr

/-- The lists of a segment of `buckets` buckets, and the list of each slot. -/
structure Layout (buckets : Nat) (sg : Segment) where
  chain : Nat → List Nat
  free : List Nat
  own : Nat → Owner
  chain_walk : ∀ b < buckets, Walk sg.nextDir (some (dirBucket b)) (chain b) none
  mem_chain : ∀ b i, i ∈ chain b ↔ own i = .chain b
  chain_lt : ∀ i b, own i = .chain b → b < buckets
  free_walk : Walk sg.nextDir (dirFromOffset sg.freelist.toNat) free none
  free_back : Back sg.prevDir none free
  mem_free : ∀ i, i ∈ free ↔ own i = .free
  free_empty : ∀ i ∈ free, dirOffset (sg.dir i) = 0
  slot_lt : ∀ i, own i ≠ .loose → i < dirDepth * buckets

namespace Layout

open Segment Function

variable {buckets : Nat} {sg sg' : Segment} {b e p i : Nat} {l₁ l₂ : List Nat}

def Full (L : Layout buckets sg) : Prop := ∀ i < dirDepth * buckets, L.own i ≠ .loose

section Basic
variable (L : Layout buckets sg)
include L

theorem chain_nodup (hb : b < buckets) : (L.chain b).Nodup := (L.chain_walk b hb).nodup

theorem free_nodup : L.free.Nodup := L.free_walk.nodup

theorem chain_eq_cons (hb : b < buckets) : ∃ l, L.chain b = dirBucket b :: l := by
  have h := L.chain_walk b hb
  cases hl : L.chain b with
  | nil => simp [hl] at h
  | cons x l =>
    rw [hl] at h
    exact ⟨l, by rw [Option.some.inj h.head]⟩

theorem own_bucket (hb : b < buckets) : L.own (dirBucket b) = .chain b := by
  obtain ⟨l, hl⟩ := L.chain_eq_cons hb
  exact (L.mem_chain b _).1 (by simp [hl])

theorem not_mem_free (h : i ∈ L.chain b) : i ∉ L.free := by
  rw [L.mem_free, (L.mem_chain b i).1 h]
  simp

theorem chain_disjoint {b' : Nat} (hb : b ≠ b') (h : i ∈ L.chain b) : i ∉ L.chain b' := by
  rw [L.mem_chain, (L.mem_chain b i).1 h]
  simpa using hb

theorem mem_chain_lt (h : i ∈ L.chain b) : i < dirDepth * buckets := L.slot_lt i (by simp [(L.mem_chain b i).1 h])

theorem mem_free_lt (h : i ∈ L.free) : i < dirDepth * buckets := L.slot_lt i (by simp [(L.mem_free i).1 h])

theorem bucket_not_mem_free (hb : b < buckets) : dirBucket b ∉ L.free := by simp [L.mem_free, L.own_bucket hb]

end Basic

/-! ### What the moves write -/

section Writes
variable (sg : Segment) (n : Option Nat) (e i o : Nat)

@[simp] theorem setPrevAt_nextDir : (sg.setPrevAt n o).nextDir i = sg.nextDir i := by cases n <;> simp [setPrevAt]

theorem setPrevAt_prevDir : (sg.setPrevAt n o).prevDir i =
    if some i = n then dirFromOffset (o % 65536) else sg.prevDir i := by
  cases n <;> simp [setPrevAt, prevDir_setPrev]

@[simp] theorem setPrevAt_offset : dirOffset ((sg.setPrevAt n o).dir i) = dirOffset (sg.dir i) := by
  cases n <;> simp [setPrevAt]

theorem setPrevAt_dir (h : some i ≠ n) : (sg.setPrevAt n o).dir i = sg.dir i := by
  cases n with
  | none => rfl
  | some n => rw [setPrevAt, setPrev_dir, if_neg (by simpa using h)]

@[simp] theorem setPrevAt_freelist : (sg.setPrevAt n o).freelist = sg.freelist := by cases n <;> simp [setPrevAt]

theorem pushFree_nextDir : (sg.pushFree e).nextDir i =
    if i = e then dirFromOffset sg.freelist.toNat else sg.nextDir i := by
  refine (setPrevAt_nextDir ..).trans ?_
  rw [nextDir_setNext, Nat.mod_eq_of_lt sg.freelist.isLt]

theorem pushFree_prevDir : (sg.pushFree e).prevDir i =
    if some i = dirFromOffset sg.freelist.toNat then dirFromOffset (e % 65536) else sg.prevDir i := by
  refine (setPrevAt_prevDir ..).trans ?_
  rw [prevDir_setNext]

@[simp] theorem pushFree_offset : dirOffset ((sg.pushFree e).dir i) = dirOffset (sg.dir i) :=
  (setPrevAt_offset ..).trans (setNext_offset ..)

theorem pushFree_dir (he : i ≠ e) (hf : some i ≠ dirFromOffset sg.freelist.toNat) :
    (sg.pushFree e).dir i = sg.dir i := by
  refine (setPrevAt_dir _ _ _ _ hf).trans ?_
  rw [setNext_dir, if_neg he]

theorem skipFree_nextDir : (sg.skipFree e).nextDir i =
    if some i = sg.prevDir e then sg.nextDir e else sg.nextDir i := by
  unfold skipFree
  cases sg.prevDir e with
  | none => rfl
  | some p =>
    simp only [nextDir_setNext, Nat.mod_eq_of_lt (dirNext_lt _), Option.some.injEq]
    rfl

theorem skipFree_prevDir : (sg.skipFree e).prevDir i = sg.prevDir i := by
  unfold skipFree
  cases sg.prevDir e with
  | none => rfl
  | some p => exact prevDir_setNext ..

theorem skipFree_dir (h : some i ≠ sg.prevDir e) : (sg.skipFree e).dir i = sg.dir i := by
  unfold skipFree
  cases hp : sg.prevDir e with
  | none => rfl
  | some p => rw [setNext_dir, if_neg fun h' => h (by rw [hp, h'])]

theorem skipFree_offset : dirOffset ((sg.skipFree e).dir i) = dirOffset (sg.dir i) := by
  unfold skipFree
  cases sg.prevDir e with
  | none => rfl
  | some p => exact setNext_offset ..

theorem skipFree_freelist : dirFromOffset (sg.skipFree e).freelist.toNat =
    if sg.prevDir e = none then sg.nextDir e else dirFromOffset sg.freelist.toNat := by
  unfold skipFree
  cases sg.prevDir e <;> rfl

variable {sg e i}

theorem unlinkFromFreelist_prevDir (hp : sg.prevDir e ≠ some e) : (sg.unlinkFromFreelist e).prevDir i =
      if some i = sg.nextDir e then sg.prevDir e else sg.prevDir i := by
  have hnext : (sg.skipFree e).nextDir e = sg.nextDir e := by rw [skipFree_nextDir, if_neg hp.symm]
  have hprev : dirFromOffset (dirPrev ((sg.skipFree e).dir e) % 65536) = sg.prevDir e := by
    rw [Nat.mod_eq_of_lt (dirPrev_lt _)]
    exact skipFree_prevDir ..
  rw [unlinkFromFreelist, setPrevAt_prevDir, hnext, hprev, skipFree_prevDir]

theorem unlinkFromFreelist_nextDir : (sg.unlinkFromFreelist e).nextDir i =
    if some i = sg.prevDir e then sg.nextDir e else sg.nextDir i :=
  (setPrevAt_nextDir ..).trans (skipFree_nextDir ..)

theorem unlinkFromFreelist_dir (hp : sg.prevDir e ≠ some e) (hi : some i ≠ sg.prevDir e)
    (hi' : some i ≠ sg.nextDir e) : (sg.unlinkFromFreelist e).dir i = sg.dir i := by
  rw [unlinkFromFreelist, setPrevAt_dir, skipFree_dir _ _ _ hi]
  rwa [skipFree_nextDir, if_neg hp.symm]

theorem unlinkFromFreelist_freelist : dirFromOffset (sg.unlinkFromFreelist e).freelist.toNat =
    if sg.prevDir e = none then sg.nextDir e else dirFromOffset sg.freelist.toNat := by
  rw [unlinkFromFreelist, setPrevAt_freelist, skipFree_freelist]

theorem linkEntry_nextDir {b : Nat} : (sg.linkEntry b e).nextDir i =
    if i = b then dirFromOffset (e % 65536) else if i = e then sg.nextDir b else sg.nextDir i := by
  rw [linkEntry, nextDir_setNext, nextDir_setNext, Nat.mod_eq_of_lt (dirNext_lt _)]
  rfl

end Writes

/-! ### The four moves -/

section Moves
variable (L : Layout buckets sg)

/-- A store that keeps the links of the listed slots keeps the layout. -/
def congr (hnx : ∀ i, L.own i ≠ .loose → sg'.nextDir i = sg.nextDir i)
    (hfree : ∀ i ∈ L.free, sg'.prevDir i = sg.prevDir i ∧ dirOffset (sg'.dir i) = 0)
    (hf : sg'.freelist = sg.freelist) : Layout buckets sg' where
  chain := L.chain
  free := L.free
  own := L.own
  chain_walk b hb :=
    (L.chain_walk b hb).congr fun i hi => hnx i (by simp [(L.mem_chain b i).1 hi])
  mem_chain := L.mem_chain
  chain_lt := L.chain_lt
  free_walk := by
    rw [hf]
    exact L.free_walk.congr fun i hi => hnx i (by simp [(L.mem_free i).1 hi])
  free_back := L.free_back.congr fun i hi => (hfree i hi).1
  mem_free := L.mem_free
  free_empty i hi := (hfree i hi).2
  slot_lt := L.slot_lt

/-- Out of a chain: the entry before `e` takes over its successor. -/
def unlinkChain (hb : b < buckets) (hC : L.chain b = l₁ ++ p :: e :: l₂)
    (hp : sg'.nextDir p = sg.nextDir e)
    (hnx : ∀ i, i ≠ p → i ≠ e → sg'.nextDir i = sg.nextDir i)
    (hfree : ∀ i ∈ L.free, sg'.prevDir i = sg.prevDir i ∧ dirOffset (sg'.dir i) = 0)
    (hf : sg'.freelist = sg.freelist) : Layout buckets sg' :=
  have hnd : (l₁ ++ p :: e :: l₂).Nodup := hC ▸ L.chain_nodup hb
  have hmem : ∀ x, x ∈ l₁ ++ p :: l₂ ↔ x ∈ L.chain b ∧ x ≠ e := by
    intro x
    rw [hC]
    grind
  have hpe : p ∈ L.chain b ∧ e ∈ L.chain b := by simp [hC]
  have hother : ∀ {x}, x ∉ L.chain b → sg'.nextDir x = sg.nextDir x := fun hx =>
    hnx _ (fun h => hx (h ▸ hpe.1)) (fun h => hx (h ▸ hpe.2))
  { chain := update L.chain b (l₁ ++ p :: l₂)
    free := L.free
    own := update L.own e .loose
    chain_walk := by
      intro b' hb'
      by_cases h : b' = b
      · subst h
        rw [update_self]
        refine (hC ▸ L.chain_walk b' hb').unlink hp fun x hx => hnx x ?_ ?_
        all_goals rintro rfl; grind
      · rw [update_of_ne h]
        exact (L.chain_walk b' hb').congr fun x hx => hother (L.chain_disjoint h hx)
    mem_chain := by
      intro b' x
      have he := (L.mem_chain b e).1 hpe.2
      by_cases h : b' = b
      · subst h
        rw [update_self, hmem, L.mem_chain, update_apply]
        grind
      · rw [update_of_ne h, L.mem_chain, update_apply]
        grind
    chain_lt := by
      intro x b' h
      by_cases hx : x = e <;> simp [hx] at h
      exact L.chain_lt x b' h
    free_walk := by
      rw [hf]
      exact L.free_walk.congr fun x hx => hother fun h => L.not_mem_free h hx
    free_back := L.free_back.congr fun i hi => (hfree i hi).1
    mem_free := by
      intro x
      have he := (L.mem_chain b e).1 hpe.2
      by_cases hx : x = e <;> simp [hx, L.mem_free, he]
    free_empty := fun i hi => (hfree i hi).2
    slot_lt := by
      intro x h
      by_cases hx : x = e <;> simp [hx] at h
      exact L.slot_lt x h }

/-- Onto the freelist, in front. The code does not write the `prev` link of `e`, which has to be
null already. -/
def pushFree (hsmall : dirDepth * buckets ≤ 65536) (he : L.own e = .loose) (hpos : 0 < e)
    (hlt : e < dirDepth * buckets) (hoff : dirOffset (sg.dir e) = 0) (hpv : sg.prevDir e = none) :
    Layout buckets (sg.pushFree e) :=
  have hmod : e % 65536 = e := Nat.mod_eq_of_lt (by omega)
  have hnx : ∀ x, L.own x ≠ .loose → (sg.pushFree e).nextDir x = sg.nextDir x := by
    intro x hx
    rw [pushFree_nextDir, if_neg]
    rintro rfl
    exact hx he
  have hhead : L.free.head? = dirFromOffset sg.freelist.toNat := L.free_walk.head?_eq
  { chain := L.chain
    free := e :: L.free
    own := update L.own e .free
    chain_walk := fun b hb =>
      (L.chain_walk b hb).congr fun x hx => hnx x (by simp [(L.mem_chain b x).1 hx])
    mem_chain := by
      intro b x
      rw [L.mem_chain, update_apply]
      grind
    chain_lt := by
      intro x b h
      by_cases hx : x = e <;> simp [hx] at h
      exact L.chain_lt x b h
    free_walk := by
      have hfl : (sg.pushFree e).freelist.toNat = e := by simp [Segment.pushFree, hmod]
      rw [hfl, dirFromOffset_pos hpos]
      refine L.free_walk.push ?_ fun x hx => hnx x (by simp [(L.mem_free x).1 hx])
      rw [pushFree_nextDir, if_pos rfl]
    free_back := by
      have hnd := L.free_nodup
      refine L.free_back.push ?_ ?_ ?_
      · rw [pushFree_prevDir, ← hhead, hpv, if_neg]
        intro h
        simp [(L.mem_free e).1 (List.mem_of_head? h.symm)] at he
      · intro n hn
        rw [pushFree_prevDir, ← hhead, if_pos hn.symm, hmod, dirFromOffset_pos hpos]
      · intro x hx
        rw [pushFree_prevDir, ← hhead, if_neg]
        -- the first free slot does not occur again
        intro h
        cases hf : L.free with
        | nil => simp [hf] at hx
        | cons f F =>
          simp only [hf, List.head?_cons, Option.some.injEq, List.tail_cons] at h hx
          rw [hf, List.nodup_cons] at hnd
          exact hnd.1 (h ▸ hx)
    mem_free := by
      intro x
      rw [List.mem_cons, L.mem_free, update_apply]
      grind
    free_empty := by
      intro x hx
      rw [pushFree_offset]
      rcases List.mem_cons.1 hx with rfl | hx
      · exact hoff
      · exact L.free_empty x hx
    slot_lt := by
      intro x h
      by_cases hx : x = e
      · exact hx ▸ hlt
      · rw [update_of_ne hx] at h
        exact L.slot_lt x h }

def unlinkFree (hF : L.free = l₁ ++ e :: l₂) : Layout buckets (sg.unlinkFromFreelist e) :=
  have hnd : (l₁ ++ e :: l₂).Nodup := hF ▸ L.free_nodup
  have hprev : sg.prevDir e = l₁.getLast? := by
    have := (hF ▸ L.free_back : Back sg.prevDir none (l₁ ++ e :: l₂)).eq_getLast
    simpa using this
  have hnext : sg.nextDir e = l₂.head? := (hF ▸ L.free_walk : Walk _ _ (l₁ ++ e :: l₂) _).next_eq
  have hself : sg.prevDir e ≠ some e := by
    intro h
    rw [hprev] at h
    have := List.mem_of_getLast? h
    grind
  have he : L.own e = .free := (L.mem_free e).1 (by simp [hF])
  have hnx : ∀ x, x ∉ l₁ → (sg.unlinkFromFreelist e).nextDir x = sg.nextDir x := by
    intro x hx
    rw [unlinkFromFreelist_nextDir, if_neg]
    intro h
    rw [hprev] at h
    exact hx (List.mem_of_getLast? h.symm)
  { chain := L.chain
    free := l₁ ++ l₂
    own := update L.own e .loose
    chain_walk := by
      intro b hb
      refine (L.chain_walk b hb).congr fun x hx => hnx x fun hx' => ?_
      exact L.not_mem_free hx (by simp [hF, hx'])
    mem_chain := by
      intro b x
      rw [L.mem_chain, update_apply]
      grind
    chain_lt := by
      intro x b h
      by_cases hx : x = e <;> simp [hx] at h
      exact L.chain_lt x b h
    free_walk := by
      have hw : Walk sg.nextDir (dirFromOffset sg.freelist.toNat) (l₁ ++ e :: l₂) none :=
        hF ▸ L.free_walk
      rcases List.eq_nil_or_concat l₁ with rfl | ⟨l, p, rfl⟩
      · have hn : sg.prevDir e = none := hprev
        rw [unlinkFromFreelist_freelist, if_pos hn]
        exact hw.2.congr fun x _ => hnx x (by simp)
      · have hp : sg.prevDir e = some p := by simpa using hprev
        rw [unlinkFromFreelist_freelist, if_neg (by simp [hp])]
        simp only [List.concat_eq_append, List.append_assoc, List.cons_append, List.nil_append]
          at hw hnd ⊢
        refine hw.unlink ?_ fun x hx => ?_
        · rw [unlinkFromFreelist_nextDir, if_pos hp.symm]
        · rw [unlinkFromFreelist_nextDir, if_neg]
          rw [hp]
          grind
    free_back := by
      refine (hF ▸ L.free_back : Back sg.prevDir none (l₁ ++ e :: l₂)).unlink ?_ ?_
      · intro n hn
        rw [unlinkFromFreelist_prevDir hself, hnext, if_pos hn.symm]
      · intro x hx
        rw [unlinkFromFreelist_prevDir hself, hnext, if_neg]
        cases l₂ with
        | nil => simp
        | cons n l₂ => grind
    mem_free := by
      intro x
      have := L.mem_free x
      rw [hF] at this
      rw [update_apply]
      grind
    free_empty := by
      intro x hx
      refine (setPrevAt_offset ..).trans ((skipFree_offset ..).trans (L.free_empty x ?_))
      rw [hF]
      grind
    slot_lt := by
      intro x h
      by_cases hx : x = e <;> simp [hx] at h
      exact L.slot_lt x h }

def link (hsmall : dirDepth * buckets ≤ 65536) (hb : b < buckets)
    (hC : L.chain b = dirBucket b :: l₁) (he : L.own e = .loose) (hpos : 0 < e)
    (hlt : e < dirDepth * buckets) : Layout buckets (sg.linkEntry (dirBucket b) e) :=
  have hmod : e % 65536 = e := Nat.mod_eq_of_lt (by omega)
  have hne : e ≠ dirBucket b := by
    rintro rfl
    simp [L.own_bucket hb] at he
  have hnx : ∀ x, x ≠ dirBucket b → x ≠ e →
      (sg.linkEntry (dirBucket b) e).nextDir x = sg.nextDir x := by
    intro x h₁ h₂
    rw [linkEntry_nextDir, if_neg h₁, if_neg h₂]
  have hnd : (dirBucket b :: l₁).Nodup := hC ▸ L.chain_nodup hb
  have hne' : ∀ x, L.own x ≠ .loose → x ≠ e := by
    rintro x h rfl
    exact h he
  { chain := update L.chain b (dirBucket b :: e :: l₁)
    free := L.free
    own := update L.own e (.chain b)
    chain_walk := by
      intro b' hb'
      by_cases h : b' = b
      · subst h
        rw [update_self]
        have hw : Walk sg.nextDir (some (dirBucket b')) ([] ++ dirBucket b' :: l₁) none :=
          hC ▸ L.chain_walk b' hb'
        refine hw.insert ?_ ?_ fun x hx => hnx x ?_ (hne' x ?_)
        · rw [linkEntry_nextDir, if_pos rfl, hmod, dirFromOffset_pos hpos]
        · rw [linkEntry_nextDir, if_neg hne, if_pos rfl]
        · rintro rfl
          grind
        · have hx' : x ∈ L.chain b' := by
            rw [hC]
            exact List.mem_cons_of_mem _ hx
          simp [(L.mem_chain b' x).1 hx']
      · rw [update_of_ne h]
        refine (L.chain_walk b' hb').congr fun x hx => hnx x ?_ (hne' x ?_)
        · rintro rfl
          exact L.chain_disjoint h hx (by simp [hC])
        · simp [(L.mem_chain b' x).1 hx]
    mem_chain := by
      intro b' x
      have := L.mem_chain b' x
      by_cases h : b' = b
      · subst h
        rw [hC] at this
        rw [update_self, update_apply]
        grind
      · rw [update_of_ne h, this, update_apply]
        grind
    chain_lt := by
      intro x b' h
      by_cases hx : x = e
      · simp only [hx, update_self, Owner.chain.injEq] at h
        exact h ▸ hb
      · rw [update_of_ne hx] at h
        exact L.chain_lt x b' h
    free_walk := by
      refine L.free_walk.congr fun x hx => hnx x ?_ (hne' x (by simp [(L.mem_free x).1 hx]))
      rintro rfl
      exact L.bucket_not_mem_free hb hx
    free_back := L.free_back.congr fun x _ => by simp [linkEntry]
    mem_free := by
      intro x
      rw [L.mem_free, update_apply]
      grind
    free_empty := by
      intro x hx
      simpa [linkEntry] using L.free_empty x hx
    slot_lt := by
      intro x h
      by_cases hx : x = e
      · exact hx ▸ hlt
      · rw [update_of_ne hx] at h
        exact L.slot_lt x h }

end Moves

end Layout

end TrafficServer
