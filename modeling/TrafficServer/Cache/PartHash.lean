import TrafficServer.Cache.Disk
import TrafficServer.Lib.Lcg
import Mathlib.Algebra.BigOperators.Fin
import Mathlib.Algebra.Order.BigOperators.Group.Finset

/-!
# The hash table of a cache host record

`build_part_hash_table` gives each part whose disk is not bad a share of the 32707 slots in proportion
to its length, and fills the table by drawing slots at random until it hits an empty one. A draw ends
because the generator has full period, so that from every seed every slot comes up; the loop ends
because the shares add up to the number of empty slots.

A slot is an `unsigned short` and `0xFFFF` is the mark of an empty one. The index of a part that does
not fit is cut, or leaves its slots empty: so the table is right if and only if no part with a share has
such an index.
-/

namespace TrafficServer

open Function Finset Option

def partHashTableSize : Nat := 32707

def partHashEmpty : Nat := 65535

instance : NeZero partHashTableSize := ⟨by decide⟩

/-- What is read of a part: its length, which `Part::init` makes of store blocks, whether its disk is
bad, and the 64 bits that its `hash_id_md5` is folded to. -/
structure HashPart where
  len : Nat
  whole : storeBlockSize ∣ len
  diskBad : Bool
  hashFold : Nat

def HashPart.blocks (p : HashPart) : Nat := p.len / 512

abbrev PartHashTable := Fin partHashTableSize → Nat

def nextRand (seed : Nat) : Nat := (1103515145 * seed + 12345) % 2 ^ 32

variable {ttable : PartHashTable} {i : Fin partHashTableSize} {v w draws : Nat}

namespace PartHash

/-! ### The code -/

/-- The `do` loop: the first slot drawn that is empty, and the seed after it. -/
def drawSlot (ttable : PartHashTable) : Nat → Nat → Option (Fin partHashTableSize × Nat)
  | 0, _ => none
  | n + 1, seed =>
    let i := Fin.ofNat partHashTableSize (nextRand seed)
    if ttable i ≠ partHashEmpty then drawSlot ttable n (nextRand seed) else some (i, nextRand seed)

/-- The variables of the loop that fills the table, for `m` parts. -/
structure Fill (m : Nat) where
  d : Fin m
  forpart : Fin m → Nat
  rnd : Fin m → Nat
  ttable : PartHashTable
  left : Nat

variable {m : Nat}

theorem next_lt (d : Fin m) : (d + 1) % m < m := Nat.mod_lt _ d.pos

def next (d : Fin m) : Fin m := ⟨(d + 1) % m, next_lt d⟩

def Fill.place (st : Fill m) (mapping : Fin m → Nat) (i : Fin partHashTableSize) (seed : Nat) :
    Fill m where
  d := next st.d
  forpart := update st.forpart st.d (st.forpart st.d - 1)
  rnd := update st.rnd st.d seed
  ttable := update st.ttable i (mapping st.d % 2 ^ 16)
  left := st.left - 1

/-- The loop that fills the table; `draws` is the fuel of each `do` loop. -/
def fillLoop (mapping : Fin m → Nat) (draws : Nat) : Nat → Fill m → Option PartHashTable
  | 0, _ => none
  | n + 1, st =>
    if st.left = 0 then some st.ttable
    else if st.forpart st.d = 0 then fillLoop mapping draws n { st with d := next st.d }
    else
      match drawSlot st.ttable draws (st.rnd st.d) with
      | none => none
      | some (i, seed) => fillLoop mapping draws n (st.place mapping i seed)

theorem mod_lt_parts (hm : 0 < m) (i : Nat) : i % m < m := Nat.mod_lt i hm

def spread (hm : 0 < m) (forpart : Fin m → Nat) : Nat → Fin m → Nat
  | 0 => forpart
  | i + 1 =>
    let d : Fin m := ⟨i % m, mod_lt_parts hm i⟩
    update (spread hm forpart i) d (spread hm forpart i d + 1)

def usable (parts : List HashPart) : List (HashPart × Nat) :=
  parts.zipIdx.filter fun p => !p.1.diskBad

def numParts (parts : List HashPart) : Nat := (usable parts).length

section Parts
variable (parts : List HashPart)

def part (d : Fin (numParts parts)) : HashPart := ((usable parts).get d).1

def mapping (d : Fin (numParts parts)) : Nat := ((usable parts).get d).2

def total : Nat := ∑ d, (part parts d).blocks

def share (d : Fin (numParts parts)) : Nat :=
  partHashTableSize * (part parts d).blocks / total parts

def extra : Nat := ((partHashTableSize : Int) - ∑ d, (share parts d : Int)).toNat

end Parts

/-- `build_part_hash_table`; the inner `none` is the null pointer. -/
def buildPartHashTable (parts : List HashPart) (fuel : Nat) : Option (Option PartHashTable) :=
  if hm : 0 < numParts parts then
    (fillLoop (mapping parts) fuel fuel
      { d := ⟨0, hm⟩
        forpart := spread hm (share parts) (extra parts)
        rnd := fun d => (part parts d).hashFold % 2 ^ 32
        ttable := fun _ => partHashEmpty
        left := partHashTableSize }).map some
  else some none

/-! ### What the table is to be -/

def slots (ttable : PartHashTable) (v : Nat) : Nat := (univ.filter fun i => ttable i = v).card

def quota (parts : List HashPart) (d : Fin (numParts parts)) : Nat :=
  share parts d + if (d : Nat) < extra parts then 1 else 0

/-- The loops end, no slot is empty, each holds the index of a part whose disk is not bad, and each
such part has as many slots as its quota; the quotas add up to the size of the table. -/
def Exact (parts : List HashPart) : Prop :=
  ∃ ttable, (∃ fuel₀, ∀ fuel ≥ fuel₀, buildPartHashTable parts fuel = some (some ttable)) ∧
    (∀ i, ttable i ≠ partHashEmpty) ∧
    (∀ i, ∃ p, parts[ttable i]? = some p ∧ p.diskBad = false) ∧
    (∀ d, slots ttable (mapping parts d) = quota parts d) ∧
    ∑ d, quota parts d = partHashTableSize

/-! ### Drawing a slot -/

theorem drawSlot_none : ∀ {n seed : Nat}, drawSlot ttable n seed = none →
    ∀ k < n, ttable (Fin.ofNat partHashTableSize (nextRand^[k + 1] seed)) ≠ partHashEmpty := by
  intro n
  induction n with
  | zero => exact fun _ k hk => absurd hk (Nat.not_lt_zero k)
  | succ n ih =>
    intro seed hrun k hk
    rw [drawSlot] at hrun
    split at hrun
    · next hfull =>
      cases k with
      | zero => exact hfull
      | succ k => exact ih hrun k (by omega)
    · cases hrun

theorem drawSlot_empty : ∀ {n seed : Nat} {i : Fin partHashTableSize}
    {seed' : Nat}, drawSlot ttable n seed = some (i, seed') → ttable i = partHashEmpty := by
  intro n
  induction n with
  | zero => intro seed i seed' hrun; cases hrun
  | succ n ih =>
    intro seed i seed' hrun
    rw [drawSlot] at hrun
    split at hrun
    · exact ih hrun
    · next hfree =>
      obtain rfl := congrArg Prod.fst (some.inj hrun)
      exact not_not.1 hfree

theorem drawSlot_mono : ∀ {n n' seed : Nat} {r : Fin partHashTableSize × Nat},
    drawSlot ttable n seed = some r → n ≤ n' → drawSlot ttable n' seed = some r := by
  intro n
  induction n with
  | zero => intro n' seed r hrun; cases hrun
  | succ n ih =>
    intro n' seed r hrun hle
    obtain ⟨n', rfl⟩ := Nat.exists_eq_add_of_lt (lt_of_lt_of_le n.succ_pos hle)
    rw [drawSlot] at hrun ⊢
    split at hrun
    · next hfull => rw [if_pos hfull]; exact ih hrun (by omega)
    · next hfree => rw [if_neg hfree]; exact hrun

theorem exists_drawSlot (hi : ttable i = partHashEmpty) {n : Nat} (hn : 2 ^ 32 ≤ n) (seed : Nat) :
    ∃ r, drawSlot ttable n seed = some r := by
  by_contra hnone
  have hrun : drawSlot ttable n seed = none := by
    rw [← Option.not_isSome_iff_eq_none, isSome_iff_exists]
    exact hnone
  have hlt : (i : Nat) < 2 ^ 32 := lt_trans i.isLt (by decide)
  obtain ⟨k, hk, heq⟩ := Lcg.exists_iterate_eq (a := 1103515145) (c := 12345) (by decide) (by decide) 32
    (show nextRand seed < 2 ^ 32 from Nat.mod_lt _ (by decide)) hlt
  refine drawSlot_none hrun k (by omega) ?_
  have hdraw : nextRand^[k + 1] seed = i := by rw [iterate_succ_apply]; exact heq
  rw [hdraw, show Fin.ofNat partHashTableSize i = i from Fin.ext (Nat.mod_eq_of_lt i.isLt)]
  exact hi

/-! ### Counting slots -/

theorem slots_update_self (hv : ttable i ≠ v) : slots (update ttable i v) v = slots ttable v + 1 := by
  have hset : (univ.filter fun j => update ttable i v j = v) = insert i (univ.filter fun j => ttable j = v) := by
    ext j
    by_cases hj : j = i
    · simp [hj]
    · simp [hj]
  rw [slots, hset, card_insert_of_notMem (by simpa using hv)]
  rfl

theorem slots_update_old (hw : ttable i = w) (hvw : v ≠ w) : slots (update ttable i v) w + 1 = slots ttable w := by
  have hset : (univ.filter fun j => update ttable i v j = w) = (univ.filter fun j => ttable j = w).erase i := by
    ext j
    by_cases hj : j = i
    · simp [hj, hvw]
    · simp [hj]
  rw [slots, hset]
  exact card_erase_add_one (by simpa using hw)

theorem slots_update_other (hw : ttable i ≠ w) (hvw : v ≠ w) : slots (update ttable i v) w = slots ttable w := by
  refine congrArg card (filter_congr fun j _ => ?_)
  by_cases hj : j = i
  · subst hj
    simp [hw, hvw]
  · rw [update_of_ne hj]

theorem slots_eq_zero : slots ttable v = 0 ↔ ∀ i, ttable i ≠ v := by simp [slots, filter_eq_empty_iff]

/-! ### Filling the table -/

/-- What holds of the variables at the head of the loop: the empty slots are those still to be given
away, and what a part has and is to get makes up its quota. -/
structure Filling (mapping quota : Fin m → Nat) (st : Fill m) : Prop where
  sum : ∑ d, st.forpart d = st.left
  empties : slots st.ttable partHashEmpty = st.left
  le : ∀ d, st.forpart d ≤ quota d
  counts : ∀ d, mapping d ≠ partHashEmpty → slots st.ttable (mapping d) + st.forpart d = quota d
  held : ∀ i, st.ttable i = partHashEmpty ∨ ∃ d, st.ttable i = mapping d

structure Filled (mapping quota : Fin m → Nat) (ttable : PartHashTable) : Prop where
  full : ∀ i, ttable i ≠ partHashEmpty
  held : ∀ i, ∃ d, ttable i = mapping d
  counts : ∀ d, slots ttable (mapping d) = quota d

variable {mapping quota : Fin m → Nat} {st : Fill m}

theorem Filling.skip (h : Filling mapping quota st) (d : Fin m) : Filling mapping quota { st with d := d } :=
  ⟨h.sum, h.empties, h.le, h.counts, h.held⟩

variable {f : Fin m → Nat}

theorem sum_update_pred {d : Fin m} (hd : f d ≠ 0) : ∑ x, update f d (f d - 1) x + 1 = ∑ x, f x := by
  rw [sum_update_of_mem (mem_univ d), ← add_sum_erase _ f (mem_univ d), sdiff_singleton_eq_erase]
  omega

section
variable (h : Filling mapping quota st)

include h

theorem Filling.place (hinj : Function.Injective mapping)
    (hfit : ∀ d, quota d ≠ 0 → mapping d < partHashEmpty) (hd : st.forpart st.d ≠ 0)
    (hi : st.ttable i = partHashEmpty) (seed : Nat) : Filling mapping quota (st.place mapping i seed) := by
  have hle := h.le st.d
  have hlt : mapping st.d < partHashEmpty := hfit st.d (by omega)
  have hcut : mapping st.d % 2 ^ 16 = mapping st.d := by
    rw [partHashEmpty] at hlt
    omega
  have hsum := sum_update_pred hd
  have hold := slots_update_old hi hlt.ne
  have hleft := h.sum
  have hempties := h.empties
  refine ⟨?_, ?_, ?_, ?_, ?_⟩
  · show ∑ d, update st.forpart st.d _ d = st.left - 1
    omega
  · show slots (update st.ttable i (mapping st.d % 2 ^ 16)) partHashEmpty = st.left - 1
    rw [hcut]
    omega
  · intro d
    show update st.forpart st.d (st.forpart st.d - 1) d ≤ quota d
    by_cases hdd : d = st.d
    · rw [hdd, update_self]
      omega
    · rw [update_of_ne hdd]
      exact h.le d
  · intro d hne
    have hcount := h.counts d hne
    show slots (update st.ttable i (mapping st.d % 2 ^ 16)) (mapping d) +
      update st.forpart st.d (st.forpart st.d - 1) d = quota d
    rw [hcut]
    by_cases hdd : d = st.d
    · rw [hdd] at hcount ⊢
      rw [update_self, slots_update_self (by rw [hi]; exact hlt.ne')]
      omega
    · rw [update_of_ne hdd, slots_update_other (by rw [hi]; exact hne.symm) fun heq => hdd (hinj heq).symm]
      exact hcount
  · intro j
    show update st.ttable i (mapping st.d % 2 ^ 16) j = partHashEmpty ∨
      ∃ d, update st.ttable i (mapping st.d % 2 ^ 16) j = mapping d
    by_cases hj : j = i
    · rw [hj, update_self, hcut]
      exact .inr ⟨_, rfl⟩
    · rw [update_of_ne hj]
      exact h.held j

theorem Filling.filled (hfit : ∀ d, quota d ≠ 0 → mapping d < partHashEmpty) (hleft : st.left = 0) :
    Filled mapping quota st.ttable := by
  have hfull : ∀ i, st.ttable i ≠ partHashEmpty := slots_eq_zero.1 (h.empties.trans hleft)
  have hzero : ∀ d, st.forpart d = 0 := fun d => sum_eq_zero_iff.1 (h.sum.trans hleft) d (mem_univ d)
  refine ⟨hfull, fun i => (h.held i).resolve_left (hfull i), fun d => ?_⟩
  by_cases hd : mapping d = partHashEmpty
  · have hquota : quota d = 0 := by
      by_contra hq
      exact (hfit d hq).ne hd
    rw [hd, hquota]
    exact slots_eq_zero.2 hfull
  · rw [← h.counts d hd, hzero d, add_zero]

theorem exists_turn (hleft : st.left ≠ 0) : ∃ j, st.forpart (next^[j] st.d) ≠ 0 := by
  obtain ⟨x, -, hx⟩ := exists_ne_zero_of_sum_ne_zero (h.sum.trans_ne hleft)
  refine ⟨x + m - st.d, ?_⟩
  have hturn : ∀ (j : Nat) (d : Fin m), ((next^[j] d : Fin m) : Nat) = (d + j) % m := by
    intro j
    induction j with
    | zero => exact fun d => (Nat.mod_eq_of_lt d.isLt).symm
    | succ j ih =>
      intro d
      rw [iterate_succ_apply, ih]
      show ((d + 1) % m + j) % m = _
      rw [Nat.mod_add_mod, add_assoc, add_comm 1 j]
  have hx' : next^[x + m - st.d] st.d = x := by
    refine Fin.ext ((hturn _ _).trans ?_)
    rw [show (st.d : Nat) + (x + m - st.d) = x + m by omega, Nat.add_mod_right]
    exact Nat.mod_eq_of_lt x.isLt
  rw [hx']
  exact hx

end

theorem fillLoop_mono {draws' : Nat} (hdraws : draws ≤ draws') :
    ∀ {n n' : Nat} {st : Fill m} {ttable : PartHashTable},
      fillLoop mapping draws n st = some ttable → n ≤ n' → fillLoop mapping draws' n' st = some ttable := by
  intro n
  induction n with
  | zero => intro n' st ttable hrun; cases hrun
  | succ n ih =>
    intro n' st ttable hrun hle
    obtain ⟨n', rfl⟩ := Nat.exists_eq_add_of_lt (lt_of_lt_of_le n.succ_pos hle)
    rw [fillLoop] at hrun ⊢
    split at hrun
    · next hleft => rw [if_pos hleft]; exact hrun
    · next hleft =>
      rw [if_neg hleft]
      split at hrun
      · next hd => rw [if_pos hd]; exact ih hrun (by omega)
      · next hd =>
        rw [if_neg hd]
        cases hdraw : drawSlot st.ttable draws (st.rnd st.d) with
        | none => rw [hdraw] at hrun; cases hrun
        | some r =>
          rw [hdraw] at hrun
          rw [drawSlot_mono hdraw hdraws]
          exact ih hrun (by omega)

theorem exists_fillLoop (hinj : Function.Injective mapping)
    (hfit : ∀ d, quota d ≠ 0 → mapping d < partHashEmpty) (hdraws : 2 ^ 32 ≤ draws)
    (left : Nat) : ∀ {st : Fill m}, Filling mapping quota st → st.left = left →
      ∃ n ttable, fillLoop mapping draws n st = some ttable ∧ Filled mapping quota ttable := by
  induction left with
  | zero =>
    intro st h hleft
    exact ⟨1, st.ttable, if_pos hleft, h.filled hfit hleft⟩
  | succ left ih =>
    have hplace : ∀ {st : Fill m}, Filling mapping quota st → st.left = left + 1 →
        st.forpart st.d ≠ 0 → ∃ n ttable, fillLoop mapping draws n st = some ttable ∧
          Filled mapping quota ttable := by
      intro st h hleft hd
      obtain ⟨i, hi⟩ : ∃ i, st.ttable i = partHashEmpty := by
        by_contra hnone
        have := slots_eq_zero.2 fun i hi => hnone ⟨i, hi⟩
        have := h.empties
        omega
      obtain ⟨⟨i', seed⟩, hdraw⟩ := exists_drawSlot hi hdraws (st.rnd st.d)
      obtain ⟨n, ttable, hrun, hfilled⟩ := ih (h.place hinj hfit hd (drawSlot_empty hdraw) seed)
        (show st.left - 1 = left by omega)
      refine ⟨n + 1, ttable, ?_, hfilled⟩
      rw [fillLoop, if_neg (by omega), if_neg hd, hdraw]
      exact hrun
    intro st h hleft
    obtain ⟨j, hj⟩ := exists_turn h (by omega)
    -- the parts before the next one that is to get a slot are passed over
    induction j generalizing st with
    | zero => exact hplace h hleft hj
    | succ j ihj =>
      by_cases hd : st.forpart st.d = 0
      · obtain ⟨n, ttable, hrun, hfilled⟩ := ihj (h.skip (next st.d)) hleft hj
        refine ⟨n + 1, ttable, ?_, hfilled⟩
        rw [fillLoop, if_neg (by omega), if_pos hd]
        exact hrun
      · exact hplace h hleft hd

/-! ### The shares -/

theorem sum_update_succ {d : Fin m} : ∑ x, update f d (f d + 1) x = ∑ x, f x + 1 := by
  rw [sum_update_of_mem (mem_univ d), ← add_sum_erase _ f (mem_univ d), sdiff_singleton_eq_erase]
  omega

theorem spread_sum (hm : 0 < m) (f : Fin m → Nat) (k : Nat) : ∑ d, spread hm f k d = ∑ d, f d + k := by
  induction k with
  | zero => rfl
  | succ k ih => rw [spread, sum_update_succ, ih, add_assoc]

theorem spread_eq (hm : 0 < m) (f : Fin m → Nat) {k : Nat} (hk : k ≤ m) (d : Fin m) :
    spread hm f k d = f d + if (d : Nat) < k then 1 else 0 := by
  induction k with
  | zero => rw [if_neg (Nat.not_lt_zero _)]; rfl
  | succ k ih =>
    have hmod : k % m = k := Nat.mod_eq_of_lt hk
    have hrec := ih (by omega)
    rw [spread]
    by_cases hd : (d : Nat) = k
    · rw [show (⟨k % m, mod_lt_parts hm k⟩ : Fin m) = d from Fin.ext (hmod.trans hd.symm),
        update_self, hrec, if_neg (by omega), if_pos (by omega)]
    · rw [update_of_ne fun heq => hd ((congrArg Fin.val heq).trans hmod), hrec]
      exact congrArg _ (if_congr (by omega) rfl rfl)

variable {parts : List HashPart}

theorem sum_share_mul_le : (∑ d, share parts d) * total parts ≤ partHashTableSize * total parts := by
  rw [sum_mul, total, mul_sum]
  exact sum_le_sum fun d _ => Nat.div_mul_le_self ..

theorem lt_sum_share_mul (hm : 0 < numParts parts) (htotal : 0 < total parts) :
    partHashTableSize * total parts < (∑ d, share parts d + numParts parts) * total parts := by
  have hne : (univ : Finset (Fin (numParts parts))).Nonempty := ⟨⟨0, hm⟩, mem_univ _⟩
  calc partHashTableSize * total parts = ∑ d, partHashTableSize * (part parts d).blocks := by rw [total, mul_sum]
    _ < ∑ d, (share parts d + 1) * total parts := by
        refine sum_lt_sum_of_nonempty hne fun d _ => ?_
        rw [add_mul, one_mul]
        exact Nat.lt_div_mul_add htotal
    _ = (∑ d, share parts d + numParts parts) * total parts := by
        rw [← sum_mul, sum_add_distrib, sum_const, card_univ, Fintype.card_fin, smul_eq_mul, mul_one]

theorem extra_spec (hm : 0 < numParts parts) (htotal : 0 < total parts) :
    ∑ d, share parts d + extra parts = partHashTableSize ∧ extra parts < numParts parts := by
  have hle : ∑ d, share parts d ≤ partHashTableSize := Nat.le_of_mul_le_mul_right sum_share_mul_le htotal
  have hlt : partHashTableSize < ∑ d, share parts d + numParts parts :=
    Nat.lt_of_mul_lt_mul_right (lt_sum_share_mul hm htotal)
  have hcast : ∑ d, (share parts d : Int) = ((∑ d, share parts d : Nat) : Int) := by push_cast; rfl
  rw [extra, hcast]
  omega

theorem mem_usable {p : HashPart × Nat} : p ∈ usable parts ↔ parts[p.2]? = some p.1 ∧ p.1.diskBad = false := by
  rw [usable, List.mem_filter, List.mem_zipIdx_iff_getElem?, Bool.not_eq_true']

theorem mapping_usable (d : Fin (numParts parts)) :
    parts[PartHash.mapping parts d]? = some (part parts d) ∧ (part parts d).diskBad = false :=
  mem_usable.1 (List.get_mem (usable parts) d)

theorem mapping_injective (parts : List HashPart) : Function.Injective (PartHash.mapping parts) := by
  have hnodup : ((usable parts).map Prod.snd).Nodup := by
    refine List.Nodup.sublist (List.filter_sublist.map Prod.snd) ?_
    rw [List.zipIdx_map_snd]
    exact List.nodup_range'
  intro d d' heq
  exact (List.nodup_iff_injective_get.1 hnodup.of_map)
    (List.inj_on_of_nodup_map hnodup (List.get_mem _ d) (List.get_mem _ d') heq)

theorem total_pos (hm : 0 < numParts parts) (hpos : ∀ p ∈ parts, p.diskBad = false → 0 < p.len) :
    0 < total parts := by
  refine sum_pos (fun d _ => ?_) ⟨⟨0, hm⟩, mem_univ _⟩
  obtain ⟨hmem, hbad⟩ := mapping_usable d
  have hlen := hpos _ (List.mem_of_getElem? hmem) hbad
  have hle := Nat.le_of_dvd hlen (part parts d).whole
  rw [storeBlockSize] at hle
  exact Nat.div_pos (by omega) (by decide)

theorem fillLoop_lt {mapping : Fin m → Nat} : ∀ {n : Nat} {st : Fill m}
    {ttable : PartHashTable}, fillLoop mapping draws n st = some ttable →
      (∀ i, st.ttable i < 2 ^ 16) → ∀ i, ttable i < 2 ^ 16 := by
  intro n
  induction n with
  | zero => intro st ttable hrun; cases hrun
  | succ n ih =>
    intro st ttable hrun hlt
    rw [fillLoop] at hrun
    split at hrun
    · obtain rfl := some.inj hrun
      exact hlt
    · split at hrun
      · exact ih hrun hlt
      · split at hrun
        · cases hrun
        · refine ih hrun fun i => ?_
          show update st.ttable _ _ i < _
          rw [update_apply]
          split
          · exact Nat.mod_lt _ (by decide)
          · exact hlt i

theorem Exact.fits (h : Exact parts) (d : Fin (numParts parts)) (hd : PartHash.quota parts d ≠ 0) :
    PartHash.mapping parts d < partHashEmpty := by
  obtain ⟨ttable, ⟨fuel, hrun⟩, hfull, -, hcounts, -⟩ := h
  obtain ⟨i, hi⟩ : ∃ i, ttable i = PartHash.mapping parts d := by
    by_contra hnone
    exact hd ((hcounts d).symm.trans (slots_eq_zero.2 fun i hi => hnone ⟨i, hi⟩))
  have hlt : ttable i < 2 ^ 16 := by
    have hbuild := hrun fuel le_rfl
    rw [buildPartHashTable, dif_pos d.pos] at hbuild
    obtain ⟨t, ht, heq⟩ := map_eq_some_iff.1 hbuild
    obtain rfl := some.inj heq
    exact fillLoop_lt ht (fun _ => (by decide : partHashEmpty < 2 ^ 16)) i
  have hne := hfull i
  rw [← hi]
  rw [partHashEmpty] at hne ⊢
  omega

/-- **The table is exact if and only if no part with a share has an index that a slot cannot hold.** -/
theorem exact_iff (hne : usable parts ≠ []) (hpos : ∀ p ∈ parts, p.diskBad = false → 0 < p.len) :
    Exact parts ↔ ∀ d, PartHash.quota parts d ≠ 0 → PartHash.mapping parts d < partHashEmpty := by
  refine ⟨Exact.fits, fun hfit => ?_⟩
  have hm : 0 < numParts parts := List.length_pos_iff.2 hne
  obtain ⟨hsum, hlt⟩ := extra_spec hm (total_pos hm hpos)
  have hspread : ∀ d, spread hm (share parts) (extra parts) d = quota parts d :=
    spread_eq hm (share parts) hlt.le
  have hquota : ∑ d, quota parts d = partHashTableSize := by
    rw [← sum_congr rfl fun d _ => hspread d, spread_sum, hsum]
  have hempty : slots (fun _ => partHashEmpty) partHashEmpty = partHashTableSize := by
    rw [slots, filter_true_of_mem (fun _ _ => rfl), card_univ, Fintype.card_fin]
  have hstart : Filling (mapping parts) (quota parts)
      { d := ⟨0, hm⟩
        forpart := spread hm (share parts) (extra parts)
        rnd := fun d => (part parts d).hashFold % 2 ^ 32
        ttable := fun _ => partHashEmpty
        left := partHashTableSize } := by
    refine ⟨(spread_sum ..).trans hsum, hempty, fun d => (hspread d).le, fun d hd => ?_,
      fun _ => .inl rfl⟩
    rw [slots_eq_zero.2 fun _ => hd.symm, zero_add]
    exact hspread d
  obtain ⟨n, ttable, hrun, hfilled⟩ :=
    exists_fillLoop (mapping_injective parts) hfit le_rfl partHashTableSize hstart rfl
  refine ⟨ttable, ⟨max n (2 ^ 32), fun fuel hfuel => ?_⟩, hfilled.full, fun i => ?_, hfilled.counts,
    hquota⟩
  · rw [buildPartHashTable, dif_pos hm, fillLoop_mono (le_trans (le_max_right ..) hfuel) hrun
      (le_trans (le_max_left ..) hfuel)]
    rfl
  · obtain ⟨d, hd⟩ := hfilled.held i
    rw [hd]
    exact ⟨_, mapping_usable d⟩

theorem mapping_lt (d : Fin (numParts parts)) : PartHash.mapping parts d < parts.length := by
  have h := (mapping_usable d).1
  exact (List.getElem?_eq_some_iff.1 h).1

def oneBlock (diskBad : Bool) : HashPart := ⟨8192, Nat.dvd_refl _, diskBad, 0⟩

theorem oneBlock_usable (parts : List HashPart) : usable (parts ++ [oneBlock false]) ≠ [] := by
  have hlast : (parts ++ [oneBlock false])[parts.length]? = some (oneBlock false) := List.getElem?_concat_length
  exact List.ne_nil_of_mem (a := (oneBlock false, parts.length)) (mem_usable.2 ⟨hlast, rfl⟩)

theorem exact_iff_two : Exact [oneBlock true, oneBlock false] :=
  (exact_iff (oneBlock_usable [oneBlock true]) fun p hp _ => by
    rcases List.mem_pair.1 hp with rfl | rfl <;> decide).2
    fun d _ => lt_trans (mapping_lt d) (by decide)

/-- Behind 65535 parts on bad disks the index of a part is the mark of an empty slot. -/
theorem lastIndex_not_exact : let parts := List.replicate 65535 (oneBlock true) ++ [oneBlock false]
    usable parts ≠ [] ∧ (∀ p ∈ parts, 0 < p.len) ∧ ¬ Exact parts := by
  intro parts
  refine ⟨oneBlock_usable _, fun p hp => ?_, fun h => ?_⟩
  · rcases List.mem_append.1 hp with hp | hp
    · exact List.eq_of_mem_replicate hp ▸ by decide
    · exact List.mem_singleton.1 hp ▸ by decide
  · obtain ⟨d, -, hd⟩ : ∃ d ∈ univ, quota parts d ≠ 0 := by
      obtain ⟨ttable, -, -, -, -, hsum⟩ := h
      exact Finset.exists_ne_zero_of_sum_ne_zero (hsum.trans_ne (by decide))
    have hlt : PartHash.mapping parts d < 65535 := h.fits d hd
    obtain ⟨hpart, hgood⟩ := mapping_usable d
    rw [List.getElem?_append_left (by rw [List.length_replicate]; exact hlt),
      List.getElem?_replicate, if_pos hlt] at hpart
    rw [← some.inj hpart] at hgood
    cases hgood

end PartHash

end TrafficServer
