import Mathlib
import TrafficServer.Cache.Disk

/-!
# Blocks and queues of the partition table

`Blocks` says that the blocks of the table lie apart, and `PartsOk` that there is a queue for every
partition number with the used blocks of that number. Taking a block out of a free one (`Carved`) and
giving the blocks of a partition back (`freed`) keep both.
-/

namespace TrafficServer

open List DiskPart

variable {info info' : Nat → DiskPartBlock} {n n' : Nat} {parts : List DiskPart} {q i : Nat}

def lenSum (info : Nat → DiskPartBlock) (l : List Nat) : Int := ((l.map fun i => (info i).len).sum : Nat)

theorem lenSum_append (l1 l2 : List Nat) : lenSum info (l1 ++ l2) = lenSum info l1 + lenSum info l2 := by
  simp [lenSum]

@[simp] theorem lenSum_nil : lenSum info [] = 0 := rfl

@[simp] theorem lenSum_singleton (i : Nat) : lenSum info [i] = (info i).len := by simp [lenSum]

variable {l : List Nat}

theorem lenSum_congr (h : ∀ i ∈ l, (info' i).len = (info i).len) : lenSum info' l = lenSum info l := by
  rw [lenSum, lenSum, map_congr_left h]

theorem lenSum_perm (info : Nat → DiskPartBlock) {l' : List Nat} (h : l.Perm l') :
    lenSum info l = lenSum info l' := by
  rw [lenSum, lenSum, (h.map _).sum_eq]

theorem lenSum_erase (h : q ∈ l) : lenSum info (l.erase q) = lenSum info l - (info q).len := by
  have hp := lenSum_perm info (perm_cons_erase h)
  rw [show q :: l.erase q = [q] ++ l.erase q from rfl, lenSum_append, lenSum_singleton] at hp
  omega

def Used (info : Nat → DiskPartBlock) (n i : Nat) : Prop := i < n ∧ (info i).free = false
deriving Decidable

/-- The queue of a partition has the used blocks with its number. -/
structure PartOk (info : Nat → DiskPartBlock) (n : Nat) (p : DiskPart) : Prop where
  nodup : p.dpbQueue.Nodup
  mem : ∀ i, i ∈ p.dpbQueue ↔ Used info n i ∧ ((info i).number : Int) = p.partNumber
  count : p.numPartblocks = p.dpbQueue.length
  size : p.size = lenSum info p.dpbQueue
  nonempty : p.dpbQueue ≠ []

/-- There is one partition for every number of a used block. -/
structure PartsOk (info : Nat → DiskPartBlock) (n : Nat) (parts : List DiskPart) : Prop where
  each : ∀ p ∈ parts, PartOk info n p
  distinct : (parts.map partNumber).Nodup
  covered : ∀ i, Used info n i → ∃ p ∈ parts, p.partNumber = (info i).number

/-! ### Adding a block to a partition -/

def DiskPart.add (p : DiskPart) (b len : Nat) : DiskPart :=
  { p with
    dpbQueue := p.dpbQueue ++ [b]
    numPartblocks := p.numPartblocks + 1
    size := p.size + len }

section Add
variable {v : Int} {b len : Nat} {p : DiskPart}

theorem mem_addToPart (hd : (parts.map partNumber).Nodup) (hp : p ∈ addToPart v b len parts) :
    (p ∈ parts ∧ p.partNumber ≠ v) ∨ (∃ p' ∈ parts, p'.partNumber = v ∧ p = p'.add b len) ∨
      ((∀ p' ∈ parts, p'.partNumber ≠ v) ∧ p = ⟨1, v, len, [b]⟩) := by
  induction parts with
  | nil => exact .inr (.inr ⟨by simp, by simpa [addToPart] using hp⟩)
  | cons a l ih =>
    rw [map_cons, nodup_cons] at hd
    rw [addToPart] at hp
    by_cases ha : a.partNumber = v
    · rw [if_pos ha, mem_cons] at hp
      rcases hp with rfl | hp
      · exact .inr (.inl ⟨a, by simp, ha, rfl⟩)
      · refine .inl ⟨by simp [hp], fun hv => hd.1 ?_⟩
        rw [ha, ← hv]
        exact mem_map_of_mem hp
    · rw [if_neg ha, mem_cons] at hp
      rcases hp with rfl | hp
      · exact .inl ⟨by simp, ha⟩
      · rcases ih hd.2 hp with ⟨h1, h2⟩ | ⟨p', h1, h2⟩ | ⟨h1, h2⟩
        · exact .inl ⟨by simp [h1], h2⟩
        · exact .inr (.inl ⟨p', by simp [h1], h2⟩)
        · exact .inr (.inr ⟨by simpa [ha] using h1, h2⟩)

theorem addToPart_numbers : (addToPart v b len parts).map partNumber =
    if v ∈ parts.map partNumber then parts.map partNumber else parts.map partNumber ++ [v] := by
  induction parts with
  | nil => simp [addToPart]
  | cons a l ih =>
    rw [addToPart]
    by_cases ha : a.partNumber = v
    · simp [ha]
    · rw [if_neg ha, map_cons, ih, map_cons]
      by_cases hv : v ∈ l.map partNumber
      · rw [if_pos hv, if_pos (mem_cons_of_mem _ hv)]
      · rw [if_neg hv, if_neg (by simp only [mem_cons, not_or]; exact ⟨Ne.symm ha, hv⟩)]
        rfl

theorem mem_addToPart_numbers {w : Int} : w ∈ (addToPart v b len parts).map partNumber ↔
    w ∈ parts.map partNumber ∨ w = v := by
  rw [addToPart_numbers]
  split
  · next hv => exact ⟨.inl, fun h => h.elim id fun h => h ▸ hv⟩
  · rw [mem_append, mem_singleton]

theorem PartsOk.add (h : PartsOk info n parts) (hb : ¬ Used info n b)
    (hused : ∀ i, Used info' n' i ↔ Used info n i ∨ i = b)
    (hsame : ∀ i, Used info n i → info' i = info i) (hnumber : ((info' b).number : Int) = v) :
    PartsOk info' n' (addToPart v b (info' b).len parts) := by
  have hmem : ∀ (w : Int) i, Used info' n' i ∧ ((info' i).number : Int) = w ↔
      (Used info n i ∧ ((info i).number : Int) = w) ∨ i = b ∧ v = w := by
    intro w i
    rw [hused]
    constructor
    · rintro ⟨hi | rfl, hnum⟩
      · rw [hsame i hi] at hnum
        exact .inl ⟨hi, hnum⟩
      · exact .inr ⟨rfl, hnumber.symm.trans hnum⟩
    · rintro (⟨hi, hnum⟩ | ⟨rfl, hnum⟩)
      · exact ⟨.inl hi, by rw [hsame i hi]; exact hnum⟩
      · exact ⟨.inr rfl, hnumber.trans hnum⟩
  have hold : ∀ p ∈ parts, lenSum info' p.dpbQueue = lenSum info p.dpbQueue := fun p hp =>
    lenSum_congr fun i hi => by rw [hsame i (((h.each p hp).mem i).1 hi).1]
  refine ⟨fun p hp => ?_, ?_, fun i hi => ?_⟩
  · rcases mem_addToPart h.distinct hp with ⟨hp, hne⟩ | ⟨p, hp', rfl, rfl⟩ | ⟨hno, rfl⟩
    · have hok := h.each p hp
      refine ⟨hok.nodup, fun i => ?_, hok.count, hok.size.trans (hold p hp).symm, hok.nonempty⟩
      rw [hok.mem, hmem]
      exact ⟨.inl, fun h => h.resolve_right fun h => hne h.2.symm⟩
    · have hok := h.each p hp'
      have hnot : b ∉ p.dpbQueue := fun hm => hb ((hok.mem b).1 hm).1
      refine ⟨?_, fun i => ?_, ?_, ?_, by simp [add]⟩
      · exact nodup_append.2 ⟨hok.nodup, nodup_singleton b, fun a ha c hc =>
          by rw [mem_singleton.1 hc]; exact fun h => hnot (h ▸ ha)⟩
      · rw [hmem]
        simp only [add, mem_append, mem_singleton, hok.mem i, and_true]
      · simp [add, hok.count]
      · simp only [add, lenSum_append, lenSum_singleton, hold p hp', hok.size]
    · refine ⟨nodup_singleton b, fun i => ?_, rfl, (lenSum_singleton b).symm, by simp⟩
      rw [hmem, mem_singleton]
      refine ⟨fun h => .inr ⟨h, rfl⟩, fun hi => (hi.resolve_left fun ⟨hu, hnum⟩ => ?_).1⟩
      obtain ⟨p, hp, hpn⟩ := h.covered i hu
      exact hno p hp (hpn.trans hnum)
  · rw [addToPart_numbers]
    split
    · exact h.distinct
    · next hv => exact nodup_append.2 ⟨h.distinct, nodup_singleton v, fun a ha c hc =>
        by rw [mem_singleton.1 hc]; exact fun h => hv (h ▸ ha)⟩
  · have hin : ((info' i).number : Int) ∈ (addToPart v b (info' b).len parts).map partNumber := by
      rw [mem_addToPart_numbers]
      rcases (hused i).1 hi with hi | rfl
      · obtain ⟨p, hp, hpn⟩ := h.covered i hi
        rw [hsame i hi, ← hpn]
        exact .inl (mem_map_of_mem hp)
      · exact .inr hnumber
    obtain ⟨p, hp, hpn⟩ := mem_map.1 hin
    exact ⟨p, hp, hpn⟩

end Add

def DiskPart.totals (p : DiskPart) : Int × Int × Int := (p.partNumber, p.numPartblocks, p.size)

variable {parts' : List DiskPart}

theorem PartsOk.totals_mem (h : PartsOk info n parts)
    (h' : PartsOk info n parts') {t : Int × Int × Int} (ht : t ∈ parts.map totals) : t ∈ parts'.map totals := by
  obtain ⟨p, hp, rfl⟩ := mem_map.1 ht
  have hok := h.each p hp
  obtain ⟨i, hi⟩ := exists_mem_of_ne_nil _ hok.nonempty
  obtain ⟨hu, hnum⟩ := (hok.mem i).1 hi
  obtain ⟨p', hp', hnum'⟩ := h'.covered i hu
  have hok' := h'.each p' hp'
  have heq : p'.partNumber = p.partNumber := hnum'.trans hnum
  have hperm : p'.dpbQueue.Perm p.dpbQueue :=
    (perm_ext_iff_of_nodup hok'.nodup hok.nodup).2 fun j => by rw [hok'.mem, hok.mem, heq]
  refine mem_map.2 ⟨p', hp', ?_⟩
  rw [totals, totals, heq, hok'.count, hok.count, hok'.size, hok.size, hperm.length_eq, lenSum_perm info hperm]

theorem PartsOk.totals_perm (h : PartsOk info n parts) (h' : PartsOk info n parts') :
    (parts.map totals).Perm (parts'.map totals) := by
  have hnodup : ∀ {l : List DiskPart}, (l.map partNumber).Nodup → (l.map totals).Nodup := fun hl => by
    refine List.Nodup.of_map Prod.fst ?_
    rw [map_map]
    exact hl
  exact (perm_ext_iff_of_nodup (hnodup h.distinct) (hnodup h'.distinct)).2 fun t => ⟨h.totals_mem h', h'.totals_mem h⟩

/-! ### The blocks -/

/-- The blocks of the table lie apart, inside the usable blocks. -/
structure Blocks (start : Int) (usable : Nat) (info : Nat → DiskPartBlock) (n : Nat) : Prop where
  inside : ∀ i < n, start ≤ (info i).offset ∧
    (info i).offset + (info i).len * storeBlockSize ≤ start + usable * storeBlockSize
  apart : ∀ i < n, ∀ j < n, i ≠ j →
    (info i).offset + (info i).len * storeBlockSize ≤ (info j).offset ∨
      (info j).offset + (info j).len * storeBlockSize ≤ (info i).offset
  len_lt : ∀ i < n, (info i).len < 2 ^ 26

/-- A used block of `z` blocks has been taken from the free block `q`; what is left of it is a new
entry, or lost. -/
structure Carved (info : Nat → DiskPartBlock) (n q z : Nat) (info' : Nat → DiskPartBlock) (n' : Nat) :
    Prop where
  lt : q < n
  free : (info q).free = true
  le : z ≤ (info q).len
  other : ∀ i < n, i ≠ q → info' i = info i
  used : (info' q).free = false
  offset : (info' q).offset = (info q).offset
  len : (info' q).len = z
  rest : n' = n ∨ n' = n + 1 ∧ (info' n).free = true ∧
    (info' n).offset = (info q).offset + z * storeBlockSize ∧ (info' n).len + z = (info q).len

namespace Carved

variable {z : Nat} {start : Int} {usable : Nat}

section Parts
variable (h : Carved info n q z info' n')
include h

theorem blocks (hb : Blocks start usable info n) : Blocks start usable info' n' := by
  obtain ⟨hlt, -, hle, hother, -, hoff, hlen, hrest⟩ := h
  have hsub : ∀ i < n', (∃ k < n, (i < n → k = i) ∧ (¬ i < n → k = q) ∧
      (info k).offset ≤ (info' i).offset ∧ (info' i).offset + (info' i).len * storeBlockSize ≤
        (info k).offset + (info k).len * storeBlockSize ∧ (info' i).len ≤ (info k).len) := by
    intro i hi
    by_cases hin : i < n
    · refine ⟨i, hin, fun _ => rfl, fun h => absurd hin h, ?_⟩
      by_cases hiq : i = q
      · subst hiq
        rw [hoff, hlen]
        simp only [storeBlockSize]
        omega
      · rw [hother i hin hiq]
        omega
    · refine ⟨q, hlt, fun h => absurd h hin, fun _ => rfl, ?_⟩
      obtain rfl | ⟨rfl, -, hn, hln⟩ := hrest
      · omega
      · obtain rfl : i = n := by omega
        rw [hn]
        simp only [storeBlockSize]
        omega
  refine ⟨fun i hi => ?_, fun i hi j hj hij => ?_, fun i hi => ?_⟩
  · obtain ⟨k, hk, -, -, h1, h2, -⟩ := hsub i hi
    have := hb.inside k hk
    omega
  · obtain ⟨k, hk, hki, hkn, h1, h2, -⟩ := hsub i hi
    obtain ⟨l, hl, hlj, hln, h3, h4, -⟩ := hsub j hj
    by_cases hkl : k = l
    · -- then they are `q` and what is left of it
      subst hkl
      obtain rfl | ⟨rfl, -, hn, hlen'⟩ := hrest
      · have := hki hi
        have := hlj hj
        omega
      · have hend : (info' q).offset + (info' q).len * storeBlockSize ≤ (info' n).offset := by rw [hoff, hlen, hn]
        by_cases hin : i < n
        · have hik := hki hin
          have hjn : ¬ j < n := fun hjn => hij (hik.symm.trans (hlj hjn))
          obtain rfl : j = n := by omega
          rw [show i = q from hik.symm.trans (hln hjn)]
          exact .inl hend
        · have hjk := hlj (by omega)
          obtain rfl : i = n := by omega
          rw [show j = q from hjk.symm.trans (hkn hin)]
          exact .inr hend
    · have := hb.apart k hk l hl hkl
      omega
  · obtain ⟨k, hk, -, -, -, -, h⟩ := hsub i hi
    exact h.trans_lt (hb.len_lt k hk)

theorem used_iff (i : Nat) : Used info' n' i ↔ Used info n i ∨ i = q := by
  have hlt := h.lt
  by_cases hiq : i = q
  · subst hiq
    have hn : i < n' := by rcases h.rest with hn | ⟨hn, -⟩ <;> omega
    exact ⟨fun _ => .inr rfl, fun _ => ⟨hn, h.used⟩⟩
  · rw [or_iff_left hiq]
    by_cases hin : i < n
    · have hn : i < n' := by rcases h.rest with hn | ⟨hn, -⟩ <;> omega
      simp only [Used, hin, hn, h.other i hin hiq]
    · refine ⟨fun ⟨hi, hfree⟩ => ?_, fun hi => absurd hi.1 hin⟩
      rcases h.rest with hn | ⟨hn, hnew, -⟩
      · omega
      · obtain rfl : i = n := by omega
        rw [hnew] at hfree
        cases hfree

theorem not_used : ¬ Used info n q := fun hu => by
  rw [Used, h.free] at hu
  exact absurd hu.2 (by decide)

theorem same (i : Nat) (hi : Used info n i) : info' i = info i := h.other i hi.1 fun hiq => h.not_used (hiq ▸ hi)

end Parts

end Carved

def usedCount (info : Nat → DiskPartBlock) (n : Nat) : Nat :=
  ((Finset.range n).filter fun i => (info i).free = false).card

theorem usedCount_insert (hq : ¬ Used info n q) (h : ∀ i, Used info' n' i ↔ Used info n i ∨ i = q) :
    usedCount info' n' = usedCount info n + 1 := by
  have hins : (Finset.range n').filter (fun i => (info' i).free = false) =
      insert q ((Finset.range n).filter fun i => (info i).free = false) := by
    ext i
    simpa [Used, or_comm] using h i
  rw [usedCount, hins, Finset.card_insert_of_notMem (by simpa [Used] using hq)]
  rfl

/-! ### Giving blocks back -/

def freed (info : Nat → DiskPartBlock) (l : List Nat) (i : Nat) : DiskPartBlock :=
  if i ∈ l then { info i with type := 0, free := true } else info i

theorem freed_len (info : Nat → DiskPartBlock) (l : List Nat) (i : Nat) : (freed info l i).len = (info i).len := by
  unfold freed
  split <;> rfl

theorem freed_offset (info : Nat → DiskPartBlock) (l : List Nat) (i : Nat) :
    (freed info l i).offset = (info i).offset := by
  unfold freed
  split <;> rfl

theorem freed_number (info : Nat → DiskPartBlock) (l : List Nat) (i : Nat) :
    (freed info l i).number = (info i).number := by
  unfold freed
  split <;> rfl

theorem freed_free (info : Nat → DiskPartBlock) (l : List Nat) (i : Nat) :
    (freed info l i).free = true ↔ i ∈ l ∨ (info i).free = true := by
  unfold freed
  split <;> simp_all

theorem used_freed {i : Nat} : Used (freed info l) n i ↔ Used info n i ∧ i ∉ l := by
  have h := freed_free info l i
  rw [Used, Used, ← Bool.not_eq_true, ← Bool.not_eq_true, h]
  tauto

theorem mem_eraseP_number (hd : (parts.map partNumber).Nodup) {p : DiskPart} {v : Int}
    (hp : p ∈ parts.eraseP fun p => p.partNumber = v) : p.partNumber ≠ v := by
  induction parts with
  | nil => cases hp
  | cons a l ih =>
    rw [map_cons, nodup_cons] at hd
    by_cases ha : a.partNumber = v
    · rw [eraseP_cons_of_pos (by simpa using ha)] at hp
      exact fun hv => hd.1 (ha.trans hv.symm ▸ mem_map_of_mem hp)
    · rw [eraseP_cons_of_neg (by simpa using ha), mem_cons] at hp
      rcases hp with rfl | hp
      · exact ha
      · exact ih hd.2 hp

theorem Blocks.freed {start : Int} {usable : Nat} (h : Blocks start usable info n) (l : List Nat) :
    Blocks start usable (freed info l) n := by
  refine ⟨fun i hi => ?_, fun i hi j hj hij => ?_, fun i hi => ?_⟩
  · rw [freed_offset, freed_len]
    exact h.inside i hi
  · rw [freed_offset, freed_len, freed_offset, freed_len]
    exact h.apart i hi j hj hij
  · rw [freed_len]
    exact h.len_lt i hi

theorem PartsOk.erase (h : PartsOk info n parts) {p : DiskPart} (hp : p ∈ parts) :
    PartsOk (freed info p.dpbQueue) n (parts.eraseP fun p' => p'.partNumber = p.partNumber) := by
  have hsub := eraseP_sublist (p := fun p' : DiskPart => p'.partNumber = p.partNumber) (l := parts)
  have hnumber : ∀ i, i ∈ p.dpbQueue ↔ Used info n i ∧ ((info i).number : Int) = p.partNumber := (h.each p hp).mem
  refine ⟨fun p' hp' => ?_, h.distinct.sublist (hsub.map _), fun i hi => ?_⟩
  · have hok := h.each p' (hsub.subset hp')
    have hne := mem_eraseP_number h.distinct hp'
    refine ⟨hok.nodup, fun i => ?_, hok.count, ?_, hok.nonempty⟩
    · rw [used_freed, freed_number, hok.mem, hnumber]
      constructor
      · rintro ⟨hu, hn⟩
        exact ⟨⟨hu, fun hi => hne (hn.symm.trans hi.2)⟩, hn⟩
      · rintro ⟨⟨hu, -⟩, hn⟩
        exact ⟨hu, hn⟩
    · rw [hok.size, lenSum_congr fun i _ => freed_len ..]
  · obtain ⟨hu, hnot⟩ := used_freed.1 hi
    obtain ⟨p', hp', hn⟩ := h.covered i hu
    refine ⟨p', (mem_eraseP_of_neg ?_).2 hp', by rw [hn, freed_number]⟩
    simp only [decide_eq_true_eq]
    exact fun heq => hnot ((hnumber i).2 ⟨hu, hn.symm.trans heq⟩)

theorem usedCount_freed (hl : l.Nodup) (hu : ∀ i ∈ l, Used info n i) :
    usedCount (freed info l) n + l.length = usedCount info n := by
  have hset : (Finset.range n).filter (fun i => (freed info l i).free = false) =
      ((Finset.range n).filter fun i => (info i).free = false) \ l.toFinset := by
    ext i
    have h : Used (freed info l) n i ↔ Used info n i ∧ i ∉ l := used_freed
    simpa [Used] using h
  have hsub : l.toFinset ⊆ (Finset.range n).filter fun i => (info i).free = false := by
    intro i hi
    have := hu i (mem_toFinset.1 hi)
    simpa [Used] using this
  rw [usedCount, hset, ← toFinset_card_of_nodup hl, Finset.card_sdiff_add_card_eq_card hsub]
  rfl

end TrafficServer
