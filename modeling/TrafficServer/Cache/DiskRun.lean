import TrafficServer.Cache.DiskBlocks

/-!
# The partition table over runs

`Table` says that each block is on the queue that its bits say and that the counters are the totals
over the queues. Every call keeps it but for one counter: `create_partition` does not take the block
it has used up off the number of blocks that `free_blocks` has. `update_header` finds the same
totals when it makes the queues again from the table.
-/

namespace TrafficServer

open List Function Relation Option

/-- The table without the number of free blocks that `free_blocks` has. -/
structure CacheDisk.Table (d : CacheDisk) : Prop where
  blocks : Blocks d.start d.numUsableBlocks d.partInfo d.numDiskpartBlks
  freeNodup : d.freeBlocks.dpbQueue.Nodup
  freeMem : ∀ i, i ∈ d.freeBlocks.dpbQueue ↔ i < d.numDiskpartBlks ∧ (d.partInfo i).free = true
  parts : PartsOk d.partInfo d.numDiskpartBlks d.diskParts
  numFree : d.numFree = d.freeBlocks.dpbQueue.length
  numUsed : d.numUsed = usedCount d.partInfo d.numDiskpartBlks
  freeSpace : d.freeSpace = lenSum d.partInfo d.freeBlocks.dpbQueue
  freeSize : d.freeBlocks.size = lenSum d.partInfo d.freeBlocks.dpbQueue

variable {i m : Nat}

namespace CacheDisk

variable {d : CacheDisk} {q z : Nat} {number scheme : Int}

theorem Table.useBlock {d1 : CacheDisk} (h : d.Table) (hstart : d1.start = d.start)
    (husable : d1.numUsableBlocks = d.numUsableBlocks) (hparts : d1.diskParts = d.diskParts)
    (hused : d1.numUsed = d.numUsed) (hnum : 0 ≤ number ∧ number < 2 ^ 16)
    (hc : Carved d.partInfo d.numDiskpartBlks q z (d1.useBlock q number z scheme).partInfo d1.numDiskpartBlks)
    (hnodup : d1.freeBlocks.dpbQueue.Nodup) (hmem : ∀ i, i ∈ d1.freeBlocks.dpbQueue ↔
      i < d1.numDiskpartBlks ∧ ((d1.useBlock q number z scheme).partInfo i).free = true)
    (hfree : d1.numFree = d1.freeBlocks.dpbQueue.length)
    (hspace : d1.freeSpace = lenSum d1.partInfo d1.freeBlocks.dpbQueue)
    (hsize : d1.freeBlocks.size = lenSum d1.partInfo d1.freeBlocks.dpbQueue) :
    (d1.useBlock q number z scheme).Table := by
  have hq : q ∉ d1.freeBlocks.dpbQueue := fun hq => by
    have := ((hmem q).1 hq).2
    rw [hc.used] at this
    cases this
  have hsum : lenSum (d1.useBlock q number z scheme).partInfo d1.freeBlocks.dpbQueue =
      lenSum d1.partInfo d1.freeBlocks.dpbQueue := by
    refine lenSum_congr fun i hi => ?_
    have hne : i ≠ q := fun h => hq (h ▸ hi)
    exact congrArg _ (update_of_ne hne ..)
  refine ⟨?_, hnodup, hmem, ?_, hfree, ?_, hspace.trans hsum.symm, hsize.trans hsum.symm⟩
  · have hb := hc.blocks h.blocks
    rwa [← hstart, ← husable] at hb
  · have hself : ((d1.useBlock q number z scheme).partInfo q).number = (number % 2 ^ 16).toNat := by
      simp [CacheDisk.useBlock]
    have hadd := h.parts.add (v := number) hc.not_used hc.used_iff hc.same (by rw [hself]; omega)
    have hpq : (d1.useBlock q number z scheme).diskParts =
        addToPart number q ((d1.useBlock q number z scheme).partInfo q).len d.diskParts := by
      simp [CacheDisk.useBlock, hparts]
    rw [hpq]
    exact hadd
  · change d1.numUsed + 1 = usedCount (d1.useBlock q number z scheme).partInfo d1.numDiskpartBlks
    rw [usedCount_insert hc.not_used hc.used_iff, hused, h.numUsed]
    push_cast
    rfl

theorem Table.mem_erase (h : d.Table) (i : Nat) : i ∈ d.freeBlocks.dpbQueue.erase q ↔
    i ≠ q ∧ i < d.numDiskpartBlks ∧ (d.partInfo i).free = true := by
  rw [h.freeNodup.mem_erase_iff, h.freeMem]

theorem useBlock_info_self (size : Int) : (d.useBlock q number size scheme).partInfo q = { d.partInfo q with
      len := (size % 2 ^ 26).toNat
      free := false
      number := (number % 2 ^ 16).toNat
      type := (scheme % 2 ^ 3).toNat } := update_self ..

theorem useBlock_info_of_ne (h : i ≠ q) (size : Int) :
    (d.useBlock q number size scheme).partInfo i = d.partInfo i := update_of_ne h ..

section Carve
variable (h : d.Table) (hq : q ∈ d.freeBlocks.dpbQueue) (hz : z ≤ (d.partInfo q).len)
include h hq hz

section
variable (hnum : 0 ≤ number ∧ number < 2 ^ 16)

include hnum

theorem Table.split : (((d.takeBlock q).splitBlock q z).useBlock q number z scheme).Table := by
  obtain ⟨hlt, hfree⟩ := (h.freeMem q).1 hq
  have hlen := h.blocks.len_lt q hlt
  obtain ⟨d1, hd1⟩ : ∃ d1, d1 = (d.takeBlock q).splitBlock q z := ⟨_, rfl⟩
  have hqueue : d1.freeBlocks.dpbQueue = d.freeBlocks.dpbQueue.erase q ++ [d.numDiskpartBlks] := by rw [hd1]; rfl
  have hn : d1.numDiskpartBlks = d.numDiskpartBlks + 1 := by rw [hd1]; rfl
  have hnew : d1.partInfo d.numDiskpartBlks = { d.partInfo q with
      len := (d.partInfo q).len - z
      offset := (d.partInfo q).offset + z * storeBlockSize } := by
    rw [show (d.partInfo q).len - z = ((((d.partInfo q).len : Int) - z) % 2 ^ 26).toNat by omega, hd1]
    exact update_self ..
  have hold : ∀ i < d.numDiskpartBlks, d1.partInfo i = d.partInfo i := fun i hi => by
    rw [hd1]
    exact update_of_ne hi.ne ..
  have hsum : lenSum d1.partInfo d1.freeBlocks.dpbQueue =
      lenSum d.partInfo d.freeBlocks.dpbQueue - (d.partInfo q).len + ((d.partInfo q).len - z : Nat) := by
    rw [hqueue, lenSum_append, lenSum_singleton, hnew, ← lenSum_erase hq]
    congr 1
    exact lenSum_congr fun i hi => by rw [hold i ((h.mem_erase i).1 hi).2.1]
  have hspace : d1.freeSpace = d.freeSpace - (d.partInfo q).len + (d1.partInfo d.numDiskpartBlks).len := by
    rw [hd1]
    simp only [splitBlock, takeBlock, update_self]
  have hsize : d1.freeBlocks.size = d.freeBlocks.size - (d.partInfo q).len + (d1.partInfo d.numDiskpartBlks).len := by
    rw [hd1]
    simp only [splitBlock, takeBlock, update_self]
  rw [hnew] at hspace hsize
  rw [← hd1]
  have hother : ∀ i, i ≠ q → (d1.useBlock q number z scheme).partInfo i = d1.partInfo i :=
    fun i hi => useBlock_info_of_ne hi z
  have hc : Carved d.partInfo d.numDiskpartBlks q z (d1.useBlock q number z scheme).partInfo d1.numDiskpartBlks := by
    refine ⟨hlt, hfree, hz, fun i hi hiq => by rw [hother i hiq, hold i hi], ?_, ?_, ?_, .inr ⟨hn, ?_⟩⟩
    · rw [useBlock_info_self]
    · rw [useBlock_info_self, hold q hlt]
    · rw [useBlock_info_self]
      change ((z : Int) % 2 ^ 26).toNat = z
      omega
    · rw [hother _ hlt.ne', hnew]
      exact ⟨hfree, rfl, by change (d.partInfo q).len - z + z = _; omega⟩
  refine h.useBlock (by rw [hd1]; rfl) (by rw [hd1]; rfl) (by rw [hd1]; rfl) (by rw [hd1]; rfl) hnum hc
    ?_ (fun i => ?_) ?_ ?_ ?_
  · rw [hqueue]
    refine nodup_append.2 ⟨h.freeNodup.erase q, nodup_singleton _, fun a ha c hc => ?_⟩
    have := ((h.mem_erase a).1 ha).2.1
    rw [mem_singleton.1 hc]
    omega
  · rw [hqueue, mem_append, mem_singleton, h.mem_erase, hn]
    by_cases hin : i = d.numDiskpartBlks
    · subst hin
      rw [hother _ hlt.ne', hnew]
      simp [hfree]
    · by_cases hiq : i = q
      · subst hiq
        rw [useBlock_info_self]
        simp [hin]
      · by_cases hi : i < d.numDiskpartBlks
        · rw [hother i hiq, hold i hi]
          have : i < d.numDiskpartBlks + 1 := by omega
          simp [hiq, hin, hi, this]
        · have : ¬ i < d.numDiskpartBlks + 1 := by omega
          simp [hiq, hin, hi, this]
  · have : d1.numFree = d.numFree := by rw [hd1]; rfl
    rw [this, h.numFree, hqueue, length_append, length_erase_of_mem hq]
    have := length_pos_of_mem hq
    simp
    omega
  · rw [hspace, hsum, h.freeSpace]
  · rw [hsize, hsum, h.freeSize]

theorem Table.swallow :
    (({ d.takeBlock q with numFree := (d.takeBlock q).numFree - 1 } : CacheDisk).useBlock q number z
      scheme).Table := by
  obtain ⟨hlt, hfree⟩ := (h.freeMem q).1 hq
  have hlen := h.blocks.len_lt q hlt
  have hc : Carved d.partInfo d.numDiskpartBlks q z
      (({ d.takeBlock q with numFree := (d.takeBlock q).numFree - 1 } : CacheDisk).useBlock q number z
        scheme).partInfo d.numDiskpartBlks := by
    refine ⟨hlt, hfree, hz, fun i _ hiq => useBlock_info_of_ne hiq z, ?_, ?_, ?_, .inl rfl⟩
    · rw [useBlock_info_self]
    · rw [useBlock_info_self]
      rfl
    · rw [useBlock_info_self]
      change ((z : Int) % 2 ^ 26).toNat = z
      omega
  refine h.useBlock rfl rfl rfl rfl hnum hc (h.freeNodup.erase q) (fun i => ?_) ?_ ?_ ?_
  · refine h.mem_erase i |>.trans ?_
    by_cases hiq : i = q
    · subst hiq
      rw [useBlock_info_self]
      simp
    · rw [useBlock_info_of_ne hiq]
      simp [hiq, takeBlock]
  · change d.numFree - 1 = ((d.freeBlocks.dpbQueue.erase q).length : Int)
    have := length_pos_of_mem hq
    rw [h.numFree, length_erase_of_mem hq]
    omega
  · change d.freeSpace - _ = lenSum d.partInfo (d.freeBlocks.dpbQueue.erase q)
    rw [lenSum_erase hq, h.freeSpace]
  · change d.freeBlocks.size - _ = lenSum d.partInfo (d.freeBlocks.dpbQueue.erase q)
    rw [lenSum_erase hq, h.freeSize]

/-- An allocation keeps the table. `free_blocks` keeps its number of blocks: this is right when the
block is split, and one too many when it is not. -/
theorem Table.allocate (scheme : Int) : (d.allocate q number z scheme).Table ∧
    (d.allocate q number z scheme).freeBlocks.numPartblocks = d.freeBlocks.numPartblocks ∧
    (d.allocate q number z scheme).freeBlocks.dpbQueue.length =
      if z + blocksPerPart ≤ (d.partInfo q).len then d.freeBlocks.dpbQueue.length
      else d.freeBlocks.dpbQueue.length - 1 := by
  have hlen := h.blocks.len_lt q ((h.freeMem q).1 hq).1
  have hpos := length_pos_of_mem hq
  have hsize : CInt.toInt32 ((d.partInfo q).len - (z : Nat)) = (d.partInfo q).len - z :=
    CInt.toInt32_of_mem (by omega) (by omega)
  rw [CacheDisk.allocate, hsize]
  by_cases hsplit : z + blocksPerPart ≤ (d.partInfo q).len
  · rw [if_pos (by omega), if_pos hsplit]
    refine ⟨h.split hq hz hnum, rfl, ?_⟩
    change (d.freeBlocks.dpbQueue.erase q ++ [d.numDiskpartBlks]).length = _
    rw [length_append, length_erase_of_mem hq, length_singleton]
    omega
  · rw [if_neg (by omega), if_neg hsplit]
    exact ⟨h.swallow hq hz hnum, rfl, length_erase_of_mem hq⟩

end

end Carve

theorem closestMatch_mem : ∀ (l : List Nat) (c : Nat), d.closestMatch c l = c ∨ d.closestMatch c l ∈ l
  | [], _ => .inl rfl
  | q :: qs, c => by
    rw [closestMatch]
    rcases closestMatch_mem qs (if (d.partInfo c).len < (d.partInfo q).len then q else c) with h | h
    · rw [h]
      split
      · exact .inr (by simp)
      · exact .inl rfl
    · exact .inr (mem_cons_of_mem _ h)

/-- A request takes its block from one that is larger by a whole partition block, or there is no
free block at all. -/
def Splits (d : CacheDisk) (size : Int) : Prop :=
  d.freeBlocks.dpbQueue = [] ∨
    ∃ q, d.findBlock size = some q ∧ size + blocksPerPart ≤ (d.partInfo q).len

theorem Table.createPartition (h : d.Table) {size : Int} (hpos : 0 < size) (hsize : size < 2 ^ 32)
    (hnum : 0 ≤ number ∧ number < 2 ^ 16) (scheme : Int) : (d.createPartition number size scheme).1.Table ∧
    (d.createPartition number size scheme).1.freeBlocks.numPartblocks = d.freeBlocks.numPartblocks ∧
    (d.Splits size → (d.createPartition number size scheme).1.freeBlocks.dpbQueue.length =
      d.freeBlocks.dpbQueue.length) ∧
    (¬ d.Splits size → (d.createPartition number size scheme).1.freeBlocks.dpbQueue.length + 1 =
      d.freeBlocks.dpbQueue.length) := by
  rw [CacheDisk.createPartition, if_neg hpos.ne', if_pos (by unfold maxBlocks; omega)]
  cases hqueue : d.freeBlocks.dpbQueue with
  | nil => exact ⟨h, rfl, fun _ => by rw [hqueue], fun hs => absurd (.inl hqueue) hs⟩
  | cons head rest =>
    have hne : d.freeBlocks.dpbQueue ≠ [] := by simp [hqueue]
    have hlpos := length_pos_of_ne_nil hne
    dsimp only
    rw [← hqueue]
    cases hfind : d.findBlock size with
    | some q =>
      have hmem := mem_of_find?_eq_some hfind
      have hlen : size ≤ (d.partInfo q).len := by
        have := find?_some hfind
        rw [decide_eq_true_eq] at this
        omega
      obtain ⟨z, rfl⟩ := Int.eq_ofNat_of_zero_le hpos.le
      have hiff : d.Splits z ↔ z + blocksPerPart ≤ (d.partInfo q).len := by
        refine ⟨fun hs => ?_, fun hs => .inr ⟨q, hfind, by exact_mod_cast hs⟩⟩
        obtain ⟨q', hq', hle⟩ := hs.resolve_left hne
        obtain rfl : q = q' := some.inj (hfind.symm.trans hq')
        exact_mod_cast hle
      obtain ⟨ht, hcount, hl⟩ := h.allocate hmem (Int.ofNat_le.1 hlen) hnum scheme
      refine ⟨ht, hcount, fun hs => ?_, fun hs => ?_⟩
      · exact hl.trans (if_pos (hiff.1 hs))
      · rw [show (d.allocate q number z scheme).freeBlocks.dpbQueue.length = _ from hl.trans (if_neg (mt hiff.2 hs))]
        omega
    | none =>
      have hs : ¬ d.Splits size := by
        rintro (h | ⟨q, hq, -⟩)
        · exact hne h
        · rw [hfind] at hq
          cases hq
      obtain ⟨q, hq⟩ : ∃ q, q = d.closestMatch head d.freeBlocks.dpbQueue := ⟨_, rfl⟩
      have hmem : q ∈ d.freeBlocks.dpbQueue := by
        rcases d.closestMatch_mem d.freeBlocks.dpbQueue head with h | h
        · rw [hq, h, hqueue]
          exact mem_cons_self
        · rwa [hq]
      have ht : ({ d with wastedSpace := d.wastedSpace + ((d.partInfo q).len % blocksPerPart : Nat) } :
          CacheDisk).Table :=
        ⟨h.blocks, h.freeNodup, h.freeMem, h.parts, h.numFree, h.numUsed, h.freeSpace, h.freeSize⟩
      obtain ⟨ht', hcount, hl⟩ := ht.allocate (z := (d.partInfo q).len - (d.partInfo q).len % blocksPerPart)
        hmem (Nat.sub_le ..) hnum scheme
      have hmod : (d.partInfo q).len % blocksPerPart < blocksPerPart := Nat.mod_lt _ (by decide)
      rw [← hq]
      refine ⟨ht', hcount, fun h => absurd h hs, fun _ => ?_⟩
      rw [show (CacheDisk.allocate _ q number _ scheme).freeBlocks.dpbQueue.length = _ from
          hl.trans (if_neg (by dsimp only; omega))]
      dsimp only
      omega

theorem foldl_freeBlock (l : List Nat) (d : CacheDisk) : l.foldl freeBlock d = { d with
      partInfo := freed d.partInfo l
      freeSpace := d.freeSpace + lenSum d.partInfo l
      numFree := d.numFree + l.length
      numUsed := d.numUsed - l.length
      freeBlocks := { d.freeBlocks with dpbQueue := d.freeBlocks.dpbQueue ++ l } } := by
  induction l generalizing d with
  | nil =>
    have hinfo : freed d.partInfo [] = d.partInfo := funext fun i => by simp [freed]
    simp [hinfo]
  | cons b l ih =>
    have hinfo : freed (update d.partInfo b { d.partInfo b with type := 0, free := true }) l =
        freed d.partInfo (b :: l) := by
      funext i
      by_cases hib : i = b <;> simp [freed, hib]
    have hsum : lenSum (update d.partInfo b { d.partInfo b with type := 0, free := true }) l =
        lenSum d.partInfo l := by
      refine lenSum_congr fun i _ => ?_
      by_cases hib : i = b <;> simp [hib]
    rw [foldl_cons, ih, show b :: l = [b] ++ l from rfl, lenSum_append, lenSum_singleton]
    simp only [freeBlock, hinfo, hsum, length_append, length_singleton, append_assoc]
    congr 1 <;> push_cast <;> omega

/-- `delete_partition` keeps the table, and adds the same number of blocks to the queue and to the
count of `free_blocks`. -/
theorem Table.deletePartition (h : d.Table) (number : Int) : (d.deletePartition number).1.Table ∧
    (d.deletePartition number).1.freeBlocks.numPartblocks - d.freeBlocks.numPartblocks =
      (d.deletePartition number).1.freeBlocks.dpbQueue.length - d.freeBlocks.dpbQueue.length := by
  rw [CacheDisk.deletePartition]
  cases hfind : d.diskParts.find? fun p => p.partNumber = number with
  | none => exact ⟨h, by simp⟩
  | some p =>
    have hp := mem_of_find?_eq_some hfind
    obtain rfl : p.partNumber = number := by simpa using find?_some hfind
    have hok := h.parts.each p hp
    dsimp only
    rw [foldl_freeBlock]
    have hsum : lenSum (freed d.partInfo p.dpbQueue) (d.freeBlocks.dpbQueue ++ p.dpbQueue) =
        lenSum d.partInfo d.freeBlocks.dpbQueue + lenSum d.partInfo p.dpbQueue := by
      rw [lenSum_append, lenSum_congr fun i _ => freed_len .., lenSum_congr fun i _ => freed_len ..]
    refine ⟨⟨h.blocks.freed _, ?_, ?_, h.parts.erase hp, ?_, ?_, ?_, ?_⟩, ?_⟩
    all_goals dsimp only
    · refine nodup_append.2 ⟨h.freeNodup, hok.nodup, fun a ha b hb hab => ?_⟩
      have hfree := ((h.freeMem a).1 ha).2
      rw [((hok.mem a).1 (hab ▸ hb)).1.2] at hfree
      cases hfree
    · intro i
      rw [mem_append, h.freeMem, freed_free, hok.mem]
      have : Used d.partInfo d.numDiskpartBlks i → i < d.numDiskpartBlks := And.left
      tauto
    · rw [h.numFree, length_append]
      push_cast
      rfl
    · have := usedCount_freed hok.nodup fun i hi => ((hok.mem i).1 hi).1
      rw [h.numUsed]
      omega
    · rw [hsum, h.freeSpace]
    · rw [hsum, h.freeSize, hok.size]
    · rw [length_append, hok.count]
      push_cast
      omega

/-! ### Rebuilding the queues from the table -/

def freeEntries (info : Nat → DiskPartBlock) (m : Nat) : List Nat :=
  (List.range m).filter fun i => (info i).free

theorem freeEntries_succ (info : Nat → DiskPartBlock) (m : Nat) : freeEntries info (m + 1) =
    if (info m).free then freeEntries info m ++ [m] else freeEntries info m := by
  rw [freeEntries, range_succ, filter_append]
  split
  · next h => simp [freeEntries, h]
  · next h => simp [freeEntries, h]

/-- What `update_header` has made of the first `m` entries. -/
structure Rebuilt (d : CacheDisk) (m : Nat) (d' : CacheDisk) : Prop where
  same : d' = { d with
    freeBlocks := ⟨(freeEntries d.partInfo m).length, -1, lenSum d.partInfo (freeEntries d.partInfo m),
      freeEntries d.partInfo m⟩
    freeSpace := lenSum d.partInfo (freeEntries d.partInfo m)
    diskParts := d'.diskParts }
  parts : PartsOk d.partInfo m d'.diskParts

theorem used_succ (info : Nat → DiskPartBlock) (m i : Nat) :
    Used info (m + 1) i ↔ Used info m i ∨ i = m ∧ (info m).free = false := by
  by_cases him : i = m
  · subst him
    simp [Used]
  · simp only [Used, him, false_and, or_false]
    exact and_congr_left fun _ => by omega

theorem Rebuilt.updateEntry {d' : CacheDisk} (h : Rebuilt d m d') : Rebuilt d (m + 1) (d'.updateEntry m) := by
  have hinfo : d'.partInfo = d.partInfo := by rw [h.same]
  have hsucc := freeEntries_succ d.partInfo m
  cases hfree : (d.partInfo m).free with
  | true =>
    rw [hfree, if_pos rfl] at hsucc
    have hd' : d'.updateEntry m = { d' with
        freeBlocks := { d'.freeBlocks with
          numPartblocks := d'.freeBlocks.numPartblocks + 1
          size := d'.freeBlocks.size + (d.partInfo m).len
          dpbQueue := d'.freeBlocks.dpbQueue ++ [m] }
        freeSpace := d'.freeSpace + (d.partInfo m).len } := by
      rw [CacheDisk.updateEntry, hinfo, hfree, if_pos rfl]
    have hused : ∀ i, Used d.partInfo (m + 1) i ↔ Used d.partInfo m i := fun i => by simp [used_succ, hfree]
    refine ⟨?_, ?_⟩
    · rw [hd', hsucc, lenSum_append, lenSum_singleton, h.same]
      simp
    · rw [hd']
      exact ⟨fun p hp => { h.parts.each p hp with
        mem := fun i => by rw [hused]; exact (h.parts.each p hp).mem i }, h.parts.distinct,
        fun i hi => h.parts.covered i ((hused i).1 hi)⟩
  | false =>
    rw [hfree, if_neg (by decide)] at hsucc
    have hd' : d'.updateEntry m = { d' with
        diskParts := addToPart (d.partInfo m).number m (d.partInfo m).len d'.diskParts } := by
      rw [CacheDisk.updateEntry, hinfo, hfree, if_neg (by decide)]
    have hused : ∀ i, Used d.partInfo (m + 1) i ↔ Used d.partInfo m i ∨ i = m := fun i => by simp [used_succ, hfree]
    refine ⟨?_, ?_⟩
    · rw [hd', hsucc, h.same]
    · rw [hd']
      exact h.parts.add (fun hu => absurd hu.1 (lt_irrefl m)) hused (fun _ _ => rfl) rfl

theorem updateHeader_rebuilt (d : CacheDisk) : Rebuilt d d.numDiskpartBlks d.updateHeader := by
  have hrun : ∀ m, Rebuilt d m ((List.range m).foldl updateEntry
      { d with freeBlocks := ⟨0, -1, 0, []⟩, freeSpace := 0, diskParts := [] }) := by
    intro m
    induction m with
    | zero => exact ⟨rfl, by simp, by simp, fun i hi => absurd hi.1 (Nat.not_lt_zero i)⟩
    | succ m ih =>
      rw [range_succ, foldl_append]
      exact ih.updateEntry
  exact hrun _

theorem mem_freeEntries {info : Nat → DiskPartBlock} : i ∈ freeEntries info m ↔ i < m ∧ (info i).free = true := by
  simp [freeEntries]

theorem nodup_freeEntries (info : Nat → DiskPartBlock) (m : Nat) : (freeEntries info m).Nodup := nodup_range.filter _

theorem Table.free_perm (h : d.Table) : d.freeBlocks.dpbQueue.Perm (freeEntries d.partInfo d.numDiskpartBlks) :=
  (perm_ext_iff_of_nodup h.freeNodup (nodup_freeEntries ..)).2 fun i => by rw [h.freeMem, mem_freeEntries]

theorem deleteAllPartitions_table (d : CacheDisk) (hlen : d.numUsableBlocks < 2 ^ 26) :
    d.deleteAllPartitions.Table ∧ d.deleteAllPartitions.freeBlocks.numPartblocks =
      d.deleteAllPartitions.freeBlocks.dpbQueue.length := by
  obtain ⟨d1, hd1⟩ : ∃ d1 : CacheDisk, d1 = { d with
      partInfo := update d.partInfo 0 { d.partInfo 0 with
        offset := d.start
        len := d.numUsableBlocks % 2 ^ 26
        type := 0
        free := true }
      numUsed := 0
      numFree := 1
      numDiskpartBlks := 1
      diskParts := [] } := ⟨_, rfl⟩
  have hn : d1.numDiskpartBlks = 1 := by rw [hd1]
  have hfree : (d1.partInfo 0).free = true := by simp [hd1]
  have hentries : freeEntries d1.partInfo 1 = [0] := by simp [freeEntries, hfree]
  obtain ⟨hsame, hparts⟩ := updateHeader_rebuilt d1
  rw [hn, hentries] at hsame
  rw [hn] at hparts
  have hall : d.deleteAllPartitions = d1.updateHeader := by rw [hd1]; rfl
  rw [hall, hsame]
  refine ⟨⟨⟨?_, ?_, ?_⟩, nodup_singleton 0, ?_, hparts, ?_, ?_, rfl, rfl⟩, rfl⟩
  all_goals dsimp only
  · intro i hi
    obtain rfl : i = 0 := by omega
    simp only [hd1, update_self]
    rw [Nat.mod_eq_of_lt hlen]
    exact ⟨le_rfl, le_rfl⟩
  · intro i hi j hj hij
    omega
  · intro i hi
    obtain rfl : i = 0 := by omega
    simp only [hd1, update_self]
    exact Nat.mod_lt _ (by decide)
  · intro i
    rw [← hentries, mem_freeEntries]
  · simp [hd1]
  · have hnone : usedCount d1.partInfo 1 = 0 := by simp [usedCount, hfree]
    rw [hnone, hd1]
    rfl

/-! ### Runs -/

/-- What the partition table and the queues are to satisfy. -/
structure Consistent (d : CacheDisk) : Prop where
  inside : ∀ i < d.numDiskpartBlks, d.start ≤ (d.partInfo i).offset ∧
    (d.partInfo i).offset + (d.partInfo i).len * storeBlockSize ≤
      d.start + d.numUsableBlocks * storeBlockSize
  apart : ∀ i < d.numDiskpartBlks, ∀ j < d.numDiskpartBlks, i ≠ j →
    (d.partInfo i).offset + (d.partInfo i).len * storeBlockSize ≤ (d.partInfo j).offset ∨
      (d.partInfo j).offset + (d.partInfo j).len * storeBlockSize ≤ (d.partInfo i).offset
  freeQueue : d.freeBlocks.dpbQueue.Nodup ∧
    ∀ i, i ∈ d.freeBlocks.dpbQueue ↔ i < d.numDiskpartBlks ∧ (d.partInfo i).free = true
  partQueue : ∀ p ∈ d.diskParts, p.dpbQueue.Nodup ∧
    ∀ i, i ∈ p.dpbQueue ↔ Used d.partInfo d.numDiskpartBlks i ∧
      ((d.partInfo i).number : Int) = p.partNumber
  partOf : ∀ i, Used d.partInfo d.numDiskpartBlks i →
    ∃ p ∈ d.diskParts, p.partNumber = (d.partInfo i).number
  partNumbers : (d.diskParts.map DiskPart.partNumber).Nodup
  numFree : d.numFree = (freeEntries d.partInfo d.numDiskpartBlks).length
  numUsed : d.numUsed = usedCount d.partInfo d.numDiskpartBlks
  freeSpace : d.freeSpace = lenSum d.partInfo (freeEntries d.partInfo d.numDiskpartBlks)
  freeSize : d.freeBlocks.size = d.freeSpace
  freeCount : d.freeBlocks.numPartblocks = d.freeBlocks.dpbQueue.length
  partTotals : ∀ p ∈ d.diskParts, p.numPartblocks = p.dpbQueue.length ∧
    p.size = lenSum d.partInfo p.dpbQueue
  rebuilt : d.updateHeader.freeSpace = d.freeSpace ∧
    d.updateHeader.freeBlocks.size = d.freeBlocks.size ∧
    d.updateHeader.freeBlocks.numPartblocks = d.freeBlocks.numPartblocks ∧
    (d.updateHeader.diskParts.map DiskPart.totals).Perm (d.diskParts.map DiskPart.totals)

theorem Table.consistent (h : d.Table)
    (hcount : d.freeBlocks.numPartblocks = d.freeBlocks.dpbQueue.length) : d.Consistent := by
  obtain ⟨hsame, hparts⟩ := updateHeader_rebuilt d
  have hsum := lenSum_perm d.partInfo h.free_perm
  have hlen := h.free_perm.length_eq
  refine ⟨h.blocks.inside, h.blocks.apart, ⟨h.freeNodup, h.freeMem⟩,
    fun p hp => ⟨(h.parts.each p hp).nodup, (h.parts.each p hp).mem⟩, h.parts.covered,
    h.parts.distinct, by rw [h.numFree, hlen], h.numUsed, by rw [h.freeSpace, hsum],
    by rw [h.freeSize, h.freeSpace], hcount,
    fun p hp => ⟨(h.parts.each p hp).count, (h.parts.each p hp).size⟩, ?_, ?_, ?_,
    hparts.totals_perm h.parts⟩
  · rw [hsame, h.freeSpace, hsum]
  · rw [hsame, h.freeSize, hsum]
  · rw [hsame, hcount, hlen]

/-! ### No entry after the end of an array -/

theorem length_addToPart (v : Int) (b len : Nat) (parts : List DiskPart) :
    (addToPart v b len parts).length ≤ parts.length + 1 := by
  induction parts with
  | nil => simp [addToPart]
  | cons a l ih =>
    rw [addToPart]
    split
    · simp
    · simpa using ih

theorem allocate_room (d : CacheDisk) (q : Nat) (number size scheme : Int) :
    (d.allocate q number size scheme).numUsableBlocks = d.numUsableBlocks ∧
    (d.allocate q number size scheme).numDiskpartBlks ≤ d.numDiskpartBlks + 1 ∧
    (d.allocate q number size scheme).diskParts.length ≤ d.diskParts.length + 1 := by
  rw [allocate]
  split
  · exact ⟨rfl, le_rfl, length_addToPart ..⟩
  · exact ⟨rfl, Nat.le_succ _, length_addToPart ..⟩

theorem createPartition_room (d : CacheDisk) (number size scheme : Int) :
    (d.createPartition number size scheme).1.numUsableBlocks = d.numUsableBlocks ∧
    (d.createPartition number size scheme).1.numDiskpartBlks ≤ d.numDiskpartBlks + 1 ∧
    (d.createPartition number size scheme).1.diskParts.length ≤ d.diskParts.length + 1 := by
  rw [createPartition]
  split
  · exact ⟨rfl, Nat.le_succ _, Nat.le_succ _⟩
  · split
    · exact ⟨rfl, Nat.le_succ _, Nat.le_succ _⟩
    · dsimp only
      split
      · exact allocate_room ..
      · exact allocate_room ..

end CacheDisk

inductive DiskOp
  | create (number size scheme : Int)
  | delete (number : Int)
  | deleteAll

/-- What a call of `create_partition` needs: a size and a number that their types can hold, an array
entry for each, and that it splits a free block. -/
def DiskOp.Fits (d : CacheDisk) : DiskOp → Prop
  | .create number size _ => 0 < size ∧ size < 2 ^ 32 ∧ (0 ≤ number ∧ number < 2 ^ 16) ∧
    d.Splits size ∧ d.numDiskpartBlks < d.partInfoLen ∧ d.diskParts.length < d.diskPartsLen
  | _ => True

namespace CacheDisk

/-- A call, `none` if it writes after the end of `part_info` or `disk_parts`. -/
def apply (d : CacheDisk) : DiskOp → Option CacheDisk
  | .create number size scheme =>
    let d' := (d.createPartition number size scheme).1
    if d'.numDiskpartBlks ≤ d.partInfoLen ∧ d'.diskParts.length ≤ d.diskPartsLen then some d' else none
  | .delete number => some (d.deletePartition number).1
  | .deleteAll => some d.deleteAllPartitions

/-- The table of a disk whose length the header can hold, with the right count in `free_blocks`. -/
structure Inv (d : CacheDisk) : Prop where
  table : d.Table
  count : d.freeBlocks.numPartblocks = d.freeBlocks.dpbQueue.length
  usable : d.numUsableBlocks < 2 ^ 26

variable {d d' : CacheDisk} {op : DiskOp}

theorem deleteAllPartitions_inv (h : d.numUsableBlocks < 2 ^ 26) : d.deleteAllPartitions.Inv := by
  obtain ⟨ht, hc⟩ := deleteAllPartitions_table d h
  refine ⟨ht, hc, ?_⟩
  rw [deleteAllPartitions, (updateHeader_rebuilt _).same]
  exact h

theorem Inv.apply (h : d.Inv) (hop : op.Fits d) (hrun : d.apply op = some d') : d'.Inv := by
  cases op with
  | create number size scheme =>
    obtain ⟨hpos, hsize, hnum, hsplits, -⟩ := hop
    rw [apply] at hrun
    split at hrun
    · obtain rfl := some.inj hrun
      obtain ⟨ht, hc, hl, -⟩ := h.table.createPartition hpos hsize hnum scheme
      refine ⟨ht, by rw [hc, h.count, hl hsplits], ?_⟩
      rw [(createPartition_room d number size scheme).1]
      exact h.usable
    · cases hrun
  | delete number =>
    obtain rfl := some.inj hrun
    obtain ⟨ht, hc⟩ := h.table.deletePartition number
    have := h.count
    refine ⟨ht, by omega, ?_⟩
    rw [deletePartition]
    split
    · exact h.usable
    · dsimp only
      rw [foldl_freeBlock]
      exact h.usable
  | deleteAll =>
    obtain rfl := some.inj hrun
    exact deleteAllPartitions_inv h.usable

theorem exists_apply (hop : op.Fits d) : ∃ d', d.apply op = some d' := by
  cases op with
  | create number size scheme =>
    obtain ⟨-, -, -, -, h1, h2⟩ := hop
    obtain ⟨-, h3, h4⟩ := createPartition_room d number size scheme
    exact ⟨_, if_pos ⟨by omega, by omega⟩⟩
  | delete number => exact ⟨_, rfl⟩
  | deleteAll => exact ⟨_, rfl⟩

/-- **The partition table stays consistent**, in all that is stored twice, in every run of calls that
fit: from `delete_all_partitions` on, with any partitions created and deleted. -/
theorem partition_table_consistent (d₀ : CacheDisk) (hlen : d₀.numUsableBlocks < 2 ^ 26)
    (hrun : ReflTransGen (fun d d' => ∃ op : DiskOp, op.Fits d ∧ d.apply op = some d')
      d₀.deleteAllPartitions d) : d.Consistent ∧ ∀ op : DiskOp, op.Fits d → ∃ d', d.apply op = some d' := by
  have h : d.Inv := by
    induction hrun with
    | refl => exact deleteAllPartitions_inv hlen
    | tail _ hstep ih =>
      obtain ⟨op, hop, hd⟩ := hstep
      exact ih.apply hop hd
  exact ⟨h.table.consistent h.count, fun op hop => exists_apply hop⟩

def tiny : CacheDisk where
  start := 512
  numUsableBlocks := 49152
  partInfoLen := 3
  diskPartsLen := 4
  partInfo _ := ⟨0, 0, 0, 0, false⟩
  numDiskpartBlks := 0
  numFree := 0
  numUsed := 0
  diskParts := []
  freeBlocks := ⟨0, -1, 0, []⟩
  freeSpace := 0
  wastedSpace := 0

theorem partition_table_consistent_tiny :
    ∃ d, tiny.deleteAllPartitions.apply (.create 1 16384 1) = some d ∧ d.numUsed = 1 ∧
      d.numFree = 1 ∧ d.Consistent := by
  have hfits : (DiskOp.create 1 16384 1).Fits tiny.deleteAllPartitions :=
    ⟨by decide, by decide, by decide, .inr ⟨0, by decide, by decide⟩, by decide, by decide⟩
  have hrun := ReflTransGen.single
    (r := fun d d' => ∃ op : DiskOp, op.Fits d ∧ d.apply op = some d') ⟨_, hfits, rfl⟩
  exact ⟨_, rfl, by decide, by decide, (partition_table_consistent tiny (by decide) hrun).1⟩

/-- A partition that takes all of the disk: `free_blocks` still counts one block, which
`update_header` does not find. -/
theorem partition_table_drift : let d := (tiny.deleteAllPartitions.createPartition 1 49152 1).1
    d.freeBlocks.dpbQueue = [] ∧ d.freeBlocks.numPartblocks = 1 ∧
      d.updateHeader.freeBlocks.numPartblocks = 0 ∧ ¬ d.Consistent := by
  intro d
  have hcount : d.freeBlocks.numPartblocks = 1 := by decide
  have hqueue : d.freeBlocks.dpbQueue = [] := by decide
  refine ⟨hqueue, hcount, by decide, fun h => ?_⟩
  have := h.freeCount
  exact absurd this (by decide)

end CacheDisk

end TrafficServer
