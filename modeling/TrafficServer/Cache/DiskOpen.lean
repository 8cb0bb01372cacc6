import TrafficServer.Cache.DiskRun

/-!
# Opening and clearing a disk

`CacheDisk::open` lays out the header of a disk and counts the store blocks behind it; with `clear`
all of them become one free block. The count goes through an `int` and the length of the block is a
field of 26 bits, so a disk of `2 ^ 26` usable blocks or more loses a multiple of `2 ^ 26` of them.
Once a length is in the table nothing cuts it again: every length there fits its field, and a block
of at most such a length is found and gets the size asked for.
-/

namespace TrafficServer

open CInt (toInt32)

def roundToBlock (x : Int) : Int := (x + 511) / 512 * 512

def startPos : Nat := 16384

def minPartSize : Nat := 134217728

/-- `sizeof(DiskHeader)`, with its one `DiskPartBlock`. -/
def sizeofDiskHeader : Nat := 48

def sizeofDiskPartBlock : Nat := 16

namespace CacheDisk

section Open
variable (blocks dirSkip : Nat)

def openSkip : Int := roundToBlock (if dirSkip < startPos then startPos else dirSkip)

/-- The bytes left for partitions behind a header, as an `inku64`. -/
def openLen (headerLen : Int) : Nat := ((blocks * storeBlockSize - headerLen) % 2 ^ 64).toNat

/-- One round of the loop over the length of the header, from `start - skip`. -/
def headerRound (headerLen : Int) : Int :=
  let l := openLen blocks headerLen
  if l ≥ minPartSize then
    toInt32 (sizeofDiskHeader + (l / minPartSize - 1) * sizeofDiskPartBlock : Nat)
  else sizeofDiskHeader

def headerLen : Int :=
  toInt32 (roundToBlock (headerRound blocks (headerRound blocks (headerRound blocks 0))))

def openStart : Int := openSkip dirSkip + headerLen blocks

def usableBlocks : Int :=
  (blocks * storeBlockSize - (openStart blocks dirSkip - dirSkip)) / storeBlockSize

/-- `open` before it reads or clears the header; the `int` `num_usable_blocks` by its 32 bits. -/
def opened : CacheDisk where
  start := openStart blocks dirSkip
  numUsableBlocks := (toInt32 (usableBlocks blocks dirSkip) % 2 ^ 32).toNat
  partInfoLen := ((headerLen blocks - sizeofDiskHeader) / sizeofDiskPartBlock + 1).toNat
  diskPartsLen :=
    openLen blocks (headerRound blocks (headerRound blocks 0)) / minPartSize + 1
  partInfo _ := ⟨0, 0, 0, 0, false⟩
  numDiskpartBlks := 0
  numFree := 0
  numUsed := 0
  diskParts := []
  freeBlocks := ⟨0, -1, 0, []⟩
  freeSpace := 0
  wastedSpace := 0

def openClear : CacheDisk := (opened blocks dirSkip).deleteAllPartitions

end Open

variable {d d' : CacheDisk} {blocks dirSkip : Nat}

def Calls (d d' : CacheDisk) : Prop := ∃ op : DiskOp, d.apply op = some d'

def HasFree (d : CacheDisk) (size : Nat) : Prop :=
  ∃ q ∈ d.freeBlocks.dpbQueue, size ≤ (d.partInfo q).len

/-- After `open` all usable blocks are free, and whatever is called after it, a partition that is
not larger than the largest free block gets its size. -/
def NoSpaceLost (blocks dirSkip : Nat) : Prop :=
  (openClear blocks dirSkip).freeSpace = usableBlocks blocks dirSkip ∧
    ∀ d, Relation.ReflTransGen Calls (openClear blocks dirSkip) d →
      ∀ (number scheme : Int) (size : Nat), 0 < size → d.HasFree size →
        ∃ q, (d.createPartition number size scheme).2 = some q ∧
          (((d.createPartition number size scheme).1.partInfo q).len : Int) = min (size : Int) maxBlocks

/-! ### The free space -/

theorem openClear_freeSpace (blocks dirSkip : Nat) :
    (openClear blocks dirSkip).freeSpace = usableBlocks blocks dirSkip % 2 ^ 26 := by
  have hlen : (openClear blocks dirSkip).freeSpace =
      0 + (((toInt32 (usableBlocks blocks dirSkip) % 2 ^ 32).toNat % 2 ^ 26 : Nat) : Int) := rfl
  rw [hlen, toInt32]
  generalize usableBlocks blocks dirSkip = n
  omega

/-! ### Lengths fit their field -/

def LensFit (d : CacheDisk) : Prop := ∀ i, (d.partInfo i).len < 2 ^ 26

theorem lensFit_update {info : Nat → DiskPartBlock} {b : DiskPartBlock} (q : Nat)
    (h : ∀ i, (info i).len < 2 ^ 26) (hb : b.len < 2 ^ 26) (i : Nat) : (Function.update info q b i).len < 2 ^ 26 := by
  rw [Function.update_apply]
  split
  · exact hb
  · exact h i

theorem emod_len_lt (x : Int) : (x % 2 ^ 26).toNat < 2 ^ 26 := by omega

section
variable (h : d.LensFit)

include h

theorem LensFit.allocate (q : Nat) (number size scheme : Int) : (d.allocate q number size scheme).LensFit := by
  unfold CacheDisk.allocate
  by_cases hsplit : toInt32 ((d.partInfo q).len - size) ≥ blocksPerPart
  · simp only [if_pos hsplit]
    exact lensFit_update q (lensFit_update _ h (emod_len_lt _)) (emod_len_lt _)
  · simp only [if_neg hsplit]
    exact lensFit_update q h (emod_len_lt _)

theorem LensFit.createPartition (number size scheme : Int) : (d.createPartition number size scheme).1.LensFit := by
  rw [CacheDisk.createPartition]
  split
  · exact h
  · split
    · exact h
    · dsimp only
      split
      · exact h.allocate _ _ _ _
      · refine LensFit.allocate ?_ _ _ _ _
        exact h

theorem LensFit.deletePartition (number : Int) : (d.deletePartition number).1.LensFit := by
  rw [CacheDisk.deletePartition]
  split
  · exact h
  · dsimp only
    rw [foldl_freeBlock]
    intro i
    rw [freed_len]
    exact h i

theorem LensFit.deleteAllPartitions : d.deleteAllPartitions.LensFit := by
  intro i
  rw [CacheDisk.deleteAllPartitions, (updateHeader_rebuilt _).same]
  exact lensFit_update 0 h (Nat.mod_lt _ (by decide)) i

theorem LensFit.apply (hcall : d.Calls d') : d'.LensFit := by
  obtain ⟨op, hop⟩ := hcall
  cases op with
  | create number size scheme =>
    rw [CacheDisk.apply] at hop
    split at hop
    · obtain rfl := Option.some.inj hop
      exact h.createPartition number size scheme
    · cases hop
  | delete number =>
    obtain rfl := Option.some.inj hop
    exact h.deletePartition number
  | deleteAll =>
    obtain rfl := Option.some.inj hop
    exact h.deleteAllPartitions

end

theorem lensFit_of_run (hrun : Relation.ReflTransGen Calls (openClear blocks dirSkip) d) : d.LensFit := by
  induction hrun with
  | refl => exact LensFit.deleteAllPartitions fun _ => Nat.two_pow_pos 26
  | tail _ hcall ih => exact ih.apply hcall

/-! ### A block that is large enough -/

theorem createPartition_len (h : d.LensFit) {size : Nat} (hpos : 0 < size) (hfree : d.HasFree size)
    (number scheme : Int) : ∃ q, (d.createPartition number size scheme).2 = some q ∧
      (((d.createPartition number size scheme).1.partInfo q).len : Int) = min (size : Int) maxBlocks := by
  obtain ⟨q0, hq0, hlen0⟩ := hfree
  have hsize : size < 2 ^ 26 := lt_of_le_of_lt hlen0 (h q0)
  have hle : (size : Int) ≤ maxBlocks := by
    rw [maxBlocks]
    omega
  obtain ⟨q, hq⟩ : ∃ q, d.findBlock size = some q := by
    rw [← Option.isSome_iff_exists, findBlock, List.find?_isSome]
    refine ⟨q0, hq0, decide_eq_true ?_⟩
    omega
  obtain ⟨head, tail, hqueue⟩ := List.exists_cons_of_ne_nil (List.ne_nil_of_mem hq0)
  have hcreate : d.createPartition number size scheme = (d.allocate q number size scheme, some q) := by
    simp [createPartition, hqueue, hle, hq, hpos.ne']
  refine ⟨q, by rw [hcreate], ?_⟩
  rw [hcreate, allocate, min_eq_left hle]
  rw [useBlock_info_self]
  show (((size % 2 ^ 26 : Int).toNat : Nat) : Int) = size
  omega

/-- **Space is lost to the 26-bit length exactly when there are `2 ^ 26` usable blocks or more**, or
not even room for the header. -/
theorem noSpaceLost_iff (blocks dirSkip : Nat) : NoSpaceLost blocks dirSkip ↔
    0 ≤ usableBlocks blocks dirSkip ∧ usableBlocks blocks dirSkip < 2 ^ 26 := by
  have hspace := openClear_freeSpace blocks dirSkip
  constructor
  · rintro ⟨hexact, -⟩
    omega
  · intro hfits
    refine ⟨by rw [hspace]; omega, fun d hrun number scheme size hpos hfree => ?_⟩
    exact createPartition_len (lensFit_of_run hrun) hpos hfree number scheme

theorem halfTerabyte_space_lost : usableBlocks (2 ^ 26 + 11) 0 = 2 ^ 26 ∧
    (openClear (2 ^ 26 + 11) 0).freeSpace = 0 ∧ ¬ NoSpaceLost (2 ^ 26 + 11) 0 := by
  have husable : usableBlocks (2 ^ 26 + 11) 0 = 2 ^ 26 := by decide +kernel
  have hspace : (openClear (2 ^ 26 + 11) 0).freeSpace = 0 := by
    rw [openClear_freeSpace, husable]
    decide
  refine ⟨husable, hspace, fun h => ?_⟩
  have := hspace.symm.trans (h.1.trans husable)
  exact absurd this (by decide)

end CacheDisk

end TrafficServer
