import TrafficServer.Lib.CInt

/-!
# The memory of the host database

`MultiCacheBase` keeps its levels behind each other in one area of memory, with a heap and a header
behind them. The buckets belong to 64 partitions, which have their own locks and are synced one by one.

* Both roundings of the partitions are of the same product: bucket `b` is in partition `p` or a later one
  iff `N * p < 64 * (b + 1)`. So the partitions are right for every number of buckets, and everything that
  goes by them agrees as long as the levels are below `2 ^ 31`, since their offsets are `int`s.
* The fallback of `mmap_data` puts the heap behind the blocks of the last level alone. With two levels
  these are fewer than the blocks of all levels, and the heap is inside a level.
-/

namespace TrafficServer

open List CInt

/-- `MultiCacheBase` after `initialize` with one or two levels. A level that is not there has no elements;
with two levels `initialize` has divided by the elements of level 0 and found no fewer in level 1. -/
structure MultiCacheBase where
  levels : Nat
  elementsize : Nat
  buckets : Nat
  elements : Nat → Nat
  heapSize : Nat
  oneOrTwo : levels = 1 ∨ levels = 2
  absent : ∀ l, levels ≤ l → elements l = 0
  present : levels = 2 → 0 < buckets * (elementsize * elements 0) ∧ 0 < buckets * (elementsize * elements 1)
  buckets_lt : buckets < 2 ^ 31
  bucketsize_lt : ∀ l, elementsize * elements l < 2 ^ 31
  heapSize_lt : heapSize < 2 ^ 31

namespace MultiCacheBase

def storeBlockSize : Nat := 8192

def multiCachePartitions : Nat := 64

section Code
variable (mc : MultiCacheBase)

def bucketsize (l : Nat) : Nat := mc.elementsize * mc.elements l

def levelBytes (l : Nat) : Nat := mc.buckets * mc.bucketsize l

def levelOffset : Nat → Int
  | 0 => 0
  | 1 => toInt32 (mc.levelBytes 0)
  | _ + 2 => toInt32 (toInt32 (mc.levelBytes 1) + toInt32 (mc.levelBytes 0))

/-! ### Partitions -/

def bucketsPerPartitionF8 : Int := (toInt32 (mc.buckets * 2 ^ 8)).tdiv multiCachePartitions

def partitionOfBucket (b : Int) : Int :=
  (toInt32 (toInt32 (b * 2 ^ 8) + 0xFF)).tdiv mc.bucketsPerPartitionF8

def firstBucketOfPartition (p : Int) : Int := toInt32 (mc.bucketsPerPartitionF8 * p) / 2 ^ 8

def lastBucketOfPartition (p : Int) : Int := mc.firstBucketOfPartition (p + 1) - 1

def bucketsOfPartition (p : Int) : Int :=
  mc.lastBucketOfPartition p - mc.firstBucketOfPartition p + 1

def ptrToPartition (x : Int) : Int :=
  let o := toInt32 x
  if o < mc.levelOffset 0 then -1
  else if o < mc.levelOffset 1 then
    mc.partitionOfBucket ((toInt32 (o - mc.levelOffset 0)).tdiv (mc.bucketsize 0))
  else if o < mc.levelOffset 2 then
    mc.partitionOfBucket ((toInt32 (o - mc.levelOffset 1)).tdiv (mc.bucketsize 1))
  else if o < toInt32 (mc.levelOffset 2 + mc.elements 2 * mc.elementsize) then
    mc.partitionOfBucket ((toInt32 (o - mc.levelOffset 2)).tdiv (mc.bucketsize 2))
  else -1

def partitionStart (p : Int) (l : Nat) : Int :=
  mc.levelOffset l + toInt32 (mc.firstBucketOfPartition p * mc.bucketsize l)

/-- `data + x` is in the range of level `l` that `sync_partition` syncs. -/
def Synced (p : Int) (l : Nat) (x : Int) : Prop :=
  mc.partitionStart p l ≤ x ∧ x < mc.partitionStart p l + toInt32 (mc.bucketsOfPartition p * mc.bucketsize l)

/-- `data + x` is in an element of level `l` that `copy_heap` comes to. -/
def Visited (p : Int) (l : Nat) (x : Int) : Prop :=
  mc.partitionStart p l ≤ x ∧
    x < mc.partitionStart p l + toInt32 (mc.bucketsOfPartition p * mc.elements l) * mc.elementsize

end Code

def levelStart (mc : MultiCacheBase) : Nat → Nat
  | 0 => 0
  | _ + 1 => mc.levelBytes 0

def InBucket (mc : MultiCacheBase) (l : Nat) (b x : Int) : Prop :=
  mc.levelStart l + b * mc.bucketsize l ≤ x ∧ x < mc.levelStart l + (b + 1) * mc.bucketsize l

theorem exists_twoLevels (buckets : Nat) (h0 : 0 < buckets) (h : buckets < 2 ^ 31) :
    ∃ mc : MultiCacheBase, mc.levels = 2 ∧ mc.buckets = buckets ∧ mc.heapSize = 0 ∧
      mc.levelBytes 0 = buckets * 256 ∧ mc.levelBytes 1 = buckets * 2048 := by
  refine ⟨⟨2, 64, buckets, fun l => [4, 32].getD l 0, 0, .inr rfl, ?_, ?_, h, ?_, by decide⟩, rfl, rfl, rfl, rfl, rfl⟩
  · rintro (_ | _ | l) hl
    all_goals simp at hl ⊢
  · exact fun _ => ⟨mul_pos h0 (by decide), mul_pos h0 (by decide)⟩
  · rintro (_ | _ | l)
    all_goals simp

/-- The partitions tile the buckets, and whatever goes by a bucket or by an address goes to one of them. -/
structure PartitionsAgree (mc : MultiCacheBase) : Prop where
  first : mc.firstBucketOfPartition 0 = 0
  consecutive : ∀ p : Int, 0 ≤ p → p < multiCachePartitions →
    mc.firstBucketOfPartition p ≤ mc.lastBucketOfPartition p ∧
      mc.firstBucketOfPartition (p + 1) = mc.lastBucketOfPartition p + 1
  last : mc.lastBucketOfPartition (multiCachePartitions - 1) = mc.buckets - 1
  inverse : ∀ b p : Int, 0 ≤ b → b < mc.buckets → 0 ≤ p → p < multiCachePartitions →
    (mc.partitionOfBucket b = p ↔ mc.firstBucketOfPartition p ≤ b ∧ b ≤ mc.lastBucketOfPartition p)
  address : ∀ l < 2, ∀ b x : Int, 0 ≤ b → b < mc.buckets → mc.InBucket l b x →
    mc.ptrToPartition x = mc.partitionOfBucket b ∧ ∀ p : Int, 0 ≤ p → p < multiCachePartitions →
      (mc.Synced p l x ↔ mc.partitionOfBucket b = p) ∧ (mc.Visited p l x ↔ mc.partitionOfBucket b = p)

variable {mc : MultiCacheBase} {b p x : Int} {l : Nat}

section Partitions
variable (hmin : 64 ≤ mc.buckets) (hmax : mc.buckets < 2 ^ 23)
include hmax

theorem bucketsPerPartitionF8_eq : mc.bucketsPerPartitionF8 = 4 * mc.buckets := by
  rw [bucketsPerPartitionF8, toInt32_of_mem (by omega) (by omega), Int.tdiv_eq_ediv_of_nonneg (by omega),
    multiCachePartitions]
  omega

theorem firstBucketOfPartition_eq (h0 : 0 ≤ p) (h64 : p ≤ 64) :
    mc.firstBucketOfPartition p = mc.buckets * p / 64 := by
  have hp0 : 0 ≤ (mc.buckets : Int) * p := Int.mul_nonneg (Int.natCast_nonneg _) h0
  have hp : (mc.buckets : Int) * p ≤ mc.buckets * 64 := Int.mul_le_mul_of_nonneg_left h64 (Int.natCast_nonneg _)
  rw [firstBucketOfPartition, bucketsPerPartitionF8_eq hmax, mul_assoc, toInt32_of_mem (by omega) (by omega)]
  omega

include hmin

theorem le_partitionOfBucket_iff (hb0 : 0 ≤ b) (hb : b < mc.buckets) (h0 : 0 ≤ p) (h64 : p ≤ 64) :
    p ≤ mc.partitionOfBucket b ↔ mc.firstBucketOfPartition p ≤ b := by
  rw [firstBucketOfPartition_eq hmax h0 h64, partitionOfBucket, bucketsPerPartitionF8_eq hmax,
    toInt32_toInt32_add, toInt32_of_mem (by omega) (by omega), Int.tdiv_eq_ediv_of_nonneg (by omega),
    Int.le_ediv_iff_mul_le (by omega), show p * (4 * (mc.buckets : Int)) = 4 * (mc.buckets * p) by ring]
  generalize (mc.buckets : Int) * p = q
  omega

theorem partitionOfBucket_eq_iff (hb0 : 0 ≤ b) (hb : b < mc.buckets) (h0 : 0 ≤ p) (h64 : p < 64) :
    mc.partitionOfBucket b = p ↔ mc.firstBucketOfPartition p ≤ b ∧ b ≤ mc.lastBucketOfPartition p := by
  have h1 := le_partitionOfBucket_iff hmin hmax hb0 hb h0 h64.le
  have h2 := le_partitionOfBucket_iff hmin hmax hb0 hb (show 0 ≤ p + 1 by omega) (by omega)
  rw [lastBucketOfPartition]
  omega

end Partitions

/-! ### Addresses -/

variable {n s y : Int}

theorem ediv_row (hle : b * s ≤ y) (hlt : y < (b + 1) * s) : 0 < s ∧ y / s = b := by
  have hs : 0 < s := by
    rw [add_mul, one_mul] at hlt
    omega
  exact ⟨hs, le_antisymm (Int.lt_add_one_iff.1 ((Int.ediv_lt_iff_lt_mul hs).2 hlt))
    ((Int.le_ediv_iff_mul_le hs).2 hle)⟩

theorem InBucket.mem_row_iff (hin : mc.InBucket l b x) : (mc.levelStart l + p * mc.bucketsize l ≤ x ∧
      x < mc.levelStart l + p * mc.bucketsize l + n * mc.bucketsize l) ↔ p ≤ b ∧ b < p + n := by
  obtain ⟨hs, hb⟩ := ediv_row (le_sub_iff_add_le'.2 hin.1) (sub_lt_iff_lt_add'.2 hin.2)
  rw [← le_sub_iff_add_le', add_assoc, ← sub_lt_iff_lt_add', ← add_mul,
    ← Int.le_ediv_iff_mul_le hs, ← Int.ediv_lt_iff_lt_mul hs, hb]

theorem toInt32_row {N s : Nat} (h0 : 0 ≤ n) (hn : n ≤ N) (hsmall : N * s < 2 ^ 31) : toInt32 (n * s) = n * s := by
  have hle : n * s ≤ (N * s : Nat) := by
    rw [Int.natCast_mul]
    exact Int.mul_le_mul_of_nonneg_right hn (Int.natCast_nonneg s)
  have hnonneg := Int.mul_nonneg h0 (Int.natCast_nonneg s)
  exact toInt32_of_mem (by omega) (by omega)

theorem toInt32_elements (h0 : 0 ≤ n) (hn : n ≤ mc.buckets) (hsmall : mc.levelBytes l < 2 ^ 31) :
    toInt32 (n * mc.elements l) * mc.elementsize = n * mc.bucketsize l := by
  rw [bucketsize, Int.natCast_mul]
  rcases eq_zero_or_pos mc.elementsize with hzero | hpos
  · rw [hzero, Nat.cast_zero, Int.mul_zero, Int.zero_mul, Int.mul_zero]
  · have hrow : mc.buckets * mc.elements l < 2 ^ 31 := by
      exact (Nat.mul_le_mul_left _ (Nat.le_mul_of_pos_left _ hpos)).trans_lt hsmall
    rw [toInt32_row h0 hn hrow]
    ring

theorem exists_bucket {N s : Nat} (h0 : 0 ≤ y) (hlt : y < (N * s : Nat)) :
    ∃ b : Int, 0 ≤ b ∧ b < N ∧ b * s ≤ y ∧ y < (b + 1) * s := by
  have hs : (0 : Int) < s := by
    rcases eq_zero_or_pos s with rfl | hs
    · rw [Nat.mul_zero] at hlt
      omega
    · exact Int.natCast_pos.2 hs
  exact ⟨y / s, Int.ediv_nonneg h0 hs.le, Int.ediv_lt_of_lt_mul hs hlt, Int.ediv_mul_le y hs.ne',
    Int.lt_ediv_add_one_mul_self y hs⟩

theorem elements_two : mc.elements 2 = 0 := mc.absent 2 (by rcases mc.oneOrTwo with h | h <;> omega)

theorem ptrToPartition_eq_neg_one (hx : x = 2 ^ 31 ∨
      x = 2 ^ 31 - 1 ∧ mc.levelBytes 0 + mc.levelBytes 1 = 2 ^ 31) : mc.ptrToPartition x = -1 := by
  have h0 : mc.levelOffset 0 = 0 := rfl
  unfold ptrToPartition
  rw [elements_two, h0]
  rcases hx with rfl | ⟨rfl, htotal⟩
  · exact if_pos (by decide)
  · have h1 : mc.levelOffset 1 < 2 ^ 31 := by
      rw [levelOffset]
      exact toInt32_lt _
    have h2 : mc.levelOffset 2 = -2 ^ 31 := by
      rw [levelOffset, toInt32_toInt32_add, add_comm, toInt32_toInt32_add, ← Int.natCast_add, htotal]
      decide
    have hx : toInt32 (2 ^ 31 - 1) = 2 ^ 31 - 1 := by decide
    rw [h2, hx, if_neg (by omega), if_neg (by omega), if_neg (by decide), Nat.cast_zero,
      Int.zero_mul, add_zero, if_neg (by decide)]

section Addresses
variable (hmin : 64 ≤ mc.buckets) (hmax : mc.buckets < 2 ^ 23)
include hmin hmax

theorem PartitionsAgree.small (h : mc.PartitionsAgree) : mc.levelBytes 0 + mc.levelBytes 1 < 2 ^ 31 := by
  by_contra hbig
  obtain ⟨x, hx0, hlt, hx⟩ : ∃ x : Int, 0 ≤ x ∧ x < mc.levelBytes 0 + mc.levelBytes 1 ∧
      (x = 2 ^ 31 ∨ x = 2 ^ 31 - 1 ∧ mc.levelBytes 0 + mc.levelBytes 1 = 2 ^ 31) := by
    by_cases htotal : mc.levelBytes 0 + mc.levelBytes 1 = 2 ^ 31
    · exact ⟨2 ^ 31 - 1, by decide, by omega, .inr ⟨rfl, htotal⟩⟩
    · exact ⟨2 ^ 31, by decide, by omega, .inl rfl⟩
  obtain ⟨l, b, hl, hb0, hb, hin⟩ : ∃ (l : Nat) (b : Int), l < 2 ∧ 0 ≤ b ∧ b < mc.buckets ∧ mc.InBucket l b x := by
    by_cases hfirst : x < mc.levelBytes 0
    · obtain ⟨b, hb0, hb, hle, hlt⟩ := exists_bucket hx0 hfirst
      exact ⟨0, b, by decide, hb0, hb, by rw [levelStart]; omega, by rw [levelStart]; omega⟩
    · obtain ⟨b, hb0, hb, hle, hlt⟩ := exists_bucket (y := x - mc.levelBytes 0) (by omega)
        (show _ < ((mc.levelBytes 1 : Nat) : Int) by omega)
      exact ⟨1, b, by decide, hb0, hb, by rw [levelStart]; omega, by rw [levelStart]; omega⟩
  have hptr := (h.address l hl b x hb0 hb hin).1
  have hpart := (le_partitionOfBucket_iff hmin hmax hb0 hb le_rfl (by decide)).2 (h.first.trans_le hb0)
  rw [ptrToPartition_eq_neg_one hx] at hptr
  omega

theorem firstBucketOfPartition_add_one (h0 : 0 ≤ p) (h64 : p < 64) :
    0 ≤ mc.firstBucketOfPartition p ∧ mc.firstBucketOfPartition p < mc.firstBucketOfPartition (p + 1) ∧
      mc.firstBucketOfPartition (p + 1) ≤ mc.buckets := by
  have hp0 : 0 ≤ (mc.buckets : Int) * p := Int.mul_nonneg (Int.natCast_nonneg _) h0
  have hp : (mc.buckets : Int) * p ≤ mc.buckets * 63 :=
    Int.mul_le_mul_of_nonneg_left (by omega) (Int.natCast_nonneg _)
  rw [firstBucketOfPartition_eq hmax h0 h64.le, firstBucketOfPartition_eq hmax (by omega) (by omega),
    Int.mul_add, Int.mul_one]
  omega

variable (hsmall : mc.levelBytes 0 + mc.levelBytes 1 < 2 ^ 31) (hl : l < 2)
include hsmall hl

omit hmin hmax in
theorem levelOffset_eq : mc.levelOffset l = mc.levelStart l ∧ mc.levelStart l + mc.levelBytes l < 2 ^ 31 := by
  obtain rfl | rfl : l = 0 ∨ l = 1 := by omega
  · exact ⟨rfl, by rw [levelStart]; omega⟩
  · rw [levelOffset, levelStart, toInt32_of_mem (by omega) (by omega)]
    exact ⟨rfl, by omega⟩

variable (hb0 : 0 ≤ b) (hb : b < mc.buckets) (hin : mc.InBucket l b x)
include hb0 hb hin

omit hmin hmax in
theorem ptrToPartition_eq : mc.ptrToPartition x = mc.partitionOfBucket b := by
  obtain ⟨hle, hlt⟩ := hin
  obtain ⟨hs, hdiv⟩ := ediv_row (show b * (mc.bucketsize l : Int) ≤ x - mc.levelStart l by omega) (by omega)
  have hend : (b + 1) * (mc.bucketsize l : Int) ≤ mc.levelBytes l := by
    rw [levelBytes, Int.natCast_mul]
    exact Int.mul_le_mul_of_nonneg_right (by omega) hs.le
  have hstart := Int.mul_nonneg hb0 hs.le
  have h0 : mc.levelOffset 0 = 0 := rfl
  have h1 := (levelOffset_eq hsmall (show 1 < 2 by decide)).1
  have h2 : mc.levelOffset 2 = (mc.levelBytes 0 + mc.levelBytes 1 : Nat) := by
    rw [levelOffset, toInt32_toInt32_add, add_comm, toInt32_toInt32_add,
      toInt32_of_mem (by omega) (by omega), Int.natCast_add]
  have hx : toInt32 x = x := by
    have := (levelOffset_eq hsmall hl).2
    exact toInt32_of_mem (by omega) (by omega)
  rw [levelStart] at h1
  unfold ptrToPartition
  rw [hx, h0, h1, h2]
  obtain rfl | rfl : l = 0 ∨ l = 1 := by omega
  all_goals rw [levelStart] at hle hlt hdiv
  · rw [if_neg (by omega), if_pos (by omega), sub_zero, hx, Int.tdiv_eq_ediv_of_nonneg (by omega)]
    rw [Nat.cast_zero, sub_zero] at hdiv
    rw [hdiv]
  · rw [if_neg (by omega), if_neg (by omega), if_pos (by omega), toInt32_of_mem (by omega) (by omega),
      Int.tdiv_eq_ediv_of_nonneg (by omega), hdiv]

theorem synced_iff (h0 : 0 ≤ p) (h64 : p < 64) :
    (mc.Synced p l x ↔ mc.partitionOfBucket b = p) ∧ (mc.Visited p l x ↔ mc.partitionOfBucket b = p) := by
  obtain ⟨hf0, hf, hfN⟩ := firstBucketOfPartition_add_one hmin hmax h0 h64
  obtain ⟨hoff, hbytes⟩ := levelOffset_eq hsmall hl
  have hlevel : mc.levelBytes l < 2 ^ 31 := by omega
  have hrow : mc.buckets * mc.bucketsize l < 2 ^ 31 := by rwa [levelBytes] at hlevel
  have hn : mc.bucketsOfPartition p = mc.firstBucketOfPartition (p + 1) - mc.firstBucketOfPartition p := by
    rw [bucketsOfPartition, lastBucketOfPartition]
    omega
  have hn0 : 0 ≤ mc.bucketsOfPartition p := hn ▸ sub_nonneg_of_le hf.le
  have hnN : mc.bucketsOfPartition p ≤ mc.buckets := hn ▸ (sub_le_self _ hf0).trans hfN
  have hpartition : p = mc.partitionOfBucket b ↔ mc.firstBucketOfPartition p ≤ b ∧
      b < mc.firstBucketOfPartition p + mc.bucketsOfPartition p := by
    rw [eq_comm, partitionOfBucket_eq_iff hmin hmax hb0 hb h0 h64, lastBucketOfPartition, hn,
      Int.le_sub_one_iff, add_sub_cancel]
  rw [Synced, Visited, partitionStart, hoff, toInt32_row hf0 (hf.le.trans hfN) hrow,
    toInt32_row hn0 hnN hrow, toInt32_elements hn0 hnN hlevel, hin.mem_row_iff, ← hpartition, eq_comm]
  exact ⟨Iff.rfl, Iff.rfl⟩

omit hsmall hl hb0 hb hin

/-- **The partitions agree** if and only if no level reaches `2 ^ 31` bytes behind `data`. -/
theorem partitionsAgree_iff : mc.PartitionsAgree ↔ mc.levelBytes 0 + mc.levelBytes 1 < 2 ^ 31 := by
  refine ⟨PartitionsAgree.small hmin hmax, fun hsmall => ⟨?_, ?_, ?_, ?_, ?_⟩⟩
  · rw [firstBucketOfPartition_eq hmax le_rfl (by decide), Int.mul_zero, Int.zero_ediv]
  · intro p h0 h64
    have hnext := firstBucketOfPartition_add_one hmin hmax h0 h64
    rw [lastBucketOfPartition]
    omega
  · rw [lastBucketOfPartition, multiCachePartitions, firstBucketOfPartition_eq hmax (by decide) (by decide)]
    omega
  · exact fun b p hb0 hb h0 h64 => partitionOfBucket_eq_iff hmin hmax hb0 hb h0 h64
  · exact fun l hl b x hb0 hb hin => ⟨ptrToPartition_eq hsmall hl hb0 hb hin, fun p h0 h64 =>
      synced_iff hmin hmax hsmall hl hb0 hb hin h0 h64⟩

end Addresses

theorem partitionsAgree_two_levels : ∃ mc : MultiCacheBase, mc.levels = 2 ∧ mc.buckets = 100 ∧
    mc.PartitionsAgree := by
  obtain ⟨mc, hlevels, hbuckets, -, h0, h1⟩ := exists_twoLevels 100 (by decide) (by decide)
  exact ⟨mc, hlevels, hbuckets, (partitionsAgree_iff (by omega) (by omega)).2 (by omega)⟩

/-- Level 1 of `2 ^ 20` buckets has `2 ^ 31` bytes. -/
theorem not_partitionsAgree : ∃ mc : MultiCacheBase, mc.buckets = 2 ^ 20 ∧ ¬mc.PartitionsAgree := by
  obtain ⟨mc, -, hbuckets, -, h0, h1⟩ := exists_twoLevels (2 ^ 20) (by decide) (by decide)
  refine ⟨mc, hbuckets, fun h => ?_⟩
  have hsmall := h.small (by omega) (by omega)
  omega

/-! ### The layout -/

section Layout
variable (mc : MultiCacheBase)

def bytesToBlocks (b : Nat) : Int := toInt32 ((b + (storeBlockSize - 1)) / storeBlockSize : Nat)

def blocksInLevel (level : Nat) : Int :=
  ((List.range (level + 1)).foldl (fun (sumbytes, prevblocks, _) i =>
    let sumblocks := bytesToBlocks (sumbytes + mc.levelBytes i)
    (sumbytes + mc.levelBytes i, sumblocks, toInt32 (sumblocks - prevblocks))) (0, 0, 0)).2.2

/-- The number of blocks before the conversion to `unsigned int`. -/
def exactBlocks : Nat :=
  (mc.levelBytes 0 + mc.levelBytes 1 + (storeBlockSize - 1)) / storeBlockSize +
    (mc.heapSize + (storeBlockSize - 1)) / storeBlockSize + 1

def totalsize : Nat := storeBlockSize * (mc.exactBlocks % 2 ^ 32) % 2 ^ 32

/-- Starts and lengths of the levels, of the heap at `cur` and of the header `next` bytes behind it. -/
def areas (cur next : Int) : List (Int × Int) :=
  (List.range mc.levels).map (fun l => (mc.levelOffset l, (mc.levelBytes l : Int))) ++
    if mc.heapSize = 0 then [(cur, (storeBlockSize : Int))]
    else [(cur, (mc.heapSize : Int)), (cur + next, (storeBlockSize : Int))]

def mapped : List (Int × Int) :=
  mc.areas (storeBlockSize * ((List.range mc.levels).map mc.blocksInLevel).sum)
    (storeBlockSize * bytesToBlocks mc.heapSize)

/-- The areas in the memory of `valloc`. Each level puts `cur` behind its own blocks. -/
def valloced : List (Int × Int) :=
  mc.areas (toInt32 (storeBlockSize * mc.blocksInLevel (mc.levels - 1)))
    (toInt32 (bytesToBlocks mc.heapSize * storeBlockSize))

def Separate (areas : List (Int × Int)) : Prop :=
  areas.Pairwise (fun a b => ∀ x, a.1 ≤ x → x < a.1 + a.2 → ¬(b.1 ≤ x ∧ x < b.1 + b.2)) ∧
    ∀ a ∈ areas, 0 ≤ a.1 ∧ a.1 + a.2 ≤ mc.totalsize

structure LayoutSound : Prop where
  mapped : mc.Separate mc.mapped
  valloced : mc.Separate mc.valloced
  totalsize : mc.totalsize = storeBlockSize * mc.exactBlocks

end Layout

theorem blocksInLevel_zero : mc.blocksInLevel 0 = bytesToBlocks (mc.levelBytes 0) := by
  simp [blocksInLevel, bytesToBlocks]

theorem blocksInLevel_one : mc.blocksInLevel 1 =
    toInt32 (bytesToBlocks (mc.levelBytes 0 + mc.levelBytes 1) - bytesToBlocks (mc.levelBytes 0)) := by
  simp [blocksInLevel, range_succ]

theorem bytesToBlocks_eq {n : Nat} (h : n < 2 ^ 32) : bytesToBlocks n = ((n + 8191) / 8192 : Nat) :=
  toInt32_of_mem (by rw [storeBlockSize]; omega) (by rw [storeBlockSize]; omega)

theorem levelBytes_one (h : mc.levels = 1) : mc.levelBytes 1 = 0 := by
  rw [levelBytes, bucketsize, mc.absent 1 h.le, Nat.mul_zero, Nat.mul_zero]

variable {cur next : Int}

theorem separate_areas (h : mc.levels = 1) (hcur : mc.levelBytes 0 ≤ cur) (hnext : mc.heapSize ≤ next)
    (htotal : cur + next + 8192 ≤ mc.totalsize) : mc.Separate (mc.areas cur next) := by
  have h0 : mc.levelOffset 0 = 0 := rfl
  rw [Separate, areas, h, storeBlockSize]
  split_ifs with hheap
  all_goals
    simp [range_succ, h0]
    grind

section Separated
variable (hsep : mc.Separate (mc.areas cur next))
include hsep

theorem Separate.cur_notMem : 0 ≤ cur ∧ ∀ l < mc.levels,
    ¬(mc.levelOffset l ≤ cur ∧ cur < mc.levelOffset l + mc.levelBytes l) := by
  obtain ⟨n, rest, hn, heq⟩ : ∃ n rest, 0 < n ∧ mc.areas cur next =
      (List.range mc.levels).map (fun l => (mc.levelOffset l, (mc.levelBytes l : Int))) ++ (cur, n) :: rest := by
    rw [areas]
    split_ifs with hheap
    · exact ⟨storeBlockSize, [], by decide, rfl⟩
    · exact ⟨mc.heapSize, _, by omega, rfl⟩
  rw [heq] at hsep
  obtain ⟨hpairs, hmem⟩ := hsep
  refine ⟨(hmem (cur, n) (by simp)).1, fun l hl hin => ?_⟩
  have hlevel := mem_map_of_mem (f := fun l => (mc.levelOffset l, (mc.levelBytes l : Int))) (mem_range.2 hl)
  exact (pairwise_append.1 hpairs).2.2 _ hlevel _ mem_cons_self cur hin.1 hin.2 ⟨le_rfl, by omega⟩

theorem Separate.header (hheap : mc.heapSize ≠ 0) : 0 ≤ cur + next := by
  refine (hsep.2 (cur + next, (storeBlockSize : Int)) ?_).1
  rw [areas, if_neg hheap]
  simp

end Separated

theorem LayoutSound.exactBlocks_lt (h : mc.LayoutSound) : mc.exactBlocks < 2 ^ 19 := by
  have htotal := h.totalsize
  rw [MultiCacheBase.totalsize, storeBlockSize] at htotal
  omega

theorem LayoutSound.levels_eq_one (h : mc.LayoutSound) : mc.levels = 1 := by
  refine mc.oneOrTwo.resolve_right fun htwo => ?_
  have hblocks := h.exactBlocks_lt
  have hA : 0 < mc.levelBytes 0 := (mc.present htwo).1
  obtain ⟨hcur, hnot⟩ := Separate.cur_notMem h.valloced
  rw [exactBlocks, storeBlockSize] at hblocks
  rw [show mc.levels - 1 = 1 by omega, blocksInLevel_one, bytesToBlocks_eq (by omega),
    bytesToBlocks_eq (by omega), storeBlockSize] at hcur hnot
  have hlevel0 := hnot 0 (by omega)
  have hlevel1 := hnot 1 (by omega)
  rw [show mc.levelOffset 0 = 0 from rfl] at hlevel0
  rw [levelOffset] at hlevel1
  generalize mc.levelBytes 0 = A at *
  generalize mc.levelBytes 1 = B at *
  unfold toInt32 at *
  omega

/-- **The areas are disjoint and in the memory** if and only if there is one level, and neither it nor the
heap fills the blocks below `2 ^ 31`. -/
theorem layoutSound_iff : mc.LayoutSound ↔
    mc.levels = 1 ∧ mc.levelBytes 0 ≤ 2 ^ 31 - 8192 ∧ mc.heapSize ≤ 2 ^ 31 - 8192 := by
  constructor
  · intro h
    have hone := h.levels_eq_one
    have hblocks := h.exactBlocks_lt
    obtain ⟨hcur, -⟩ := Separate.cur_notMem h.valloced
    rw [exactBlocks, storeBlockSize, levelBytes_one hone] at hblocks
    rw [hone, blocksInLevel_zero, bytesToBlocks_eq (by omega), storeBlockSize] at hcur
    refine ⟨hone, ?_, ?_⟩
    · unfold toInt32 at hcur
      omega
    · by_contra hbig
      have hheader := Separate.header h.valloced (by omega)
      rw [bytesToBlocks_eq (by omega), storeBlockSize, show (mc.heapSize + 8191) / 8192 = 2 ^ 18 by
        have := mc.heapSize_lt
        omega] at hheader
      have := toInt32_lt ((8192 : Nat) * mc.blocksInLevel (mc.levels - 1))
      rw [show toInt32 ((2 ^ 18 : Nat) * (8192 : Nat)) = -2 ^ 31 by decide] at hheader
      omega
  · rintro ⟨hone, hlevel, hheap⟩
    have hblocks : mc.exactBlocks = (mc.levelBytes 0 + 8191) / 8192 + (mc.heapSize + 8191) / 8192 + 1 := by
      rw [exactBlocks, storeBlockSize, levelBytes_one hone]
    have htotal : mc.totalsize = 8192 * mc.exactBlocks := by
      rw [totalsize, storeBlockSize]
      omega
    have hcur := bytesToBlocks_eq (show mc.levelBytes 0 < 2 ^ 32 by omega)
    have hnext := bytesToBlocks_eq (show mc.heapSize < 2 ^ 32 by omega)
    refine ⟨?_, ?_, htotal⟩
    · rw [mapped, hone, range_one, map_singleton, sum_singleton, blocksInLevel_zero, hcur, hnext, storeBlockSize]
      exact separate_areas hone (by omega) (by omega) (by omega)
    · rw [valloced, hone, blocksInLevel_zero, hcur, hnext, storeBlockSize,
        toInt32_of_mem (by omega) (by omega), toInt32_of_mem (by omega) (by omega)]
      exact separate_areas hone (by omega) (by omega) (by omega)

theorem not_layoutSound : ∃ mc : MultiCacheBase, mc.levels = 2 ∧ mc.buckets = 64 ∧ mc.heapSize = 0 ∧
    ¬mc.LayoutSound := by
  obtain ⟨mc, hlevels, hbuckets, hheap, -⟩ := exists_twoLevels 64 (by decide) (by decide)
  refine ⟨mc, hlevels, hbuckets, hheap, fun h => ?_⟩
  have hone := h.levels_eq_one
  omega

end MultiCacheBase

end TrafficServer
