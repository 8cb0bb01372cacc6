import TrafficServer.Cache.DiskOpen
import TrafficServer.Cache.Sync

/-!
# The shape of a new partition

`Part::init` finds the number of buckets for the length of a partition in three rounds, because the
directory takes room from the data it is for. Each round divides what is left among the buckets,
and doubles an `int` that has the length of the directory.

The rounds come close to each other from both sides: the first has no directory to leave out and
finds the most buckets, the second leaves out the largest directory and finds the least, and the
length of a directory grows with the buckets (`dirlenFor_mono`). So all three fit their `int`s if the
first does, and none is without a bucket if the second is not.
-/

namespace TrafficServer

open Option DirArea

def sizeofDir : Nat := 10

/-- An `int` expression: `none` if its value is not one. -/
def int32 (x : Int) : Option Int := if -2 ^ 31 ≤ x ∧ x < 2 ^ 31 then some x else none

/-- The fields of a `Part` that `part_init_data` sets. -/
structure PartShape where
  buckets : Int
  segments : Int
  start : Int
deriving DecidableEq, Repr

def partHeaderlen (segments : Int) : Option Int :=
  int32 (roundToBlock (DirArea.sizeofPartHeaderFooter + 2 * (segments - 1)))

def partDirlen (buckets segments : Int) : Option Int :=
  (partHeaderlen segments).bind fun headerlen =>
    int32 (roundToBlock (buckets * dirDepth * segments * sizeofDir) + headerlen +
      roundToBlock DirArea.sizeofPartHeaderFooter)

/-- `part_init_data_internal`; `avg` is `cache_config_min_average_object_size`. -/
def partInitDataInternal (len skip avg start : Int) : Option PartShape :=
  let buckets := ((len - (start - skip)).tdiv avg).tdiv dirDepth
  (int32 ((buckets + 16383).tdiv 16384)).bind fun segments =>
    -- a division by zero
    if segments = 0 then none
    else
      let buckets := (buckets + segments - 1).tdiv segments
      (partDirlen buckets segments).bind fun dirlen =>
        (int32 (2 * dirlen)).map fun twice => ⟨buckets, segments, skip + twice⟩

def partInitData (len skip avg : Int) : Option PartShape :=
  (partInitDataInternal len skip avg skip).bind fun p =>
    (partInitDataInternal len skip avg p.start).bind fun p =>
      partInitDataInternal len skip avg p.start

/-- The shape that `Part::init` gives to a partition of a number of store blocks. -/
def partInit (blocks dirSkip avg : Nat) : Option PartShape :=
  partInitData (blocks * storeBlockSize : Nat) (CacheDisk.openSkip dirSkip) avg

/-- Nothing overflows, the directory has a shape that 16-bit links can name, `part_dirlen` is its
length, two copies of it end at `start`, and every position of the data is one for an entry. -/
def GeometryExact (blocks dirSkip avg : Nat) : Prop :=
  ∃ (geo : Geometry) (start : Int),
    partInit blocks dirSkip avg = some ⟨geo.buckets, geo.segments, start⟩ ∧
    (1 ≤ geo.segments ∧ 1 ≤ geo.buckets ∧ geo.buckets * dirDepth ≤ 65536) ∧
    partDirlen geo.buckets geo.segments = some (DirArea.ofGeometry geo).dirlen ∧
    start = CacheDisk.openSkip dirSkip + 2 * (DirArea.ofGeometry geo).dirlen ∧
    start < CacheDisk.openSkip dirSkip + blocks * storeBlockSize ∧
    ∀ pos, start ≤ pos → pos < CacheDisk.openSkip dirSkip + blocks * storeBlockSize →
      (pos - start + inkBlockSize).tdiv inkBlockSize ≤ dirOffsetMax

/-! ### The length of a directory -/

def dirlenFor (n : Nat) : Nat :=
  roundTo (bucketsFor n * dirDepth * segmentsFor n * 10) inkBlockSize +
    roundTo (DirArea.sizeofPartHeaderFooter + 2 * (segmentsFor n - 1)) inkBlockSize +
    roundTo DirArea.sizeofPartHeaderFooter inkBlockSize

theorem roundTo_mono {x x' : Nat} (y : Nat) (h : x ≤ x') : roundTo x y ≤ roundTo x' y :=
  Nat.mul_le_mul_right y (Nat.div_le_div_right (Nat.add_le_add_right h _))

theorem roundToBlock_natCast (x : Nat) : roundToBlock x = (roundTo x inkBlockSize : Nat) := by
  simp only [roundToBlock, roundTo, inkBlockSize]
  omega

theorem segmentsFor_eq (n : Nat) : segmentsFor n = (n + 16383) / 16384 := rfl

variable {n n' m : Nat}

theorem le_buckets_mul (hn : 0 < n) : n ≤ bucketsFor n * segmentsFor n := by
  have hs := segmentsFor_pos hn
  have := Nat.lt_div_mul_add hs (a := n + segmentsFor n - 1)
  rw [bucketsFor]
  omega

theorem buckets_mul_lt (hn : 0 < n) : bucketsFor n * segmentsFor n < n + segmentsFor n := by
  have := segmentsFor_pos hn
  have hle := Nat.div_mul_le_self (n + segmentsFor n - 1) (segmentsFor n)
  rw [bucketsFor]
  omega

theorem buckets_mul_mono (hn : 0 < n) (h : n ≤ n') :
    bucketsFor n * segmentsFor n ≤ bucketsFor n' * segmentsFor n' := by
  have hle : segmentsFor n ≤ segmentsFor n' := by
    rw [segmentsFor_eq, segmentsFor_eq]
    omega
  rcases hle.eq_or_lt with heq | hlt
  · rw [bucketsFor, bucketsFor, heq]
    exact Nat.mul_le_mul_right _ (Nat.div_le_div_right (by omega))
  · -- full segments are fewer entries than one segment more needs
    have hfull : bucketsFor n ≤ 16384 := by
      have := bucketsFor_le hn
      rw [dirDepth] at this
      omega
    calc bucketsFor n * segmentsFor n ≤ 16384 * segmentsFor n := Nat.mul_le_mul_right _ hfull
      _ ≤ n' := by
        rw [segmentsFor_eq] at hlt ⊢
        rw [segmentsFor_eq] at hlt
        omega
      _ ≤ bucketsFor n' * segmentsFor n' := le_buckets_mul (by omega)

theorem dirlenFor_mono (hn : 0 < n) (h : n ≤ n') : dirlenFor n ≤ dirlenFor n' := by
  have hbuckets := buckets_mul_mono hn h
  have hsegments : segmentsFor n ≤ segmentsFor n' := by
    rw [segmentsFor_eq, segmentsFor_eq]
    omega
  refine Nat.add_le_add_right (Nat.add_le_add (roundTo_mono _ ?_) (roundTo_mono _ ?_)) _
  · calc bucketsFor n * dirDepth * segmentsFor n * 10 = bucketsFor n * segmentsFor n * (dirDepth * 10) := by ring
      _ ≤ bucketsFor n' * segmentsFor n' * (dirDepth * 10) := Nat.mul_le_mul_right _ hbuckets
      _ = bucketsFor n' * dirDepth * segmentsFor n' * 10 := by ring
  · omega

theorem dirlenFor_le (hn : 0 < n) : dirlenFor n ≤ 41 * n + 1606 := by
  have hlt := buckets_mul_lt hn
  have hentries : bucketsFor n * dirDepth * segmentsFor n * 10 = 40 * (bucketsFor n * segmentsFor n) := by
    rw [dirDepth]
    ring
  rw [dirlenFor, hentries]
  generalize bucketsFor n * segmentsFor n = entries at hlt
  rw [segmentsFor_eq] at *
  simp only [roundTo, inkBlockSize, sizeofPartHeaderFooter]
  omega

/-! ### One round -/

section Round
variable {len avg : Nat} {m : Nat} (skip : Int)

/-- The buckets in all for what `m` bytes of directories leave. -/
def totalBuckets (len avg m : Nat) : Nat := (len - m) / avg / dirDepth

theorem int32_natCast (x : Nat) : int32 x = if x < 2 ^ 31 then some (x : Int) else none := by
  rw [int32]
  by_cases h : x < 2 ^ 31
  · rw [if_pos h, if_pos (by omega)]
  · rw [if_neg h, if_neg (by omega)]

theorem partDirlen_eq (hn : 0 < n) : partDirlen (bucketsFor n) (segmentsFor n) =
      if dirlenFor n < 2 ^ 31 then some (dirlenFor n : Int) else none := by
  have hs := segmentsFor_pos hn
  have hheader : (sizeofPartHeaderFooter + 2 * ((segmentsFor n : Int) - 1)) =
      (sizeofPartHeaderFooter + 2 * (segmentsFor n - 1) : Nat) := by omega
  have hentries : (bucketsFor n * dirDepth * segmentsFor n * sizeofDir : Int) =
      (bucketsFor n * dirDepth * segmentsFor n * 10 : Nat) := by
    rw [sizeofDir]
    push_cast
    rfl
  rw [partDirlen, partHeaderlen, hheader, hentries, roundToBlock_natCast, roundToBlock_natCast,
    roundToBlock_natCast, int32_natCast]
  by_cases hlen : roundTo (sizeofPartHeaderFooter + 2 * (segmentsFor n - 1)) inkBlockSize < 2 ^ 31
  · rw [if_pos hlen, bind_some]
    exact int32_natCast (dirlenFor n)
  · rw [if_neg hlen, if_neg (by rw [dirlenFor]; omega), bind_none]

theorem partInitDataInternal_eq (hm : m ≤ len) (hn : totalBuckets len avg m < 2 ^ 40) :
    partInitDataInternal len skip avg (skip + m) = let n := totalBuckets len avg m
      if n = 0 ∨ 2 ^ 31 ≤ 2 * dirlenFor n then none
      else some ⟨bucketsFor n, segmentsFor n, skip + 2 * dirlenFor n⟩ := by
  have htotal : (((len : Int) - (skip + m - skip)).tdiv avg).tdiv dirDepth = (totalBuckets len avg m : Nat) := by
    rw [show (len : Int) - (skip + m - skip) = (len - m : Nat) by omega]
    rfl
  rw [partInitDataInternal, htotal]
  generalize totalBuckets len avg m = n at hn ⊢
  have hsegments : ((n : Int) + 16383).tdiv 16384 = (segmentsFor n : Nat) := rfl
  have hint : int32 (segmentsFor n) = some (segmentsFor n : Int) := by
    rw [int32_natCast, if_pos]
    rw [segmentsFor_eq]
    omega
  simp only [hsegments, hint, bind_some]
  rcases eq_zero_or_pos n with rfl | hpos
  · rfl
  have hs := segmentsFor_pos hpos
  have hbuckets : ((n : Int) + segmentsFor n - 1).tdiv (segmentsFor n) = (bucketsFor n : Nat) := by
    rw [show (n : Int) + segmentsFor n - 1 = (n + segmentsFor n - 1 : Nat) by omega]
    rfl
  rw [if_neg (by omega), hbuckets, partDirlen_eq hpos]
  by_cases hlen : dirlenFor n < 2 ^ 31
  · rw [if_pos hlen, bind_some, show (2 * (dirlenFor n : Int)) = (2 * dirlenFor n : Nat) by rfl, int32_natCast]
    by_cases htwice : 2 * dirlenFor n < 2 ^ 31
    · rw [if_pos htwice, if_neg (by omega)]
      rfl
    · rw [if_neg htwice, if_pos (by omega)]
      rfl
  · rw [if_neg hlen, if_pos (by omega), bind_none]

end Round

/-! ### The three rounds -/

section Rounds
variable {len avg : Nat} (havg : 8000 ≤ avg)

theorem totalBuckets_le (m : Nat) : totalBuckets len avg m ≤ totalBuckets len avg 0 :=
  Nat.div_le_div_right (Nat.div_le_div_right (by omega))

theorem totalBuckets_anti {m' : Nat} (h : m ≤ m') : totalBuckets len avg m' ≤ totalBuckets len avg m :=
  Nat.div_le_div_right (Nat.div_le_div_right (by omega))

include havg

theorem totalBuckets_pos_iff (m : Nat) : 0 < totalBuckets len avg m ↔ 4 * avg ≤ len - m := by
  rw [totalBuckets, Nat.div_pos_iff, dirDepth, Nat.le_div_iff_mul_le (by omega)]
  omega

theorem totalBuckets_lt (hmax : len ≤ 2 ^ 49) (m : Nat) : totalBuckets len avg m < 2 ^ 40 := by
  have : (len - m) / avg ≤ len - m := Nat.div_le_self ..
  rw [totalBuckets, dirDepth]
  have h : (len - m) / avg ≤ (2 ^ 49) / 8000 :=
    (Nat.div_le_div_left havg (by decide)).trans (Nat.div_le_div_right (by omega))
  omega

theorem twice_dirlenFor_lt (hlen : 2 ^ 27 ≤ len) (hn : 0 < n) (hle : n ≤ totalBuckets len avg 0) :
    2 * dirlenFor n < len := by
  have hbound := dirlenFor_le hn
  rw [totalBuckets, dirDepth, Nat.le_div_iff_mul_le (by decide), Nat.le_div_iff_mul_le (by omega)] at hle
  have : n * 4 * 8000 ≤ n * 4 * avg := Nat.mul_le_mul_left _ havg
  omega

variable (hmax : len ≤ 2 ^ 49) (skip : Int)
include hmax

theorem round_some (hm : m ≤ len) {p : PartShape} (hrun : partInitDataInternal len skip avg (skip + m) = some p) :
    0 < totalBuckets len avg m ∧ 2 * dirlenFor (totalBuckets len avg m) < 2 ^ 31 ∧
      p = ⟨bucketsFor (totalBuckets len avg m), segmentsFor (totalBuckets len avg m),
        skip + 2 * dirlenFor (totalBuckets len avg m)⟩ := by
  rw [partInitDataInternal_eq skip hm (totalBuckets_lt havg hmax m)] at hrun
  dsimp only at hrun
  split at hrun
  · cases hrun
  · next h => exact ⟨by omega, by omega, (some.inj hrun).symm⟩

theorem round_eq (hm : m ≤ len) (hpos : 0 < totalBuckets len avg m)
    (hint : 2 * dirlenFor (totalBuckets len avg m) < 2 ^ 31) : partInitDataInternal len skip avg (skip + m) =
      some ⟨bucketsFor (totalBuckets len avg m), segmentsFor (totalBuckets len avg m),
        skip + (2 * dirlenFor (totalBuckets len avg m) : Nat)⟩ := by
  rw [partInitDataInternal_eq skip hm (totalBuckets_lt havg hmax m)]
  exact if_neg (by omega)

theorem partInitData_some (hlen : 2 ^ 27 ≤ len) {p : PartShape} (hrun : partInitData len skip avg = some p) :
    2 * dirlenFor (totalBuckets len avg 0) < 2 ^ 31 ∧ 4 * avg + 2 * dirlenFor (totalBuckets len avg 0) ≤ len := by
  obtain ⟨p1, hrun1, hrest⟩ := bind_eq_some_iff.1 hrun
  obtain ⟨p2, hrun2, -⟩ := bind_eq_some_iff.1 hrest
  obtain ⟨hpos, hint, rfl⟩ := round_some havg hmax skip (Nat.zero_le len)
    (show partInitDataInternal len skip avg (skip + (0 : Nat)) = some p1 by rw [Nat.cast_zero, add_zero]; exact hrun1)
  have hroom := twice_dirlenFor_lt havg hlen hpos le_rfl
  obtain ⟨hpos2, -, -⟩ := round_some havg hmax skip hroom.le
    (show partInitDataInternal len skip avg (skip + (2 * dirlenFor (totalBuckets len avg 0) : Nat)) =
      some p2 from hrun2)
  rw [totalBuckets_pos_iff havg] at hpos2
  exact ⟨hint, by omega⟩

theorem partInitData_eq (hint : 2 * dirlenFor (totalBuckets len avg 0) < 2 ^ 31)
    (hroom : 4 * avg + 2 * dirlenFor (totalBuckets len avg 0) ≤ len) :
    ∃ n, 0 < n ∧ n ≤ totalBuckets len avg 0 ∧ partInitData len skip avg =
      some ⟨bucketsFor n, segmentsFor n, skip + (2 * dirlenFor n : Nat)⟩ := by
  obtain ⟨n1, hn1⟩ : ∃ n, totalBuckets len avg 0 = n := ⟨_, rfl⟩
  obtain ⟨n2, hn2⟩ : ∃ n, totalBuckets len avg (2 * dirlenFor n1) = n := ⟨_, rfl⟩
  obtain ⟨n3, hn3⟩ : ∃ n, totalBuckets len avg (2 * dirlenFor n2) = n := ⟨_, rfl⟩
  rw [hn1] at hint hroom ⊢
  have hpos2 : 0 < n2 := hn2 ▸ (totalBuckets_pos_iff havg _).2 (by omega)
  have hle2 : n2 ≤ n1 := by rw [← hn1, ← hn2]; exact totalBuckets_le _
  have hle3 : n3 ≤ n1 := by rw [← hn1, ← hn3]; exact totalBuckets_le _
  have hdir2 := dirlenFor_mono hpos2 hle2
  have hpos3 : 0 < n3 := by
    have : n2 ≤ n3 := by rw [← hn2, ← hn3]; exact totalBuckets_anti (by omega)
    omega
  have hdir3 := dirlenFor_mono hpos3 hle3
  have hrun1 := round_eq havg hmax skip (Nat.zero_le len) (by omega) (by rw [hn1]; exact hint)
  have hrun2 := round_eq havg hmax skip (m := 2 * dirlenFor n1) (by omega) (by omega) (by rw [hn2]; omega)
  have hrun3 := round_eq havg hmax skip (m := 2 * dirlenFor n2) (by omega) (by omega) (by rw [hn3]; omega)
  rw [Nat.cast_zero, add_zero, hn1] at hrun1
  rw [hn2] at hrun2
  rw [hn3] at hrun3
  refine ⟨n3, hpos3, hle3, ?_⟩
  rw [partInitData, hrun1, bind_some, hrun2, bind_some, hrun3]

end Rounds

/-- **The geometry of a partition is exact if and only if** twice the directory of the first round is an
`int` and leaves room for the documents of one bucket. -/
theorem geometryExact_iff (blocks dirSkip avg : Nat) (hmin : 2 ^ 14 ≤ blocks)
    (hmax : blocks ≤ 2 ^ 36) (havg : 8000 ≤ avg) : GeometryExact blocks dirSkip avg ↔
      let len := blocks * storeBlockSize
      let dirlen := dirlenFor (len / avg / dirDepth)
      2 * dirlen < 2 ^ 31 ∧ 4 * avg + 2 * dirlen ≤ len := by
  have hlen : 2 ^ 27 ≤ blocks * storeBlockSize := by rw [storeBlockSize]; omega
  have hlen' : blocks * storeBlockSize ≤ 2 ^ 49 := by rw [storeBlockSize]; omega
  constructor
  · rintro ⟨geo, start, hrun, -⟩
    exact partInitData_some havg hlen' _ hlen hrun
  · rintro ⟨hint, hroom⟩
    obtain ⟨n, hpos, hle, hrun⟩ :=
      partInitData_eq havg hlen' (CacheDisk.openSkip dirSkip) hint hroom
    have hsmall := twice_dirlenFor_lt havg hlen hpos hle
    have hmono := dirlenFor_mono hpos hle
    have hdir : dirlenFor n < 2 ^ 31 := by
      have hint' : 2 * dirlenFor (totalBuckets (blocks * storeBlockSize) avg 0) < 2 ^ 31 := hint
      omega
    have hfooter : 512 ≤ dirlenFor n := Nat.le_add_left 512 _
    refine ⟨.ofBuckets n hpos, _, hrun, ⟨segmentsFor_pos hpos, bucketsFor_pos hpos, ?_⟩, ?_, rfl, ?_,
      fun pos hstart hend => ?_⟩
    · rw [Nat.mul_comm]
      exact bucketsFor_le hpos
    · exact (partDirlen_eq hpos).trans (if_pos hdir)
    · omega
    · rw [Int.tdiv_eq_ediv_of_nonneg (by rw [inkBlockSize]; omega), dirOffsetMax, inkBlockSize]
      omega

theorem geometryExact_iff_smallest : GeometryExact (2 ^ 14) 0 8000 :=
  (geometryExact_iff (2 ^ 14) 0 8000 (by decide) (by decide) (by decide)).2 (by decide)

/-- For a partition of a terabyte twice the directory is more than an `int`, and for large objects
the smallest partition has no bucket, and the division by the number of its segments is one by zero. -/
theorem terabyte_overflows : partInit (2 ^ 27) 0 8000 = none ∧ ¬ GeometryExact (2 ^ 27) 0 8000 ∧
    partInit (2 ^ 14) 0 33554433 = none ∧ ¬ GeometryExact (2 ^ 14) 0 33554433 := by
  have h1 : partInit (2 ^ 27) 0 8000 = none := by decide
  have h2 : partInit (2 ^ 14) 0 33554433 = none := by decide
  refine ⟨h1, ?_, h2, ?_⟩
  · rintro ⟨geo, start, hrun, -⟩
    cases h1.symm.trans hrun
  · rintro ⟨geo, start, hrun, -⟩
    cases h2.symm.trans hrun

end TrafficServer
