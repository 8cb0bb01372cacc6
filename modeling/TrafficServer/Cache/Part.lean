import TrafficServer.Cache.Insert
import TrafficServer.Lib.CInt

/-!
# A partition and its directory

The header of a partition, its directory of all segments in one array, and the directory functions
as the cache calls them: by key. A segment is read out of the array, changed, and stored back.
-/

namespace TrafficServer

/-- `INK_MD5`, the type of cache keys. -/
structure CacheKey where
  b0 : BitVec 64
  b1 : BitVec 64
deriving DecidableEq, Repr

def CacheKey.word (k : CacheKey) : Fin 4 → Nat
  | 0 => k.b0.toNat % 2 ^ 32
  | 1 => k.b0.toNat / 2 ^ 32
  | 2 => k.b1.toNat % 2 ^ 32
  | 3 => k.b1.toNat / 2 ^ 32

/-- The shape of a directory. A segment has no more slots than a 16-bit link can name. -/
structure Geometry where
  segments : Nat
  buckets : Nat
  segments_pos : 0 < segments
  buckets_pos : 0 < buckets
  small : dirDepth * buckets ≤ 65536

def segmentsFor (n : Nat) : Nat := (n + (2 ^ 16 - 1) / dirDepth) / (2 ^ 16 / dirDepth)

def bucketsFor (n : Nat) : Nat := (n + segmentsFor n - 1) / segmentsFor n

variable {n : Nat}

theorem segmentsFor_pos (hn : 0 < n) : 0 < segmentsFor n := by
  simp only [segmentsFor, dirDepth]
  omega

theorem bucketsFor_pos (hn : 0 < n) : 0 < bucketsFor n := by
  have := segmentsFor_pos hn
  exact Nat.div_pos (by omega) this

theorem bucketsFor_le (hn : 0 < n) : dirDepth * bucketsFor n ≤ 65536 := by
  have hpos := segmentsFor_pos hn
  have hle : bucketsFor n < 16385 := by
    rw [bucketsFor, Nat.div_lt_iff_lt_mul hpos]
    simp only [segmentsFor, dirDepth] at hpos ⊢
    omega
  rw [dirDepth]
  omega

/-- The division into segments by `part_init_data_internal`, of `n` buckets in all. -/
def Geometry.ofBuckets (n : Nat) (hn : 0 < n) : Geometry where
  segments := segmentsFor n
  buckets := bucketsFor n
  segments_pos := segmentsFor_pos hn
  buckets_pos := bucketsFor_pos hn
  small := bucketsFor_le hn

namespace Geometry
variable (g : Geometry)

def segSize : Nat := dirDepth * g.buckets

/-- Where segment `s` starts in the directory (`dir_segment`). -/
def segStart (s : Nat) : Nat := s * g.segSize

theorem segSize_pos : 0 < g.segSize := mul_pos (by decide) g.buckets_pos

theorem segment_unique {s t i j : Nat} (hi : i < g.segSize) (hj : j < g.segSize)
    (h : g.segStart s + i = g.segStart t + j) : s = t := by
  unfold segStart at h
  have hs : (s * g.segSize + i) / g.segSize = s := by
    rw [mul_comm, Nat.mul_add_div g.segSize_pos, Nat.div_eq_of_lt hi, add_zero]
  have ht : (t * g.segSize + j) / g.segSize = t := by
    rw [mul_comm, Nat.mul_add_div g.segSize_pos, Nat.div_eq_of_lt hj, add_zero]
  rw [← hs, ← ht, h]

end Geometry

structure PartHeader where
  writePos : Int
  lastWritePos : Int
  aggPos : Int
  phase : Bool
  cycle : Nat
  syncSerial : Nat
  writeSerial : Nat
  dirty : Bool
  freelist : Nat → BitVec 16

structure Part where
  geo : Geometry
  skip : Int
  start : Int
  len : Int
  header : PartHeader
  dir : Nat → Dir
  aggBufPos : Int

/-! ### Validity of an entry -/

section Valid
variable (d : Part) (e : Dir)

def partInPhaseValid : Bool :=
  (dirOffset e : Int) - 1 < (d.header.writePos + d.aggBufPos - d.start).tdiv inkBlockSize

def partOutOfPhaseValid : Bool :=
  (dirOffset e : Int) - 1 ≥ (d.header.aggPos - d.start).tdiv inkBlockSize

def dirValid : Bool :=
  if d.header.phase = dirPhase e then partInPhaseValid d e else partOutOfPhaseValid d e

def offsetToPartOffset (pos : Int) : Int := (pos - d.start + inkBlockSize).tdiv inkBlockSize

end Valid

/-- `dir_valid` reads the contents of an entry, not its link. -/
def contentValid (d : Part) (c : Content) : Bool :=
  if d.header.phase = c.phase then
    (c.offset : Int) - 1 < (d.header.writePos + d.aggBufPos - d.start).tdiv inkBlockSize
  else (c.offset : Int) - 1 ≥ (d.header.aggPos - d.start).tdiv inkBlockSize

theorem dirValid_eq (d : Part) (e : Dir) : dirValid d e = contentValid d e.content := rfl

namespace Part

/-! ### Segments of the directory -/

/-- Segment `s`, with the freelist and the dirty flag of the header. -/
def segment (d : Part) (s : Nat) : Segment where
  dir i := d.dir (d.geo.segStart s + i)
  freelist := d.header.freelist s
  dirty := d.header.dirty

def setSegment (d : Part) (s : Nat) (sg : Segment) : Part :=
  { d with
    dir := fun j =>
      if d.geo.segStart s ≤ j ∧ j < d.geo.segStart s + d.geo.segSize then sg.dir (j - d.geo.segStart s)
      else d.dir j
    header := { d.header with
      freelist := Function.update d.header.freelist s sg.freelist
      dirty := sg.dirty } }

def onSegment (d : Part) (s : Nat) (f : Segment → Option Segment) : Option Part :=
  (f (d.segment s)).map (d.setSegment s)

def onSegmentWith {α : Type} (d : Part) (s : Nat) (f : Segment → Option (Segment × α)) :
    Option (Part × α) :=
  (f (d.segment s)).map fun r => (d.setSegment s r.1, r.2)

def keySegment (d : Part) (key : CacheKey) : Nat := key.word 0 % d.geo.segments

def keyBucket (d : Part) (key : CacheKey) : Nat := key.word 1 % d.geo.buckets

def dirInsert (d : Part) (key : CacheKey) (toPart : Dir) (fuel : Nat) : Option Part :=
  d.onSegment (d.keySegment key)
    (Segment.dirInsert (dirValid d) d.geo.buckets (dirBucket (d.keyBucket key)) (key.word 2) toPart
      fuel)

def dirOverwrite (d : Part) (key : CacheKey) (dir overwrite : Dir) (mustOverwrite : Bool)
    (fuel : Nat) : Option (Part × Nat) :=
  d.onSegmentWith (d.keySegment key)
    (Segment.dirOverwrite (dirValid d) d.geo.buckets (dirBucket (d.keyBucket key)) (key.word 2) dir
      overwrite mustOverwrite fuel)

def dirDelete (d : Part) (key : CacheKey) (del : Dir) : Option (Part × Nat) :=
  d.onSegmentWith (d.keySegment key)
    (Segment.dirDelete d.geo.buckets (dirBucket (d.keyBucket key)) (key.word 2) del)

/-- `dir_probe`: the slot of the entry found, counted in its segment. -/
def dirProbe (d : Part) (key : CacheKey) (lastCollision : Option Nat) :
    Option (Part × Option Nat) :=
  d.onSegmentWith (d.keySegment key)
    (Segment.dirProbe (dirValid d) d.geo.buckets (d.geo.segStart (d.keySegment key))
      (dirBucket (d.keyBucket key)) (key.word 2) lastCollision)

def dirCleanBucket (d : Part) (s b : Nat) : Option Part :=
  d.onSegment s fun sg => sg.dirCleanBucket (dirValid d) d.geo.buckets (dirBucket b)

def dirCleanSegment (d : Part) (s : Nat) : Option Part :=
  d.onSegment s (Segment.dirCleanSegment (dirValid d) d.geo.buckets)

def freelistClean (d : Part) (s : Nat) : Option Part :=
  d.onSegment s (Segment.freelistClean (dirValid d) d.geo.buckets)

def dirCleanPart (d : Part) : Option Part :=
  (List.range d.geo.segments).foldlM (fun d s => d.dirCleanSegment s) d

/-- The test of `dir_clear_range`, with its conversion of the 40-bit offset to `int`. -/
def inClearRange (start stop : Int) (e : Dir) : Bool :=
  !dirToken e && start ≤ (BitVec.ofNat 32 (dirOffset e)).toInt &&
    (BitVec.ofNat 32 (dirOffset e)).toInt < stop

def dirClearRange (d : Part) (start stop : Int) : Option Part :=
  ({ d with
      dir := fun i =>
        if i < d.geo.buckets * dirDepth * d.geo.segments ∧ inClearRange start stop (d.dir i) then
          dirSetOffset (d.dir i) 0
        else d.dir i } : Part).dirCleanPart

def initDir (d : Part) : Part :=
  (List.range d.geo.segments).foldl (fun d s => d.setSegment s ((d.segment s).freeRows d.geo.buckets)) d

def clearInit (d : Part) : Part :=
  let d₁ := ({ d with
    dir := fun _ => dirClear
    header := ⟨0, 0, 0, false, 0, 0, 0, false, fun _ => 0⟩ } : Part).initDir
  { d₁ with
    header := { d₁.header with
      writePos := d.start
      aggPos := d.start
      lastWritePos := d.start
      phase := false
      cycle := 0
      dirty := false } }

end Part

end TrafficServer
