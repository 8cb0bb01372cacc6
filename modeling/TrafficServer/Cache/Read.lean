import TrafficServer.Cache.Part
import TrafficServer.Lib.CInt

/-!
# Reading a document from a position

A document is a sequence of fragments, each under the key that follows the key of the one before
it; the first fragment has a table of the positions at which the others start. `do_io_pread` sets a
position to read from and the next `openReadMain` is to go there. It never does: each of its three
cases leaves the position in the document or the position in the fragment wrong.
-/

namespace TrafficServer

open CInt (toInt32)

/-! ### The next key -/

def cacheKeyNextTable : List Nat :=
  [21, 53, 167, 51, 255, 126, 241, 151, 115, 66, 155, 174, 226, 215, 80, 188, 12, 95, 8, 24, 162,
   201, 46, 104, 79, 172, 39, 68, 56, 144, 142, 217, 101, 62, 14, 108, 120, 90, 61, 47, 132, 199,
   110, 166, 83, 125, 57, 65, 19, 130, 148, 116, 228, 189, 170, 1, 71, 0, 252, 184, 168, 177, 88,
   229, 242, 237, 183, 55, 13, 212, 240, 81, 211, 74, 195, 205, 147, 93, 30, 87, 86, 63, 135, 102,
   233, 106, 118, 163, 107, 10, 243, 136, 160, 119, 43, 161, 206, 141, 203, 78, 175, 36, 37, 140, 224,
   197, 185, 196, 248, 84, 122, 73, 152, 157, 18, 225, 219, 145, 45, 2, 171, 249, 173, 32, 143, 137,
   69, 41, 35, 89, 33, 98, 179, 214, 114, 231, 251, 123, 180, 194, 29, 3, 178, 31, 192, 164, 15,
   234, 26, 230, 91, 156, 5, 16, 23, 244, 58, 50, 4, 67, 134, 165, 60, 235, 250, 7, 138, 216,
   49, 139, 191, 154, 11, 52, 239, 59, 111, 245, 9, 64, 25, 129, 247, 232, 190, 246, 109, 22, 112,
   210, 221, 181, 92, 169, 48, 100, 193, 77, 103, 133, 70, 220, 207, 223, 176, 204, 76, 186, 200, 208,
   158, 182, 227, 222, 131, 38, 187, 238, 6, 34, 253, 128, 146, 44, 94, 127, 105, 153, 113, 20, 27,
   124, 159, 17, 72, 218, 96, 149, 213, 42, 28, 254, 202, 40, 117, 82, 97, 209, 54, 236, 121, 75,
   85, 150, 99, 198]

def CacheKey.bytes (k : CacheKey) : List Nat :=
  (List.range 8).map (fun i => (k.b0 >>> (8 * i)).toNat % 256) ++
    (List.range 8).map (fun i => (k.b1 >>> (8 * i)).toNat % 256)

def CacheKey.ofBytes (bs : List Nat) : CacheKey where
  b0 := BitVec.ofNat 64 ((bs.take 8).foldr (fun b n => b + 256 * n) 0)
  b1 := BitVec.ofNat 64 ((bs.drop 8).foldr (fun b n => b + 256 * n) 0)

/-- The loop of `next_CacheKey`, which adds to each byte the one it has made before. -/
def nextBytes : Nat → List Nat → List Nat
  | _, [] => []
  | prev, k :: ks =>
    let b := cacheKeyNextTable.getD ((prev + k) % 256) 0
    b :: nextBytes b ks

def nextCacheKey (k : CacheKey) : CacheKey := .ofBytes (nextBytes 0 k.bytes)

/-! ### The document in the buffer -/

def sizeofDoc : Nat := 72

/-- `Doc`, as far as a read looks at it. `frag` is what an index into the fragment table reads, also
after its end. -/
structure Doc where
  len : Nat
  totalLen : Nat
  hlen : Nat
  flen : Nat
  frag : Nat → Nat

namespace Doc
variable (doc : Doc)

def prefixLen : Nat := (sizeofDoc + doc.hlen + doc.flen) % 2 ^ 32

def dataLen : Nat := (((doc.len : Int) - sizeofDoc - doc.hlen - doc.flen) % 2 ^ 32).toNat

def nfrags : Nat := doc.flen / 8

def singleFragment : Bool := doc.totalLen ≠ 0 ∧ doc.dataLen = doc.totalLen

end Doc

/-- The members of `CacheVC` that reading uses, and `vio.nbytes` and `vio.ndone`. -/
structure ReadVC where
  doc : Doc
  key : CacheKey
  docPos : Int
  docLen : Nat
  seekTo : Int
  singleFragment : Bool
  nbytes : Int
  ndone : Int

def ReadVC.ntodo (vc : ReadVC) : Int := toInt32 (vc.nbytes - vc.ndone)

def doIoPread (vc : ReadVC) (offset : Int) : ReadVC :=
  { vc with ndone := offset, nbytes := 0, seekTo := offset }

/-- What the user's buffer and the user do in the course of a pass: whether the buffer is over its
water mark before and after, and whether the user is done when called with `VC_EVENT_READ_READY`. -/
structure ReadEnv where
  full : Bool
  userDone : Bool
  highWater : Bool

/-- How a pass ends. -/
inductive ReadEnd
  | eos
  | cont
  | complete
  | done
  | probe (key : CacheKey)
deriving DecidableEq, Repr

/-- A pass of `openReadMain`: the state it leaves, the block of the buffer that it appends (its
position and length), the entries of the fragment table that it reads, and how it ends. -/
structure ReadPass where
  vc : ReadVC
  appended : Option (Int × Int)
  reads : List Nat
  next : ReadEnd

/-- The loop that skips to the key of a later fragment, from entry `i` on with `n` to go. -/
def skipFrags (doc : Doc) (seekTo : Int) : Nat → Nat → CacheKey → CacheKey × List Nat
  | 0, _, key => (key, [])
  | n + 1, i, key =>
    if seekTo < toInt32 (doc.frag i) then (key, [i])
    else
      let r := skipFrags doc seekTo n (i + 1) (nextCacheKey key)
      (r.1, i :: r.2)

def readNext (vc : ReadVC) : ReadEnd :=
  if vc.ndone % 2 ^ 32 ≥ vc.docLen then .eos else .probe vc.key

/-- `openReadMain` after the part that handles `do_io_pread`. `ntodo` and `bytes` were taken
before. -/
def readMain (env : ReadEnv) (ntodo bytes : Int) (vc : ReadVC) : ReadPass :=
  if ntodo ≤ 0 then ⟨vc, none, [], .cont⟩
  else if env.full ∧ vc.ndone ≠ 0 then ⟨vc, none, [], .cont⟩
  else if bytes ≤ 0 ∧ vc.ntodo ≥ 0 then ⟨vc, none, [], readNext vc⟩
  else
    let bytes := if bytes > vc.ntodo then vc.ntodo else bytes
    let block := (vc.docPos, bytes)
    let vc := { vc with ndone := vc.ndone + bytes, docPos := vc.docPos + bytes }
    if vc.ntodo ≤ 0 then ⟨vc, some block, [], .complete⟩
    else if env.userDone then ⟨vc, some block, [], .done⟩
    else if vc.ntodo > 0 ∧ !env.highWater then ⟨vc, some block, [], readNext vc⟩
    else ⟨vc, some block, [], .cont⟩

def openReadMain (env : ReadEnv) (vc : ReadVC) : ReadPass :=
  let ntodo := vc.ntodo
  let bytes := vc.doc.len - vc.docPos
  if vc.seekTo ≠ 0 then
    if vc.seekTo ≥ toInt32 vc.docLen then ⟨{ vc with ndone := vc.docLen }, none, [], .eos⟩
    else if vc.singleFragment then
      readMain env ntodo bytes { vc with ndone := vc.seekTo, seekTo := 0 }
    else if vc.seekTo < vc.doc.dataLen then
      readMain env ntodo bytes { vc with ndone := vc.ndone + vc.seekTo, seekTo := 0 }
    else
      let r := skipFrags vc.doc vc.seekTo vc.doc.nfrags 1 vc.key
      -- `seek_to` is zero when it is assigned to `ndone`
      let vc := { vc with key := r.1, seekTo := 0, ndone := 0 }
      ⟨vc, none, r.2, readNext vc⟩
  else readMain env ntodo bytes vc

/-! ### Stored documents -/

/-- A document of fragments with the given data lengths. Its length is one that `ndone`, an `ink64`,
can have. -/
structure Document where
  key : CacheKey
  hlen : Nat
  lens : List Nat
  small : lens.sum < 2 ^ 63

namespace Document
variable (D : Document)

def docLen : Nat := D.lens.sum

def start (i : Nat) : Nat := (D.lens.take i).sum

def fragKey : Nat → CacheKey
  | 0 => D.key
  | i + 1 => nextCacheKey (fragKey i)

/-- The first fragment, with `after` in memory after its table. -/
def head (after : Nat → Nat) : Doc where
  len := sizeofDoc + D.hlen + 8 * (D.lens.length - 1) + D.lens.headD 0
  totalLen := D.docLen
  hlen := D.hlen
  flen := 8 * (D.lens.length - 1)
  frag i := if i < D.lens.length - 1 then D.start (i + 1) else after i

def opened (after : Nat → Nat) : ReadVC where
  doc := D.head after
  key := D.fragKey 1
  docPos := (D.head after).prefixLen
  docLen := D.docLen
  seekTo := 0
  singleFragment := (D.head after).singleFragment
  nbytes := 0
  ndone := 0

/-- After the pass the read is at byte `seek`: the bytes appended from here on are those from `seek`
on, in the first fragment or in the one that is probed, and `ndone` is their position. -/
structure Positioned (after : Nat → Nat) (seek : Nat) (p : ReadPass) : Prop where
  inTable : ∀ i ∈ p.reads, i < (D.head after).nfrags
  ndone : p.vc.ndone = seek + (p.appended.map Prod.snd).getD 0
  place : ∃ i, D.start i ≤ seek ∧ seek < D.start (i + 1) ∧
    if i = 0 then (p.appended.map Prod.fst).getD p.vc.docPos = (D.head after).prefixLen + seek
    else p.next = .probe (D.fragKey i)

variable {D} {after : Nat → Nat}

/-! ### The first pass after `do_io_pread` -/

theorem readMain_pread (env : ReadEnv) {seek : Nat} (hpos : 0 < seek) (hseek : seek < 2 ^ 31)
    (bytes : Int) (vc : ReadVC) : readMain env (toInt32 (0 - seek)) bytes vc = ⟨vc, none, [], .cont⟩ :=
  if_pos (by rw [CInt.toInt32_of_mem (by omega) (by omega)]; omega)

theorem openReadMain_pread (D : Document) (after : Nat → Nat) (env : ReadEnv) {seek : Nat} (hpos : 0 < seek) :
    let vc := doIoPread (D.opened after) seek
    openReadMain env vc = if (seek : Int) ≥ toInt32 D.docLen then ⟨{ vc with ndone := D.docLen }, none, [], .eos⟩
      else if (D.head after).singleFragment then ⟨{ vc with seekTo := 0 }, none, [], .cont⟩
      else if seek < (D.head after).dataLen then
        ⟨{ vc with ndone := 2 * seek, seekTo := 0 }, none, [], .cont⟩
      else
        let r := skipFrags (D.head after) seek (D.head after).nfrags 1 (D.fragKey 1)
        ⟨{ vc with key := r.1, seekTo := 0, ndone := 0 }, none, r.2,
          readNext { vc with key := r.1, seekTo := 0, ndone := 0 }⟩ := by
  intro vc
  have hne : vc.seekTo ≠ 0 := by
    show (seek : Int) ≠ 0
    omega
  rw [openReadMain, if_pos hne]
  by_cases heos : (seek : Int) ≥ toInt32 D.docLen
  · rw [if_pos heos]
    exact if_pos heos
  · have hseek : seek < 2 ^ 31 := by
      have := CInt.toInt32_lt D.docLen
      omega
    have hmain := readMain_pread env hpos hseek
    rw [if_neg heos]
    refine (if_neg heos).trans ?_
    by_cases hsingle : (D.head after).singleFragment = true
    · rw [if_pos hsingle]
      exact (if_pos hsingle).trans (hmain ..)
    · rw [if_neg hsingle]
      refine (if_neg hsingle).trans ?_
      by_cases hdata : seek < (D.head after).dataLen
      · rw [if_pos hdata, two_mul]
        exact (if_pos (Int.ofNat_lt.2 hdata)).trans (hmain ..)
      · rw [if_neg hdata]
        exact if_neg (mt Int.ofNat_lt.1 hdata)

/-- **The first pass after `do_io_pread` never positions the read.** In a document of one fragment
`doc_pos` stays at the start; in the first of several fragments the position is added to `ndone`,
which has it already; for a later fragment `ndone` is set to zero. -/
theorem pread_never_positioned (D : Document) (after : Nat → Nat) (env : ReadEnv) {seek : Nat}
    (hpos : 0 < seek) (hlt : seek < D.docLen) :
    ¬ D.Positioned after seek (openReadMain env (doIoPread (D.opened after) seek)) := by
  intro h
  rw [openReadMain_pread D after env hpos] at h
  split_ifs at h with heos hsingle hdata
  · have hndone : (D.docLen : Int) = seek + 0 := h.ndone
    omega
  · obtain ⟨i, -, -, hplace⟩ := h.place
    split_ifs at hplace with hi
    have hpos' : ((D.head after).prefixLen : Int) = (D.head after).prefixLen + seek := hplace
    omega
  · have hndone : (2 * seek : Int) = seek + 0 := h.ndone
    omega
  · have hndone : (0 : Int) = seek + 0 := h.ndone
    omega

def twoFrags : Document := ⟨⟨0, 0⟩, 0, [10, 10], by decide⟩

theorem pread_never_positioned_last : ¬ twoFrags.Positioned (fun _ => 0) 15
    (openReadMain ⟨false, false, false⟩ (doIoPread (twoFrags.opened fun _ => 0) 15)) :=
  pread_never_positioned twoFrags _ _ (by decide) (by decide)

/-- Read from byte 5, the pass leaves `ndone` at 10 and `doc_pos` at the start of the fragment. -/
theorem pread_twoFrags : let p := openReadMain ⟨false, false, false⟩ (doIoPread (twoFrags.opened fun _ => 0) 5)
    p.vc.ndone = 10 ∧ p.vc.docPos = (twoFrags.head fun _ => 0).prefixLen ∧ p.next = .cont ∧
      ¬ twoFrags.Positioned (fun _ => 0) 5 p := by
  intro p
  exact ⟨by decide, by decide, by decide, fun h => absurd h.ndone (by decide)⟩

end Document

end TrafficServer
