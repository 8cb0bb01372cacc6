import Mathlib

/-!
# Directory entries

`struct Dir` of `P_CacheDir.h`: five 16-bit words that hold the fields of a used entry (offset,
big, size, tag, phase, head, pinned, token, next) and, overlaid on the word of the tag, the `prev`
link of a free one. The accessors are the header's macros, word by word.

`Content` is what an entry says about a document, without its link.
-/

namespace TrafficServer

def dirTagWidth : Nat := 12
def dirDepth : Nat := 4
def dirSizeWidth : Nat := 6
def inkBlockSize : Nat := 512
def dirOffsetMax : Nat := 2 ^ 40 - 1

def dirMaskTag (t : Nat) : Nat := t &&& ((1 <<< dirTagWidth) - 1)

def dirBlockSize (i : Nat) : Nat := inkBlockSize <<< (3 * i)

def dirSizeWithBlock (i : Nat) : Nat := (1 <<< dirSizeWidth) * dirBlockSize i

structure Dir where
  w0 : BitVec 16
  w1 : BitVec 16
  w2 : BitVec 16
  w3 : BitVec 16
  w4 : BitVec 16
deriving DecidableEq, Repr

def dirClear : Dir := ⟨0, 0, 0, 0, 0⟩

/-! ### Accessors -/

def dirBit (w : BitVec 16) (b : Nat) : Bool := w.getLsbD b

def dirSetBit (w : BitVec 16) (b : Nat) (v : Bool) : BitVec 16 :=
  (w &&& ~~~(1#16 <<< b)) ||| ((if v then 1#16 else 0#16) <<< b)

def dirOffset (e : Dir) : Nat :=
  e.w0.toNat ||| (e.w1 &&& 0xFF#16).toNat <<< 16 ||| e.w4.toNat <<< 24

def dirSetOffset (e : Dir) (o : Nat) : Dir :=
  { e with
    w0 := BitVec.ofNat 16 o
    w1 := BitVec.ofNat 16 (o >>> 16 &&& 0xFF) ||| (e.w1 &&& 0xFF00#16)
    w4 := BitVec.ofNat 16 (o >>> 24) }

def dirBig (e : Dir) : Nat := (e.w1 >>> 8 &&& 0x3#16).toNat

def dirSetBig (e : Dir) (v : Nat) : Dir :=
  { e with w1 := (e.w1 &&& 0xFCFF#16) ||| (BitVec.ofNat 16 v &&& 0x3#16) <<< 8 }

def dirSize (e : Dir) : Nat := (e.w1 >>> 10).toNat

def dirSetSize (e : Dir) (v : Nat) : Dir :=
  { e with w1 := (e.w1 &&& 0x3FF#16) ||| BitVec.ofNat 16 v <<< 10 }

def dirTag (e : Dir) : Nat := (e.w2 &&& 0xFFF#16).toNat

def dirSetTag (e : Dir) (t : Nat) : Dir :=
  { e with w2 := (e.w2 &&& ~~~0xFFF#16) ||| (BitVec.ofNat 16 t &&& 0xFFF#16) }

def dirPhase (e : Dir) : Bool := dirBit e.w2 12
def dirHead (e : Dir) : Bool := dirBit e.w2 13
def dirPinned (e : Dir) : Bool := dirBit e.w2 14
def dirToken (e : Dir) : Bool := dirBit e.w2 15

def dirSetPhase (e : Dir) (v : Bool) : Dir := { e with w2 := dirSetBit e.w2 12 v }
def dirSetHead (e : Dir) (v : Bool) : Dir := { e with w2 := dirSetBit e.w2 13 v }
def dirSetPinned (e : Dir) (v : Bool) : Dir := { e with w2 := dirSetBit e.w2 14 v }
def dirSetToken (e : Dir) (v : Bool) : Dir := { e with w2 := dirSetBit e.w2 15 v }

def dirNext (e : Dir) : Nat := e.w3.toNat
def dirSetNext (e : Dir) (o : Nat) : Dir := { e with w3 := BitVec.ofNat 16 o }

def dirPrev (e : Dir) : Nat := e.w2.toNat
def dirSetPrev (e : Dir) (o : Nat) : Dir := { e with w2 := BitVec.ofNat 16 o }

def dirIsEmpty (e : Dir) : Bool := dirOffset e == 0

/-- `dir_assign_data`: every word of `x` but its link. -/
def dirAssignData (e x : Dir) : Dir := dirSetNext x (dirNext e)

/-- `dir_set_approx_size`: the smallest of the four block sizes that can count `s` in six bits. -/
def dirSetApproxSize (e : Dir) (s : Nat) : Dir :=
  if s ≤ dirSizeWithBlock 0 then dirSetSize (dirSetBig e 0) ((s - 1) / dirBlockSize 0)
  else if s ≤ dirSizeWithBlock 1 then dirSetSize (dirSetBig e 1) ((s - 1) / dirBlockSize 1)
  else if s ≤ dirSizeWithBlock 2 then dirSetSize (dirSetBig e 2) ((s - 1) / dirBlockSize 2)
  else dirSetSize (dirSetBig e 3) ((s - 1) / dirBlockSize 3)

def dirApproxSize (e : Dir) : Nat := (dirSize e + 1) * dirBlockSize (dirBig e)

def roundTo (x y : Nat) : Nat := (x + (y - 1)) / y * y

def roundToApproxSize (s : Nat) : Nat :=
  if s ≤ dirSizeWithBlock 0 then roundTo s (dirBlockSize 0)
  else if s ≤ dirSizeWithBlock 1 then roundTo s (dirBlockSize 1)
  else if s ≤ dirSizeWithBlock 2 then roundTo s (dirBlockSize 2)
  else roundTo s (dirBlockSize 3)

/-- What an entry says about a document: every field but the link. -/
structure Content where
  tag : Nat
  offset : Nat
  size : Nat
  big : Nat
  phase : Bool
  head : Bool
  pinned : Bool
  token : Bool
deriving DecidableEq, Repr

def Dir.content (e : Dir) : Content :=
  ⟨dirTag e, dirOffset e, dirSize e, dirBig e, dirPhase e, dirHead e, dirPinned e, dirToken e⟩

/-! ### Links and contents do not touch each other -/

section Links
variable (e x : Dir) (o : Nat)

@[simp] theorem dirNext_setNext : dirNext (dirSetNext e o) = o % 65536 := by simp [dirNext, dirSetNext]

@[simp] theorem dirPrev_setNext : dirPrev (dirSetNext e o) = dirPrev e := rfl
@[simp] theorem dirOffset_setNext : dirOffset (dirSetNext e o) = dirOffset e := rfl
@[simp] theorem content_setNext : (dirSetNext e o).content = e.content := rfl

@[simp] theorem dirNext_setPrev : dirNext (dirSetPrev e o) = dirNext e := rfl

@[simp] theorem dirPrev_setPrev : dirPrev (dirSetPrev e o) = o % 65536 := by simp [dirPrev, dirSetPrev]

@[simp] theorem dirOffset_setPrev : dirOffset (dirSetPrev e o) = dirOffset e := rfl

@[simp] theorem dirOffset_clear : dirOffset dirClear = 0 := rfl

@[simp] theorem dirNext_setOffset : dirNext (dirSetOffset e o) = dirNext e := rfl
@[simp] theorem dirPrev_setOffset : dirPrev (dirSetOffset e o) = dirPrev e := rfl

@[simp] theorem dirNext_setTag : dirNext (dirSetTag e o) = dirNext e := rfl
@[simp] theorem dirOffset_setTag : dirOffset (dirSetTag e o) = dirOffset e := rfl

@[simp] theorem dirNext_assignData : dirNext (dirAssignData e x) = dirNext e := by
  rw [dirAssignData, dirNext_setNext]
  exact Nat.mod_eq_of_lt e.w3.isLt

@[simp] theorem content_assignData : (dirAssignData e x).content = x.content := rfl

@[simp] theorem dirOffset_assignData : dirOffset (dirAssignData e x) = dirOffset x := rfl

end Links

variable (e : Dir)

@[simp] theorem content_offset : e.content.offset = dirOffset e := rfl

theorem dirNext_lt : dirNext e < 65536 := e.w3.isLt

theorem dirPrev_lt : dirPrev e < 65536 := e.w2.isLt

/-! ### The packed fields -/

theorem dirOffset_eq : dirOffset e = e.w0.toNat + 2 ^ 16 * (e.w1.toNat % 256) + 2 ^ 24 * e.w4.toNat := by
  have h0 := e.w0.isLt
  have h1 : (e.w1 &&& 0xFF#16).toNat = e.w1.toNat % 2 ^ 8 := by
    rw [BitVec.toNat_and]
    exact Nat.and_two_pow_sub_one_eq_mod _ 8
  have hlow : e.w0.toNat ||| (e.w1.toNat % 2 ^ 8) <<< 16 = 2 ^ 16 * (e.w1.toNat % 2 ^ 8) + e.w0.toNat := by
    rw [Nat.shiftLeft_eq, Nat.mul_comm, Nat.or_comm, Nat.two_pow_add_eq_or_of_lt h0]
  have hlt : 2 ^ 16 * (e.w1.toNat % 2 ^ 8) + e.w0.toNat < 2 ^ 24 := by omega
  rw [dirOffset, h1, hlow, Nat.shiftLeft_eq, Nat.mul_comm e.w4.toNat, Nat.or_comm, ← Nat.two_pow_add_eq_or_of_lt hlt]
  omega

theorem toNat_offset_mid (w : BitVec 16) (n : Nat) :
    (BitVec.ofNat 16 (n &&& 0xFF) ||| (w &&& 0xFF00#16)).toNat % 256 = n % 256 := by
  have hlow : n &&& 0xFF = n % 2 ^ 8 := Nat.and_two_pow_sub_one_eq_mod n 8
  have h : (BitVec.ofNat 16 (n &&& 0xFF) ||| (w &&& 0xFF00#16)) &&& 0xFF#16 =
      BitVec.ofNat 16 (n % 2 ^ 8) &&& 0xFF#16 := by
    rw [hlow]
    ext i hi
    interval_cases i <;> simp
  have h' := congrArg BitVec.toNat h
  simp only [BitVec.toNat_and, BitVec.toNat_ofNat] at h'
  rw [show (255 % 2 ^ 16 : Nat) = 2 ^ 8 - 1 from rfl, Nat.and_two_pow_sub_one_eq_mod,
    Nat.and_two_pow_sub_one_eq_mod] at h'
  omega

@[simp] theorem dirOffset_setOffset (o : Nat) : dirOffset (dirSetOffset e o) = o % 2 ^ 40 := by
  rw [dirOffset_eq]
  simp only [dirSetOffset, toNat_offset_mid, BitVec.toNat_ofNat, Nat.shiftRight_eq_div_pow]
  omega

variable (v : Nat)

theorem content_setTag (t : Nat) : (dirSetTag e t).content = { e.content with tag := dirMaskTag t } := by
  have hw : (dirSetTag e t).w2 &&& 0xFFF#16 = BitVec.ofNat 16 t &&& 0xFFF#16 := by
    simp only [dirSetTag]
    ext i hi
    interval_cases i <;> simp
  have htag : dirTag (dirSetTag e t) = dirMaskTag t := by
    rw [dirTag, hw, dirMaskTag, BitVec.toNat_and, BitVec.toNat_ofNat]
    rw [show (0xFFF#16).toNat = 2 ^ 12 - 1 from rfl, show ((1 <<< dirTagWidth) - 1 : Nat) = 2 ^ 12 - 1 from rfl,
      Nat.and_two_pow_sub_one_eq_mod, Nat.and_two_pow_sub_one_eq_mod]
    omega
  simp only [Dir.content, htag]
  simp [dirPhase, dirHead, dirPinned, dirToken, dirBit, dirSetTag, dirOffset, dirSize, dirBig]

theorem dirSetTag_mask (t : Nat) : dirSetTag e (dirMaskTag t) = dirSetTag e t := by
  have hmask : dirMaskTag t = t % 2 ^ 12 := Nat.and_two_pow_sub_one_eq_mod t 12
  have h : BitVec.ofNat 16 (dirMaskTag t) &&& 0xFFF#16 = BitVec.ofNat 16 t &&& 0xFFF#16 := by
    apply BitVec.eq_of_toNat_eq
    simp only [BitVec.toNat_and, BitVec.toNat_ofNat, hmask]
    rw [show (4095 % 2 ^ 16 : Nat) = 2 ^ 12 - 1 from rfl, Nat.and_two_pow_sub_one_eq_mod,
      Nat.and_two_pow_sub_one_eq_mod]
    omega
  rw [dirSetTag, dirSetTag, h]

/-! ### Sizes -/

theorem dirSize_setSize : dirSize (dirSetSize e v) = v % 64 := by
  have h : (dirSetSize e v).w1 >>> 10 = BitVec.ofNat 16 v &&& 0x3F#16 := by
    simp only [dirSetSize]
    ext i hi
    interval_cases i <;> simp
  rw [dirSize, h, BitVec.toNat_and, BitVec.toNat_ofNat,
    show (0x3F#16).toNat = 2 ^ 6 - 1 from rfl, Nat.and_two_pow_sub_one_eq_mod]
  omega

theorem dirBig_setBig : dirBig (dirSetBig e v) = v % 4 := by
  have h : ((dirSetBig e v).w1 >>> 8) &&& 0x3#16 = BitVec.ofNat 16 v &&& 0x3#16 := by
    simp only [dirSetBig]
    ext i hi
    interval_cases i <;> simp
  rw [dirBig, h, BitVec.toNat_and, BitVec.toNat_ofNat,
    show (0x3#16).toNat = 2 ^ 2 - 1 from rfl, Nat.and_two_pow_sub_one_eq_mod]
  omega

theorem dirBig_setSize : dirBig (dirSetSize e v) = dirBig e := by
  have h : ((dirSetSize e v).w1 >>> 8) &&& 0x3#16 = (e.w1 >>> 8) &&& 0x3#16 := by
    simp only [dirSetSize]
    ext i hi
    interval_cases i <;> simp
  rw [dirBig, dirBig, h]

theorem content_setBig : (dirSetBig e v).content = { e.content with big := v % 4 } := by
  have hsize : (dirSetBig e v).w1 >>> 10 = e.w1 >>> 10 := by
    simp only [dirSetBig]
    ext i hi
    interval_cases i <;> simp
  have hlow : (dirSetBig e v).w1 &&& 0xFF#16 = e.w1 &&& 0xFF#16 := by
    simp only [dirSetBig]
    ext i hi
    interval_cases i <;> simp
  rw [Dir.content, dirOffset, hlow, dirSize, hsize, dirBig_setBig]
  rfl

theorem content_setSize : (dirSetSize e v).content = { e.content with size := v % 64 } := by
  have hlow : (dirSetSize e v).w1 &&& 0xFF#16 = e.w1 &&& 0xFF#16 := by
    simp only [dirSetSize]
    ext i hi
    interval_cases i <;> simp
  rw [Dir.content, dirOffset, hlow, dirSize_setSize, dirBig_setSize]
  rfl

theorem offset_mid_high (w : BitVec 16) (n : Nat) :
    (BitVec.ofNat 16 (n &&& 0xFF) ||| (w &&& 0xFF00#16)) >>> 8 = w >>> 8 := by
  rw [BitVec.ofNat_and]
  ext i hi
  interval_cases i <;> simp

theorem content_setOffset (o : Nat) : (dirSetOffset e o).content = { e.content with offset := o % 2 ^ 40 } := by
  have hsize : ∀ w : BitVec 16, w >>> 10 = w >>> 8 >>> 2 := fun w => BitVec.shiftRight_add w 8 2
  have hbig : dirBig (dirSetOffset e o) = dirBig e := by rw [dirBig, dirBig, dirSetOffset, offset_mid_high]
  have hsize : dirSize (dirSetOffset e o) = dirSize e := by
    rw [dirSize, dirSize, hsize, hsize, dirSetOffset, offset_mid_high]
  rw [Dir.content, dirOffset_setOffset, hbig, hsize]
  rfl

/-! ### The flags -/

section Flags
variable {w : BitVec 16} {b i : Nat}

theorem dirBit_setBit (hb : b < 16) (v : Bool) : dirBit (dirSetBit w b v) i = if i = b then v else dirBit w i := by
  rw [dirBit, dirBit, dirSetBit, BitVec.getLsbD_or, BitVec.getLsbD_and, BitVec.getLsbD_not,
    BitVec.getLsbD_shiftLeft, BitVec.getLsbD_shiftLeft]
  rcases lt_trichotomy i b with hlt | rfl | hgt
  · cases v <;> simp [hlt.trans hb, hlt, hlt.ne]
  · cases v <;> simp [hb]
  · cases v <;> simp [hgt.ne', hgt.not_gt, Nat.sub_ne_zero_of_lt hgt] <;> exact fun h => BitVec.lt_of_getLsbD h

theorem tag_setBit (hb : 12 ≤ b) (hb' : b < 16) (v : Bool) : dirSetBit w b v &&& 0xFFF#16 = w &&& 0xFFF#16 := by
  ext i hi
  by_cases hib : i = b
  · interval_cases b <;> simp [hib]
  · have h := dirBit_setBit (w := w) (i := i) hb' v
    rw [dirBit, dirBit, if_neg hib] at h
    simp [← BitVec.getLsbD_eq_getElem, h]

theorem content_setBit (hb : 12 ≤ b) (hb' : b < 16) (v : Bool) :
    ({ e with w2 := dirSetBit e.w2 b v } : Dir).content = { e.content with
      phase := if 12 = b then v else dirPhase e
      head := if 13 = b then v else dirHead e
      pinned := if 14 = b then v else dirPinned e
      token := if 15 = b then v else dirToken e } := by
  simp only [Dir.content, dirTag, tag_setBit hb hb', dirPhase, dirHead, dirPinned, dirToken, dirBit_setBit hb']
  rfl

end Flags

section
variable (v : Bool)

theorem content_setPhase : (dirSetPhase e v).content = { e.content with phase := v } :=
  content_setBit e (by decide) (by decide) v

theorem content_setHead : (dirSetHead e v).content = { e.content with head := v } :=
  content_setBit e (by decide) (by decide) v

theorem content_setPinned : (dirSetPinned e v).content = { e.content with pinned := v } :=
  content_setBit e (by decide) (by decide) v

theorem content_setToken : (dirSetToken e v).content = { e.content with token := v } :=
  content_setBit e (by decide) (by decide) v

@[simp] theorem dirPhase_setPhase : dirPhase (dirSetPhase e v) = v := congrArg Content.phase (content_setPhase e v)

@[simp] theorem dirPhase_setPinned : dirPhase (dirSetPinned e v) = dirPhase e :=
  congrArg Content.phase (content_setPinned e v)

@[simp] theorem dirPhase_setHead : dirPhase (dirSetHead e v) = dirPhase e :=
  congrArg Content.phase (content_setHead e v)

end

/-! ### Rounding -/

theorem dirBlockSize_eq (i : Nat) : dirBlockSize i = 512 * 8 ^ i := by
  rw [dirBlockSize, Nat.shiftLeft_eq, pow_mul]
  rfl

theorem roundTo_spec {x y : Nat} (hy : 0 < y) :
    y ∣ roundTo x y ∧ x ≤ roundTo x y ∧ ∀ k, x ≤ k * y → roundTo x y ≤ k * y := by
  refine ⟨Nat.dvd_mul_left .., ?_, fun k hk => Nat.mul_le_mul_right y ?_⟩
  · have := Nat.lt_div_mul_add hy (a := x + (y - 1))
    unfold roundTo
    omega
  · refine Nat.lt_succ_iff.1 ((Nat.div_lt_iff_lt_mul hy).2 ?_)
    rw [Nat.succ_mul]
    omega

variable {i s : Nat}

theorem roundToApproxSize_eq (s : Nat) : roundToApproxSize s =
    if s ≤ 32768 then (s + 511) / 512 * 512 else if s ≤ 262144 then (s + 4095) / 4096 * 4096
    else if s ≤ 2097152 then (s + 32767) / 32768 * 32768 else (s + 262143) / 262144 * 262144 := rfl

theorem le_roundToApproxSize (s : Nat) : s ≤ roundToApproxSize s := by
  rw [roundToApproxSize_eq]
  split_ifs <;> omega

theorem dvd_roundToApproxSize (s : Nat) : inkBlockSize ∣ roundToApproxSize s := by
  rw [roundToApproxSize_eq, inkBlockSize]
  split_ifs <;> omega

theorem roundToApproxSize_le (hle : s ≤ dirSizeWithBlock 3) : roundToApproxSize s ≤ dirSizeWithBlock 3 := by
  rw [show dirSizeWithBlock 3 = 16777216 from rfl] at *
  rw [roundToApproxSize_eq]
  split_ifs <;> omega

theorem roundToApproxSize_idem (s : Nat) : roundToApproxSize (roundToApproxSize s) = roundToApproxSize s := by
  rw [roundToApproxSize_eq s]
  split_ifs <;> rw [roundToApproxSize_eq] <;> split_ifs <;> omega

theorem roundToApproxSize_mono : Monotone roundToApproxSize := by
  intro s t hst
  rw [roundToApproxSize_eq, roundToApproxSize_eq]
  split_ifs <;> omega

theorem dirApproxSize_set (hi : i < 4) (hs : 0 < s) (hle : s ≤ dirSizeWithBlock i) :
    dirApproxSize (dirSetSize (dirSetBig e i) ((s - 1) / dirBlockSize i)) = roundTo s (dirBlockSize i) := by
  have hpos : 0 < dirBlockSize i := by rw [dirBlockSize_eq]; positivity
  have hsize : (s - 1) / dirBlockSize i < 64 := by
    rw [Nat.div_lt_iff_lt_mul hpos]
    exact (Nat.sub_lt hs Nat.one_pos).trans_le hle
  rw [dirApproxSize, dirSize_setSize, dirBig_setSize, dirBig_setBig, Nat.mod_eq_of_lt hi, Nat.mod_eq_of_lt hsize,
    roundTo, show s + (dirBlockSize i - 1) = s - 1 + dirBlockSize i by omega, Nat.add_div_right _ hpos]

theorem dirApproxSize_setApproxSize (hs : 0 < s) (hle : s ≤ dirSizeWithBlock 3) :
    dirApproxSize (dirSetApproxSize e s) = roundToApproxSize s := by
  unfold dirSetApproxSize roundToApproxSize
  split_ifs with h0 h1 h2
  · exact dirApproxSize_set e (by decide) hs h0
  · exact dirApproxSize_set e (by decide) hs h1
  · exact dirApproxSize_set e (by decide) hs h2
  · exact dirApproxSize_set e (by decide) hs hle

end TrafficServer
