import TrafficServer.Lib.CInt
import TrafficServer.Hdrs.MIMEHdr
import TrafficServer.Hdrs.URL

/-!
# Marshalling of header heaps

`HdrHeap::marshal` copies the blocks of objects and then the string heaps behind a header of its own,
and turns the pointers of the copied objects into offsets. What it compares with `len` is the sum of
the copies: the header in front of them and the rounding at the end are not counted (`respects_iff`).

The copies are pieces, taken in order as long as they fit. `copied` is how many bytes that gives, and
`copyAll_spec` is the loop in its terms.
-/

namespace TrafficServer

open List CInt

/-! ### Objects -/

/-- A slot of a field block, with the pointers that `marshal` reads. -/
structure HdrField where
  name : Nat := 0
  value : Nat := 0
  nextDup : Nat := 0
  readiness : MIMEFieldReadiness := .detached

structure MIMEFieldBlockImpl where
  next : Nat := 0
  /-- The slots below `m_freetop`. -/
  fields : List HdrField := []

structure MIMEHdrImpl where
  fblockListTail : Nat := 0
  firstFblock : MIMEFieldBlockImpl := {}

/-- The start line; the polarity of a header is that of its start line. -/
inductive HTTPStart where
  | req (method urlImpl : Nat)
  | resp (reason : Nat)

structure HTTPHdrImpl where
  u : HTTPStart
  fieldsImpl : Nat

inductive HdrHeapObj where
  | empty
  | raw
  | url (u : URLImpl Nat)
  | http (h : HTTPHdrImpl)
  | mime (h : MIMEHdrImpl)
  | fieldBlock (b : MIMEFieldBlockImpl)

open HdrHeapObj

/-- An entry of a translation table. -/
structure MarshalXlate where
  start : Nat
  stop : Nat
  offset : Int

/-- `HDR_MARSHAL_STR` and `HDR_MARSHAL_PTR`; the end of a heap is in its range. -/
def marshalPtr (table : List MarshalXlate) (p : Nat) : Option Nat :=
  if p = 0 then some 0
  else (table.find? fun x => x.start ≤ p && p ≤ x.stop).map fun x => ((p : Int) - x.offset).toNat

section Objects
variable (ptrs strs : List MarshalXlate)

def URLImpl.marshal (u : URLImpl Nat) : Option (URLImpl Nat) := do
  let scheme ← marshalPtr strs u.scheme
  let user ← marshalPtr strs u.user
  let password ← marshalPtr strs u.password
  let host ← marshalPtr strs u.host
  let portStr ← marshalPtr strs u.portStr
  let path ← marshalPtr strs u.path
  let params ← marshalPtr strs u.params
  let query ← marshalPtr strs u.query
  let fragment ← marshalPtr strs u.fragment
  return { u with scheme, user, password, host, portStr, path, params, query, fragment }

def HTTPHdrImpl.marshal (h : HTTPHdrImpl) : Option HTTPHdrImpl := do
  let u ← match h.u with
    | .req method urlImpl => do
      let method ← marshalPtr strs method
      let urlImpl ← marshalPtr ptrs urlImpl
      pure (HTTPStart.req method urlImpl)
    | .resp reason => do
      let reason ← marshalPtr strs reason
      pure (HTTPStart.resp reason)
  let fieldsImpl ← marshalPtr ptrs h.fieldsImpl
  return ⟨u, fieldsImpl⟩

def HdrField.marshal (f : HdrField) : Option HdrField :=
  if f.readiness = .live then do
    let name ← marshalPtr strs f.name
    let value ← marshalPtr strs f.value
    let nextDup ← marshalPtr ptrs f.nextDup
    return { f with name, value, nextDup }
  else some f

/-- With one string heap and one block the source has a loop of its own that does the same. -/
def MIMEFieldBlockImpl.marshal (b : MIMEFieldBlockImpl) : Option MIMEFieldBlockImpl := do
  let next ← marshalPtr ptrs b.next
  let fields ← b.fields.mapM (HdrField.marshal ptrs strs)
  return ⟨next, fields⟩

def MIMEHdrImpl.marshal (h : MIMEHdrImpl) : Option MIMEHdrImpl := do
  let fblockListTail ← marshalPtr ptrs h.fblockListTail
  let firstFblock ← h.firstFblock.marshal ptrs strs
  return ⟨fblockListTail, firstFblock⟩

end Objects

/-- An object with its length. No object is empty, so the objects of a block follow each other. -/
structure HdrHeapObjImpl where
  obj : HdrHeapObj
  length : Nat
  pos : 0 < length

/-- One round of the loop over the objects; `none` is `goto Failed`. -/
def HdrHeapObjImpl.marshal (ptrs strs : List MarshalXlate) (o : HdrHeapObjImpl) : Option HdrHeapObj :=
  match o.obj with
  | .url u => (u.marshal strs).map .url
  | .http h => (h.marshal ptrs strs).map .http
  | .fieldBlock b => (b.marshal ptrs strs).map .fieldBlock
  | .mime h => (h.marshal ptrs strs).map .mime
  | .empty | .raw => if o.length ≤ 0 then none else some o.obj

/-! ### Heaps

A heap is allocated with a size that is an `int`. -/

/-- A block with its objects from `m_data_start` to `m_free_start`. -/
structure HdrBlock where
  dataStart : Nat
  objs : List HdrHeapObjImpl
  fits : (objs.map (·.length)).sum < 2 ^ 31

def strHeapHdrSize : Nat := 32

structure HdrStrHeap where
  addr : Nat
  heapSize : Nat
  freeSize : Nat
  free_le : strHeapHdrSize + freeSize ≤ heapSize
  fits : heapSize < 2 ^ 31

/-- A read-only string heap; the slot is free if it has no start. -/
structure StrHeapDesc where
  start : Nat := 0
  len : Nat := 0
  fits : len < 2 ^ 31 := by decide

/-- A header heap: the first block, those that it leads to, and the string heaps. -/
structure HdrHeap where
  first : HdrBlock
  next : List HdrBlock := []
  readWriteHeap : Option HdrStrHeap := none
  ronlyHeap : Fin 3 → StrHeapDesc := fun _ => {}

/-- A part of a heap that is copied. -/
structure Piece where
  start : Nat
  size : Nat

namespace HdrHeap

def blocks (h : HdrHeap) : List HdrBlock := h.first :: h.next

def objs (h : HdrHeap) : List HdrHeapObjImpl := h.blocks.flatMap (·.objs)

def blockPieces (h : HdrHeap) : List Piece :=
  h.blocks.map fun b => ⟨b.dataStart, (b.objs.map (·.length)).sum⟩

def strPieces (h : HdrHeap) : List Piece :=
  (h.readWriteHeap.toList.map fun s =>
    ⟨s.addr + strHeapHdrSize, s.heapSize - (strHeapHdrSize + s.freeSize)⟩) ++
  ((List.ofFn h.ronlyHeap).filter (·.start ≠ 0)).map fun s => ⟨s.start, s.len⟩

def pieces (h : HdrHeap) : List Piece := h.blockPieces ++ h.strPieces

end HdrHeap

open HdrHeap

def hdrHeapHdrSize : Nat := 136

/-- Where the last field of the header ends that is filled in, `m_lost_string_space`. -/
def hdrFilled : Nat := 132

def magicSize : Nat := 4

def roundPtr (x : Int) : Int := (x + 7) / 8 * 8

def HdrHeap.marshalLength (h : HdrHeap) : Int :=
  toInt32 (roundPtr (h.pieces.foldl (fun len p => toInt32 (len + p.size)) hdrHeapHdrSize))

/-! ### Marshalling -/

/-- The variables of `marshal`: the offset of `b`, the length that is left, where the bytes end that
have been written, and a translation table. -/
structure Marshal where
  b : Nat := hdrHeapHdrSize
  len : Int
  written : Nat := 0
  xlation : List MarshalXlate := []

namespace Marshal

def write (s : Marshal) (start n : Nat) : Marshal :=
  { s with written := if n = 0 then s.written else max s.written (start + n) }

def copy (s : Marshal) (p : Piece) : Marshal :=
  { s.write s.b p.size with
    b := s.b + p.size
    len := s.len - p.size
    xlation := s.xlation ++ [⟨p.start, p.start + p.size, p.start - s.b⟩] }

def copyAll : List Piece → Marshal → Marshal × Bool
  | [], s => (s, true)
  | p :: ps, s => if p.size > s.len then (s, false) else copyAll ps (s.copy p)

end Marshal

open Marshal

/-- What a call returns, and where the bytes end that it has written. -/
structure Marshaled where
  ret : Int
  written : Int
deriving DecidableEq

/-- The header of the marshalled block is filled in, and the table of the string heaps is empty. -/
def Marshal.fillHeader (s : Marshal) : Marshal := { s.write 0 hdrFilled with xlation := [] }

def Marshal.failed (s : Marshal) : Marshaled := ⟨-1, (s.write 0 magicSize).written⟩

/-- The offsets are patched into bytes that have been copied; `used` is where `b` stands. -/
def HdrHeap.marshal (h : HdrHeap) (len : Int) : Marshaled :=
  match Marshal.copyAll h.blockPieces { len } with
  | (s, false) => s.failed
  | (s, true) =>
    match Marshal.copyAll h.strPieces s.fillHeader with
    | (t, false) => t.failed
    | (t, true) =>
      match h.objs.mapM (HdrHeapObjImpl.marshal s.xlation t.xlation) with
      | none => t.failed
      | some _ => ⟨toInt32 (roundPtr (toInt32 (t.b : Int))), t.written⟩

/-! ### Marshalling of an alternate -/

/-- The headers of an alternate that are valid. -/
structure HTTPCacheAlt where
  requestHdr : Option HdrHeap
  responseHdr : Option HdrHeap

def httpAltMarshalSize : Int := 184

namespace HTTPCacheAlt

def hdrs (a : HTTPCacheAlt) : List HdrHeap := a.requestHdr.toList ++ a.responseHdr.toList

def marshalLength (a : HTTPCacheAlt) : Int :=
  a.hdrs.foldl (fun len h => toInt32 (len + h.marshalLength)) httpAltMarshalSize

/-- A header is marshalled behind what is used; a failure counts as -1 bytes. -/
def marshalHdr (len : Int) (s : Marshaled) (h : HdrHeap) : Marshaled :=
  let m := h.marshal (toInt32 (len - s.ret))
  ⟨toInt32 (s.ret + m.ret), max s.written (s.ret + m.written)⟩

/-- `HTTPInfo::marshal`; `none` if the assertion at the end fails. -/
def marshal (a : HTTPCacheAlt) (len : Int) : Option Marshaled :=
  let s := a.hdrs.foldl (marshalHdr len) ⟨httpAltMarshalSize, httpAltMarshalSize⟩
  if s.ret ≤ len then some s else none

end HTTPCacheAlt

/-! ### The property -/

namespace HdrHeap

/-- Nothing is written past the buffer, and no more is reported than it has. -/
def Respects (h : HdrHeap) (len : Int) : Prop :=
  (0 ≤ (h.marshal len).ret → (h.marshal len).ret ≤ len) ∧ (h.marshal len).written ≤ len

def Succeeds (h : HdrHeap) : Prop :=
  0 ≤ (h.marshal h.marshalLength).ret ∧ (h.marshal h.marshalLength).ret ≤ h.marshalLength

end HdrHeap

/-- The length that is asked for is enough for the alternate. -/
def HTTPCacheAlt.Enough (a : HTTPCacheAlt) : Prop :=
  (∀ h ∈ a.hdrs, h.Succeeds) ∧
    ∃ m, a.marshal a.marshalLength = some m ∧ m.ret ≤ a.marshalLength ∧ m.written ≤ a.marshalLength

/-! ### The condition -/

def Within (ps : List Piece) (a : Nat) : Prop := ∃ p ∈ ps, p.start ≤ a ∧ a ≤ p.start + p.size

def HdrHeapObj.objPtrs : HdrHeapObj → List Nat
  | .empty | .raw | .url _ => []
  | .http ⟨.req _ urlImpl, fieldsImpl⟩ => [urlImpl, fieldsImpl]
  | .http ⟨.resp _, fieldsImpl⟩ => [fieldsImpl]
  | .mime h => h.fblockListTail :: h.firstFblock.next ::
      (h.firstFblock.fields.filter (·.readiness = .live)).map (·.nextDup)
  | .fieldBlock b => b.next :: (b.fields.filter (·.readiness = .live)).map (·.nextDup)

def HdrHeapObj.strPtrs : HdrHeapObj → List Nat
  | .empty | .raw => []
  | .url u => [u.scheme, u.user, u.password, u.host, u.portStr, u.path, u.params, u.query, u.fragment]
  | .http ⟨.req method _, _⟩ => [method]
  | .http ⟨.resp reason, _⟩ => [reason]
  | .mime h => (h.firstFblock.fields.filter (·.readiness = .live)).flatMap fun f => [f.name, f.value]
  | .fieldBlock b => (b.fields.filter (·.readiness = .live)).flatMap fun f => [f.name, f.value]

def copied : List Piece → Int → Nat
  | [], _ => 0
  | p :: ps, len => if p.size > len then 0 else p.size + copied ps (len - p.size)

def bytes (ps : List Piece) : Nat := (ps.map (·.size)).sum

namespace HdrHeap

def Translates (h : HdrHeap) : Prop :=
  ∀ o ∈ h.objs, (∀ a ∈ o.obj.objPtrs, a = 0 ∨ Within h.blockPieces a) ∧
    ∀ a ∈ o.obj.strPtrs, a = 0 ∨ Within h.strPieces a

def size (h : HdrHeap) : Int := roundPtr (hdrHeapHdrSize + bytes h.pieces)

/-- The buffer has room for what is written to it. -/
structure Fits (h : HdrHeap) (len : Int) : Prop where
  magic : magicSize ≤ len
  header : bytes h.blockPieces ≤ len → hdrFilled ≤ len
  pieces : 0 < copied h.pieces len → hdrHeapHdrSize + copied h.pieces len ≤ len
  /-- A size that is not an `int` is returned as a negative value. -/
  used : bytes h.pieces ≤ len → h.Translates → h.size ≤ len ∨ 2 ^ 31 ≤ h.size

end HdrHeap

/-! ### Translation of pointers -/

variable {table : List MarshalXlate}

section Translation
variable {ptrs strs : List MarshalXlate}

theorem isSome_marshalPtr {p : Nat} :
    (marshalPtr table p).isSome ↔ p = 0 ∨ ∃ x ∈ table, x.start ≤ p ∧ p ≤ x.stop := by
  unfold marshalPtr
  split <;> simp [*]

theorem isSome_bind_iff {α β : Type} {x : Option α} {f : α → Option β} {P : Prop}
    (h : ∀ a, (f a).isSome ↔ P) : (x.bind f).isSome ↔ x.isSome ∧ P := by
  cases x <;> simp [h]

theorem isSome_mapM_iff {α β : Type} {f : α → Option β} (l : List α) : (l.mapM f).isSome ↔ ∀ a ∈ l, (f a).isSome := by
  induction l with
  | nil => simp
  | cons a l ih =>
    simp only [mapM_cons, forall_mem_cons, ← ih]
    apply isSome_bind_iff
    intro b
    cases l.mapM f <;> simp

theorem URLImpl.isSome_marshal (u : URLImpl Nat) : (u.marshal strs).isSome ↔
    ∀ a ∈ (url u).strPtrs, (marshalPtr strs a).isSome := by
  simp only [strPtrs, forall_mem_cons, not_mem_nil, false_implies, implies_true]
  iterate 9 apply isSome_bind_iff; intro
  simp

theorem HTTPHdrImpl.isSome_marshal (h : HTTPHdrImpl) : (h.marshal ptrs strs).isSome ↔
    (∀ a ∈ (http h).objPtrs, (marshalPtr ptrs a).isSome) ∧ ∀ a ∈ (http h).strPtrs, (marshalPtr strs a).isSome := by
  obtain ⟨u, fieldsImpl⟩ := h
  cases u with
  | req method urlImpl =>
    cases hm : marshalPtr strs method <;> cases hu : marshalPtr ptrs urlImpl <;>
      cases hf : marshalPtr ptrs fieldsImpl <;>
      simp [HTTPHdrImpl.marshal, objPtrs, strPtrs, *]
  | resp reason =>
    cases hm : marshalPtr strs reason <;> cases hf : marshalPtr ptrs fieldsImpl <;>
      simp [HTTPHdrImpl.marshal, objPtrs, strPtrs, *]

theorem HdrField.isSome_marshal (f : HdrField) : (f.marshal ptrs strs).isSome ↔
    (f.readiness = .live → (marshalPtr ptrs f.nextDup).isSome ∧
      (marshalPtr strs f.name).isSome ∧ (marshalPtr strs f.value).isSome) := by
  unfold HdrField.marshal
  split
  · cases marshalPtr strs f.name <;> cases marshalPtr strs f.value <;>
      cases marshalPtr ptrs f.nextDup <;> simp [*]
  · simp [*]

theorem MIMEFieldBlockImpl.isSome_marshal (b : MIMEFieldBlockImpl) : (b.marshal ptrs strs).isSome ↔
    (∀ a ∈ (fieldBlock b).objPtrs, (marshalPtr ptrs a).isSome) ∧
      ∀ a ∈ (fieldBlock b).strPtrs, (marshalPtr strs a).isSome := by
  have h : (b.marshal ptrs strs).isSome ↔ (marshalPtr ptrs b.next).isSome ∧
      ∀ f ∈ b.fields, (f.marshal ptrs strs).isSome := by
    rw [← isSome_mapM_iff]
    apply isSome_bind_iff
    intro
    cases b.fields.mapM (HdrField.marshal ptrs strs) <;> simp
  simp only [h, HdrField.isSome_marshal, objPtrs, strPtrs, forall_mem_cons, forall_mem_map, mem_flatMap, mem_filter]
  grind

theorem HdrHeapObjImpl.isSome_marshal (o : HdrHeapObjImpl) : (o.marshal ptrs strs).isSome ↔
    (∀ a ∈ o.obj.objPtrs, (marshalPtr ptrs a).isSome) ∧ ∀ a ∈ o.obj.strPtrs, (marshalPtr strs a).isSome := by
  obtain ⟨obj, length, hpos⟩ := o
  cases obj with
  | empty => simp [HdrHeapObjImpl.marshal, objPtrs, strPtrs]; omega
  | raw => simp [HdrHeapObjImpl.marshal, objPtrs, strPtrs]; omega
  | url u => simp [HdrHeapObjImpl.marshal, URLImpl.isSome_marshal, objPtrs]
  | http h => simp [HdrHeapObjImpl.marshal, HTTPHdrImpl.isSome_marshal]
  | mime h =>
    have hm : (h.marshal ptrs strs).isSome ↔ (marshalPtr ptrs h.fblockListTail).isSome ∧
        (h.firstFblock.marshal ptrs strs).isSome := by
      apply isSome_bind_iff
      intro
      cases h.firstFblock.marshal ptrs strs <;> simp
    simp [HdrHeapObjImpl.marshal, hm, MIMEFieldBlockImpl.isSome_marshal, objPtrs, strPtrs, and_assoc]
  | fieldBlock b => simp [HdrHeapObjImpl.marshal, MIMEFieldBlockImpl.isSome_marshal]

end Translation

/-! ### The copies -/

def takes : List Piece → Int → Bool
  | [], _ => true
  | p :: ps, len => p.size ≤ len && takes ps (len - p.size)

theorem takes_iff (p : Piece) (ps : List Piece) (len : Int) : takes (p :: ps) len = true ↔ bytes (p :: ps) ≤ len := by
  induction ps generalizing p len with
  | nil => simp [takes, bytes]
  | cons q ps ih =>
    rw [takes, Bool.and_eq_true, ih]
    simp only [bytes, map_cons, sum_cons, decide_eq_true_eq]
    omega

theorem sub_bytes_cons (p : Piece) (ps : List Piece) (len : Int) :
    len - p.size - bytes ps = len - bytes (p :: ps) := by
  simp only [bytes, map_cons, sum_cons]
  omega

theorem takes_append (ps qs : List Piece) (len : Int) :
    takes (ps ++ qs) len = (takes ps len && takes qs (len - bytes ps)) := by
  induction ps generalizing len with
  | nil => simp [takes, bytes]
  | cons p ps ih => rw [cons_append, takes, takes, ih, sub_bytes_cons, Bool.and_assoc]

theorem copied_of_takes {ps : List Piece} {len : Int} (h : takes ps len = true) : copied ps len = bytes ps := by
  induction ps generalizing len with
  | nil => rfl
  | cons p ps ih =>
    obtain ⟨hp, hps⟩ := by simpa [takes] using h
    rw [copied, if_neg (by omega), ih hps]
    rfl

theorem copied_append (ps qs : List Piece) (len : Int) : copied (ps ++ qs) len =
    if takes ps len then bytes ps + copied qs (len - bytes ps) else copied ps len := by
  induction ps generalizing len with
  | nil => simp [takes, bytes]
  | cons p ps ih =>
    by_cases hp : p.size > len
    · have ht : ¬ (p.size : Int) ≤ len := by omega
      simp [copied, takes, hp, ht]
    · have ht : (p.size : Int) ≤ len := by omega
      simp only [cons_append, copied, if_neg hp, ih, sub_bytes_cons, takes, ht]
      split <;> simp_all [bytes]
      omega

namespace Marshal

/-- Bytes have been appended at `b`. -/
structure Copied (s : Marshal) (n : Nat) (t : Marshal) : Prop where
  b_eq : t.b = s.b + n
  len_eq : t.len = s.len - n
  written_eq : t.written = if n = 0 then s.written else max s.written (s.b + n)

theorem Copied.refl (s : Marshal) : Copied s 0 s := ⟨rfl, by simp, by simp⟩

theorem Copied.trans {s t u : Marshal} {n k : Nat} (h1 : Copied s n t) (h2 : Copied t k u) : Copied s (n + k) u := by
  obtain ⟨hb1, hl1, hw1⟩ := h1
  obtain ⟨hb2, hl2, hw2⟩ := h2
  refine ⟨by omega, by omega, ?_⟩
  rw [hw2, hw1, hb1]
  split <;> split <;> split <;> omega

theorem copied_copy (s : Marshal) (p : Piece) : Copied s p.size (s.copy p) := ⟨rfl, rfl, rfl⟩

def range (x : MarshalXlate) : Nat × Nat := (x.start, x.stop)

theorem copyAll_spec (ps : List Piece) (s : Marshal) :
    (copyAll ps s).2 = takes ps s.len ∧ Copied s (copied ps s.len) (copyAll ps s).1 ∧
      (takes ps s.len = true → (copyAll ps s).1.xlation.map range =
        s.xlation.map range ++ ps.map fun p => (p.start, p.start + p.size)) := by
  induction ps generalizing s with
  | nil => exact ⟨rfl, Copied.refl s, fun _ => by simp [copyAll]⟩
  | cons p ps ih =>
    by_cases hp : p.size > s.len
    · have ht : takes (p :: ps) s.len = false := by simp [takes, hp]
      rw [ht, copied, if_pos hp, copyAll, if_pos hp]
      exact ⟨rfl, Copied.refl s, fun h => absurd h Bool.false_ne_true⟩
    · obtain ⟨h1, h2, h3⟩ := ih (s.copy p)
      have hlen : (s.copy p).len = s.len - p.size := rfl
      have ht : takes (p :: ps) s.len = takes ps (s.len - p.size) := by
        simp [takes]
        omega
      rw [ht, copied, if_neg hp, copyAll, if_neg hp]
      refine ⟨h1, (copied_copy s p).trans h2, fun h => ?_⟩
      rw [h3 h]
      simp [copy, write, range]

end Marshal

theorem isSome_marshalPtr_iff_within {ps : List Piece}
    (h : table.map Marshal.range = ps.map fun p => (p.start, p.start + p.size)) (a : Nat) :
    (marshalPtr table a).isSome ↔ a = 0 ∨ Within ps a := by
  have hr : (∃ r ∈ table.map Marshal.range, r.1 ≤ a ∧ a ≤ r.2) ↔ Within ps a := by
    rw [h]
    simp [Within]
  rw [isSome_marshalPtr, ← hr]
  simp [Marshal.range]

namespace HdrHeap

variable {h : HdrHeap} {len : Int}

theorem takes_blockPieces (h : HdrHeap) (len : Int) :
    takes h.blockPieces len = true ↔ bytes h.blockPieces ≤ len := takes_iff _ _ _

theorem takes_pieces (h : HdrHeap) (len : Int) : takes h.pieces len = true ↔ bytes h.pieces ≤ len := takes_iff _ _ _

theorem bytes_pieces (h : HdrHeap) : bytes h.pieces = bytes h.blockPieces + bytes h.strPieces := by
  simp [pieces, bytes]

/-- Where the written bytes end: the header or the magic number of a failure, or the copies. -/
def writtenTo (h : HdrHeap) (len : Int) : Int :=
  max (if bytes h.blockPieces ≤ len then hdrFilled else magicSize : Nat)
    (if copied h.pieces len = 0 then 0 else hdrHeapHdrSize + copied h.pieces len : Nat)

theorem copied_pieces {p q : Nat} (hle : bytes h.blockPieces ≤ len) (hp : bytes h.blockPieces = p)
    (hq : copied h.strPieces (len - p) = q) : copied h.pieces len = p + q := by
  rw [pieces, copied_append, if_pos ((takes_blockPieces h len).mpr hle), hp, hq]

theorem marshal_spec (h : HdrHeap) (len : Int) : (h.marshal len).written = h.writtenTo len ∧
    (bytes h.pieces ≤ len → h.Translates →
      (h.marshal len).ret = toInt32 (roundPtr (toInt32 (hdrHeapHdrSize + bytes h.pieces)))) ∧
    (¬ (bytes h.pieces ≤ len ∧ h.Translates) → (h.marshal len).ret = -1) := by
  have hpos : 0 < magicSize ∧ magicSize ≤ hdrFilled ∧ hdrFilled ≤ hdrHeapHdrSize := by decide
  obtain ⟨hok, ⟨hb, hl, hw⟩, hxl⟩ := copyAll_spec h.blockPieces { len }
  unfold marshal
  cases hs : copyAll h.blockPieces { len } with
  | mk s ok =>
  rw [hs] at hok hb hl hw hxl
  cases ok with
  | false =>
    have hno : ¬ bytes h.blockPieces ≤ len := by
      rw [← takes_blockPieces, ← hok]
      exact Bool.false_ne_true
    have hcopied : copied h.pieces len = copied h.blockPieces len := by
      rw [pieces, copied_append, ← hok]
      rfl
    refine ⟨?_, fun hle => absurd hle (by rw [bytes_pieces]; omega), fun _ => rfl⟩
    simp only [failed, write, writtenTo, hcopied, if_neg hno] at hw ⊢
    split_ifs at hw ⊢ <;> omega
  | true =>
    have hle : bytes h.blockPieces ≤ len := (takes_blockPieces h len).mp hok.symm
    rw [copied_of_takes hok.symm] at hb hl hw
    simp only at hb hl hw
    obtain ⟨hok', ⟨hb', hl', hw'⟩, hxl'⟩ := copyAll_spec h.strPieces s.fillHeader
    have hlen : s.fillHeader.len = len - bytes h.blockPieces := hl
    rw [hlen] at hok' hb' hl' hw' hxl'
    have hall : takes h.strPieces (len - bytes h.blockPieces) = true ↔ bytes h.pieces ≤ len := by
      rw [← takes_pieces, pieces, takes_append, ← hok, Bool.true_and]
    cases ht : copyAll h.strPieces s.fillHeader with
    | mk t ok' =>
    rw [ht] at hok' hb' hl' hw' hxl'
    simp only [ht]
    -- the header has been filled in, whatever happens to the string heaps
    have hwritten : t.written = max hdrFilled
        (if copied h.pieces len = 0 then 0 else hdrHeapHdrSize + copied h.pieces len) := by
      rw [copied_pieces hle rfl rfl]
      simp only [fillHeader, write, hb, hw] at hw'
      split_ifs at hw' ⊢ <;> omega
    have hto : (t.written : Int) = h.writtenTo len := by rw [hwritten, writtenTo, if_pos hle, Nat.cast_max]
    have hfailed : t.failed.written = h.writtenTo len := by
      rw [← hto]
      simp only [failed, write]
      split_ifs <;> omega
    cases ok' with
    | false =>
      have hno : ¬ bytes h.pieces ≤ len := by
        rw [← hall, ← hok']
        exact Bool.false_ne_true
      exact ⟨hfailed, fun hle => absurd hle hno, fun _ => rfl⟩
    | true =>
      have hfits : bytes h.pieces ≤ len := hall.mp hok'.symm
      have htr : (h.objs.mapM (HdrHeapObjImpl.marshal s.xlation t.xlation)).isSome ↔ h.Translates := by
        have hptrs := isSome_marshalPtr_iff_within (hxl hok.symm)
        have hstrs := isSome_marshalPtr_iff_within (hxl' hok'.symm)
        simp only [isSome_mapM_iff, HdrHeapObjImpl.isSome_marshal, hptrs, hstrs, Translates]
      have htb : (t.b : Int) = hdrHeapHdrSize + bytes h.pieces := by
        rw [copied_of_takes hok'.symm] at hb'
        rw [hb', bytes_pieces, show s.fillHeader.b = s.b from rfl, hb]
        push_cast
        omega
      cases hm : h.objs.mapM (HdrHeapObjImpl.marshal s.xlation t.xlation) with
      | none =>
        rw [hm] at htr
        simp only [hm]
        refine ⟨hfailed, fun _ h' => ?_, fun _ => rfl⟩
        exact absurd (htr.mpr h') (by simp)
      | some os =>
        rw [hm] at htr
        simp only [hm]
        refine ⟨hto, fun _ _ => by rw [← htb], fun h' => absurd ⟨hfits, ?_⟩ h'⟩
        exact htr.mp rfl

theorem size_nonneg (h : HdrHeap) : 0 ≤ h.size := by
  unfold size roundPtr
  omega

theorem ret_of_size_lt (hsize : h.size < 2 ^ 31) :
    toInt32 (roundPtr (toInt32 (hdrHeapHdrSize + bytes h.pieces))) = h.size := by
  unfold size roundPtr hdrHeapHdrSize at *
  unfold toInt32
  omega

theorem ret_neg (hsize : 2 ^ 31 ≤ h.size) (hbytes : (bytes h.pieces : Int) < 2 ^ 31) :
    toInt32 (roundPtr (toInt32 (hdrHeapHdrSize + bytes h.pieces))) < 0 := by
  unfold size roundPtr hdrHeapHdrSize at *
  unfold toInt32
  omega

theorem writtenTo_le_iff : h.writtenTo len ≤ len ↔ magicSize ≤ len ∧ (bytes h.blockPieces ≤ len → hdrFilled ≤ len) ∧
    (0 < copied h.pieces len → hdrHeapHdrSize + copied h.pieces len ≤ len) := by
  have hpos : magicSize ≤ hdrFilled := by decide
  unfold writtenTo
  split_ifs <;> push_cast <;> omega

theorem respects_iff_fits (h : HdrHeap) (len : Int) : h.Respects len ↔ h.Fits len := by
  obtain ⟨hw, hret, hfail⟩ := h.marshal_spec len
  have hused : (0 ≤ (h.marshal len).ret → (h.marshal len).ret ≤ len) ↔
      (bytes h.pieces ≤ len → h.Translates → h.size ≤ len ∨ 2 ^ 31 ≤ h.size) := by
    by_cases hok : bytes h.pieces ≤ len ∧ h.Translates
    · rw [hret hok.1 hok.2]
      have hlt := toInt32_lt (roundPtr (toInt32 (hdrHeapHdrSize + bytes h.pieces)))
      rcases lt_or_ge h.size (2 ^ 31) with hsize | hsize
      · rw [ret_of_size_lt hsize]
        exact ⟨fun hr _ _ => Or.inl (hr h.size_nonneg), fun hu _ => (hu hok.1 hok.2).resolve_right (by omega)⟩
      · refine ⟨fun _ _ _ => Or.inr hsize, fun _ hnn => ?_⟩
        by_contra hlen
        have hneg := ret_neg hsize (by omega)
        omega
    · rw [hfail hok]
      exact ⟨fun _ h1 h2 => absurd ⟨h1, h2⟩ hok, fun _ hnn => absurd hnn (by decide)⟩
  rw [Respects, hused, hw, writtenTo_le_iff]
  exact ⟨fun ⟨hu, hm, hh, hp⟩ => ⟨hm, hh, hp, hu⟩, fun ⟨hm, hh, hp, hu⟩ => ⟨hu, hm, hh, hp⟩⟩

theorem marshalLength_eq (h : HdrHeap) : h.marshalLength =
    toInt32 (roundPtr (toInt32 (hdrHeapHdrSize + bytes h.pieces))) := by
  have hcast : (h.pieces.map fun p => (p.size : Int)).sum = bytes h.pieces := by simp [bytes, Function.comp_def]
  rw [marshalLength, foldl_toInt32_add (by decide), hcast]

theorem marshal_of_size_le (htr : h.Translates) (hsize : h.size < 2 ^ 31) (hlen : h.size ≤ len) :
    (h.marshal len).ret = h.size ∧ (h.marshal len).written ≤ h.size := by
  obtain ⟨hw, hret, -⟩ := h.marshal_spec len
  have hle : (hdrHeapHdrSize + bytes h.pieces : Int) ≤ h.size := by
    unfold size roundPtr
    omega
  have hfits : bytes h.pieces ≤ len := by omega
  have hcopied := copied_of_takes ((takes_pieces h len).mpr hfits)
  refine ⟨by rw [hret hfits htr, ret_of_size_lt hsize], ?_⟩
  have hpos : magicSize ≤ hdrFilled ∧ hdrFilled ≤ hdrHeapHdrSize := by decide
  rw [hw, writtenTo, hcopied]
  split_ifs <;> push_cast <;> omega

theorem succeeds_iff (h : HdrHeap) : h.Succeeds ↔ h.Translates ∧ h.size < 2 ^ 31 := by
  constructor
  · rintro ⟨hnn, -⟩
    obtain ⟨-, hret, hfail⟩ := h.marshal_spec h.marshalLength
    by_cases hok : bytes h.pieces ≤ h.marshalLength ∧ h.Translates
    · refine ⟨hok.2, ?_⟩
      by_contra hsize
      have hlt : h.marshalLength < 2 ^ 31 := by
        rw [marshalLength_eq]
        exact toInt32_lt _
      have hneg := ret_neg (le_of_not_gt hsize) (by omega)
      rw [hret hok.1 hok.2] at hnn
      omega
    · rw [hfail hok] at hnn
      exact absurd hnn (by decide)
  · rintro ⟨htr, hsize⟩
    have hlen : h.marshalLength = h.size := by rw [marshalLength_eq, ret_of_size_lt hsize]
    obtain ⟨hret, -⟩ := marshal_of_size_le htr hsize hlen.ge
    rw [Succeeds, hret, hlen]
    exact ⟨h.size_nonneg, le_rfl⟩

end HdrHeap

/-! ### The alternate -/

namespace HTTPCacheAlt

variable {len : Int}

def size (a : HTTPCacheAlt) : Int := httpAltMarshalSize + (a.hdrs.map (·.size)).sum

theorem foldl_marshalHdr {hs : List HdrHeap} {s : Marshaled} (htr : ∀ h ∈ hs, h.Translates)
    (hret : 0 ≤ s.ret) (hw : s.written ≤ s.ret) (hlen : s.ret + (hs.map (·.size)).sum ≤ len)
    (hlt : len < 2 ^ 31) : (hs.foldl (marshalHdr len) s).ret = s.ret + (hs.map (·.size)).sum ∧
      (hs.foldl (marshalHdr len) s).written ≤ s.ret + (hs.map (·.size)).sum := by
  induction hs generalizing s with
  | nil => simpa using hw
  | cons h hs ih =>
    have hrest : 0 ≤ (hs.map (·.size)).sum := sum_nonneg (by simp [size_nonneg])
    have hsize := h.size_nonneg
    rw [map_cons, sum_cons] at hlen ⊢
    obtain ⟨hr, hwr⟩ := marshal_of_size_le (htr h mem_cons_self)
      (show h.size < 2 ^ 31 by omega) (show h.size ≤ toInt32 (len - s.ret) by rw [toInt32_of_mem] <;> omega)
    have hstep : (marshalHdr len s h).ret = s.ret + h.size := by
      simp only [marshalHdr, hr]
      rw [toInt32_of_mem] <;> omega
    have hwstep : (marshalHdr len s h).written ≤ s.ret + h.size := by
      simp only [marshalHdr]
      omega
    obtain ⟨h1, h2⟩ := @ih (marshalHdr len s h) (fun h' hh' => htr h' (mem_cons_of_mem h hh'))
      (by omega) (by omega) (by omega)
    rw [foldl_cons, ← add_assoc, ← hstep]
    exact ⟨h1, h2⟩

theorem le_written_foldl (hs : List HdrHeap) (s : Marshaled) : s.written ≤ (hs.foldl (marshalHdr len) s).written := by
  induction hs generalizing s with
  | nil => exact le_rfl
  | cons h hs ih => exact le_trans (le_max_left _ _) (ih (marshalHdr len s h))

theorem marshalLength_eq (a : HTTPCacheAlt) (hsize : ∀ h ∈ a.hdrs, h.size < 2 ^ 31) :
    a.marshalLength = toInt32 a.size := by
  have hmap : a.hdrs.map HdrHeap.marshalLength = a.hdrs.map HdrHeap.size :=
    map_congr_left fun h hh => by rw [HdrHeap.marshalLength_eq, HdrHeap.ret_of_size_lt (hsize h hh)]
  rw [marshalLength, foldl_toInt32_add (by decide), hmap, size]

theorem size_lt_of_le_marshalLength {a : HTTPCacheAlt} (hsize : ∀ h ∈ a.hdrs, h.size < 2 ^ 31)
    (hle : httpAltMarshalSize ≤ a.marshalLength) : a.size < 2 ^ 31 := by
  rw [marshalLength_eq a hsize] at hle
  have hround : ∀ h : HdrHeap, h.size < 2 ^ 31 → 0 ≤ h.size ∧ h.size ≤ 2 ^ 31 - 8 := by
    intro h
    unfold HdrHeap.size roundPtr
    omega
  have hbound : 0 ≤ (a.hdrs.map (·.size)).sum ∧ (a.hdrs.map (·.size)).sum ≤ 2 ^ 32 - 16 := by
    obtain ⟨req, resp⟩ := a
    cases req <;> cases resp <;> simp [hdrs] at hsize ⊢ <;> grind
  unfold size httpAltMarshalSize toInt32 at *
  omega

theorem enough_iff (a : HTTPCacheAlt) : a.Enough ↔ (∀ h ∈ a.hdrs, h.Translates) ∧ a.size < 2 ^ 31 := by
  constructor
  · rintro ⟨hall, m, hm, -, hw⟩
    have hok := fun h hh => (succeeds_iff h).mp (hall h hh)
    refine ⟨fun h hh => (hok h hh).1, size_lt_of_le_marshalLength (fun h hh => (hok h hh).2) ?_⟩
    have hle := @le_written_foldl a.marshalLength a.hdrs ⟨httpAltMarshalSize, httpAltMarshalSize⟩
    obtain ⟨-, rfl⟩ := by simpa [marshal] using hm
    exact le_trans hle hw
  · rintro ⟨htr, hsize⟩
    have hsum : ∀ h ∈ a.hdrs, h.size ≤ (a.hdrs.map (·.size)).sum := fun h hh =>
      single_le_sum (by simp [size_nonneg]) _ (mem_map_of_mem hh)
    have hpos : 0 ≤ httpAltMarshalSize := by decide
    have hsizes : ∀ h ∈ a.hdrs, h.size < 2 ^ 31 := fun h hh => by
      have := hsum h hh
      unfold size at hsize
      omega
    have hnn : 0 ≤ a.size := add_nonneg hpos (sum_nonneg (by simp [size_nonneg]))
    have hlen : a.marshalLength = a.size := by rw [marshalLength_eq a hsizes, toInt32_of_mem (by omega) hsize]
    obtain ⟨hret, hw⟩ := @foldl_marshalHdr a.size a.hdrs
      ⟨httpAltMarshalSize, httpAltMarshalSize⟩ htr hpos le_rfl (le_refl a.size) hsize
    refine ⟨fun h hh => (succeeds_iff h).mpr ⟨htr h hh, hsizes h hh⟩, ?_⟩
    rw [hlen]
    exact ⟨_, if_pos hret.le, hret.le, hw⟩

end HTTPCacheAlt

namespace HdrHeap

/-- **Marshalling respects the buffer exactly if it has room for the header and the rounding as well;
the length that is asked for is enough exactly if every pointer points into the heap and the sizes are
`int`s.** -/
theorem respects_iff (h : HdrHeap) (len : Int) (a : HTTPCacheAlt) :
    (h.Respects len ↔ h.Fits len) ∧ (h.Succeeds ↔ h.Translates ∧ h.size < 2 ^ 31) ∧
      (a.Enough ↔ (∀ h ∈ a.hdrs, h.Translates) ∧ a.size < 2 ^ 31) :=
  ⟨h.respects_iff_fits len, h.succeeds_iff, a.enough_iff⟩

def small : HdrHeap where
  first := ⟨4096, [⟨.raw, 8, by decide⟩], by decide⟩

/-- A buffer of 8 bytes is taken to be enough for the heap of 144 bytes. -/
theorem small_not_respects : small.marshal 8 = ⟨144, 144⟩ ∧ ¬ small.Respects 8 := by
  have h : small.marshal 8 = ⟨144, 144⟩ := by decide
  exact ⟨h, by simp [Respects, h]⟩

end HdrHeap

end TrafficServer
