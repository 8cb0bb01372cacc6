import TrafficServer.Hdrs.MIMECooked
import TrafficServer.Lib.Linked

/-!
# MIME headers

A header has its fields in the slots of a list of blocks. New fields go into the next slot of the
last block, so that the slots in use are one list; a field is given by the number of its slot, and
by an address where the code computes with addresses. The fields of one name are chained by
`m_next_dup`. Names are found with the presence bits, the slot accelerators, or a search.

The functions are partial: `none` stands for a loop that does not end, for an assertion that fails,
or for a pointer that leads out of the header.
-/

namespace TrafficServer

open HdrToken

inductive MIMEFieldReadiness where
  | detached
  | live
  | deleted
deriving DecidableEq

/-- A field; `m_wks_idx` is `none` for `-1`. -/
structure MIMEField where
  name : Bytes := []
  wksIdx : Option Nat := none
  value : Option Bytes := none
  nextDup : Option Nat := none
  readiness : MIMEFieldReadiness := .detached
  dupHead : Bool := false
  cooked : Bool := false
deriving DecidableEq

/-- A header: the slots in use, and the addresses of the blocks that they are in. -/
structure MIMEHdr where
  slots : List MIMEField
  blocks : List Nat
  presenceBits : BitVec 64
  slotAccelerators : Fin 4 → BitVec 32
  cookedStuff : MIMECooked

/-- A name, as a pointer to a well-known string or to any other one. -/
inductive HdrName where
  | wks (i : Nat)
  | str (s : Bytes)
deriving DecidableEq

namespace HdrName

def bytes : HdrName → Bytes
  | wks i => hdrtokenIndexToWks i
  | str s => s

def tokenize : HdrName → Option Nat
  | wks i => some i
  | str s => hdrtokenTokenize s

end HdrName

namespace MIMEHdr

def fieldBlockSlots : Nat := 16

def fieldSlotnumMax : Nat := 14

def fieldSlotnumUnknown : Nat := fieldSlotnumMax

def create (addr : Nat) : MIMEHdr where
  slots := []
  blocks := [addr]
  presenceBits := 0
  slotAccelerators := fun _ => 0xFFFFFFFF
  cookedStuff := {}

variable (h : MIMEHdr)

def slot (n : Nat) : MIMEField := h.slots.getD n {}

def modify (n : Nat) (f : MIMEField → MIMEField) : MIMEHdr :=
  { h with slots := h.slots.modify n f }

/-! ### Addresses -/

/-- The offset of `m_field_slots` in a block, and the sizes of a field and of a block. -/
def slotsOffset : Nat := 24

def sizeofField : Nat := 32

def sizeofBlock : Nat := slotsOffset + sizeofField * fieldBlockSlots

def fieldAddr (blocks : List Nat) (n : Nat) : Nat :=
  blocks.getD (n / fieldBlockSlots) 0 + slotsOffset + sizeofField * (n % fieldBlockSlots)

/-- The difference of a field and the first one of a block, in units of fields, as an `int`. -/
def blockSlot (addr block : Nat) : Int :=
  CInt.toInt32 (((addr : Int) - (block + slotsOffset : Nat)) / sizeofField)

def slotnumLoop (addr : Nat) : List Nat → Int → Int
  | [], _ => -1
  | b :: blocks, slotsSoFar =>
    if 0 ≤ blockSlot addr b ∧ blockSlot addr b < fieldBlockSlots then slotsSoFar + blockSlot addr b
    else slotnumLoop addr blocks (slotsSoFar + fieldBlockSlots)

def fieldSlotnum (n : Nat) : Int := slotnumLoop (fieldAddr h.blocks n) h.blocks 0

/-! ### Presence bits and slot accelerators -/

def getAcceleratorSlotnum (slotId : Nat) : Nat :=
  (h.slotAccelerators (Fin.ofNat 4 (slotId / 8)) >>> (slotId % 8 * 4) &&& 15#32).toNat

def setAcceleratorSlotnum (slotId slotNum : Nat) : MIMEHdr :=
  let i := Fin.ofNat 4 (slotId / 8)
  let shift := slotId % 8 * 4
  let word := h.slotAccelerators i &&& ~~~(15#32 <<< shift) ||| BitVec.ofNat 32 slotNum <<< shift
  { h with slotAccelerators := Function.update h.slotAccelerators i word }

/-- The slot number that the accelerator of the field in the slot gets. -/
def acceleratorOf (n : Nat) : Nat :=
  let slotNum := blockSlot (fieldAddr h.blocks n) (h.blocks.getD 0 0)
  if 0 ≤ slotNum ∧ slotNum < fieldSlotnumUnknown then slotNum.toNat else fieldSlotnumUnknown

def setAccelerators (n : Nat) : MIMEHdr :=
  match (h.slot n).wksIdx with
  | none => h
  | some i =>
    let h' := { h with presenceBits := h.presenceBits ||| hdrtokenIndexToMask i }
    match hdrtokenIndexToSlotid i with
    | none => h'
    | some s => h'.setAcceleratorSlotnum s (h.acceleratorOf n)

def unsetAccelerators (n : Nat) : MIMEHdr :=
  match (h.slot n).wksIdx with
  | none => h
  | some i =>
    let h' := { h with presenceBits := h.presenceBits &&& ~~~hdrtokenIndexToMask i }
    match hdrtokenIndexToSlotid i with
    | none => h'
    | some s => h'.setAcceleratorSlotnum s fieldSlotnumMax

/-! ### Searches -/

/-- `strncasecmp` of two strings of the same length: it stops at a null byte of both. -/
def strncasecmpEq : Bytes → Bytes → Bool
  | a :: s, b :: t => inkTolower a = inkTolower b && (a = 0 || strncasecmpEq s t)
  | _, _ => true

def isLive (f : MIMEField) : Bool := f.readiness = .live

def listSearchByWks (i : Nat) : Option Nat :=
  h.slots.findIdx? fun f => isLive f && f.wksIdx = some i

def listSearchByString (s : Bytes) : Option Nat :=
  h.slots.findIdx? fun f => isLive f && (s.length = f.name.length && strncasecmpEq f.name s)

def listSearchBySlotnum (k : Nat) : Option Nat := if k < h.slots.length then some k else none

def find : HdrName → Option Nat
  | .wks i =>
    if hdrtokenIndexToMask i ≠ 0 ∧ h.presenceBits &&& hdrtokenIndexToMask i = 0 then none
    else
      match hdrtokenIndexToSlotid i with
      | none => h.listSearchByWks i
      | some s =>
        if h.getAcceleratorSlotnum s ≠ fieldSlotnumUnknown then
          h.listSearchBySlotnum (h.getAcceleratorSlotnum s)
        else h.listSearchByWks i
  | .str s => h.listSearchByString s

def nameGet (f : MIMEField) : HdrName :=
  match f.wksIdx with
  | some i => .wks i
  | none => .str f.name

/-! ### Cooking -/

def next (n : Nat) : Option Nat := (h.slot n).nextDup

def chainValues (name : HdrName) : Option (List (Option Bytes)) :=
  (Linked.follow h.next h.slots.length (h.find name)).map fun l => l.map fun n => (h.slot n).value

def wksidxCacheControl : Nat := 10

def wksidxPragma : Nat := 47

example : hdrtokenIndexToWks wksidxCacheControl = strBytes "Cache-Control" := by decide +kernel

example : hdrtokenIndexToWks wksidxPragma = strBytes "Pragma" := by decide +kernel

def cookCacheControl : Option MIMECookedCacheControl :=
  match h.find (.wks wksidxCacheControl) with
  | none => some {}
  | some _ => (h.chainValues (.wks wksidxCacheControl)).bind MIMECooked.cookCacheControl

def cookPragma : Option Bool :=
  match h.find (.wks wksidxPragma) with
  | none => some false
  | some _ => (h.chainValues (.wks wksidxPragma)).bind MIMECooked.cookPragma

/-- `recompute_cooked_stuff`, with the well-known index of the changing field; `none` is the null
pointer. -/
def recomputeCookedStuff (changing : Option (Option Nat)) : Option MIMEHdr := do
  let cc ← if changing ≠ some (some wksidxPragma) then h.cookCacheControl
    else some h.cookedStuff.cacheControl
  let p ← if changing ≠ some (some wksidxCacheControl) then h.cookPragma else some h.cookedStuff.pragmaNoCache
  some { h with cookedStuff := ⟨cc, p⟩ }

/-- The call at the end of a change to the field in a slot. -/
def recook (n : Nat) (cond : Bool) : Option MIMEHdr :=
  if cond ∧ (h.slot n).cooked then h.recomputeCookedStuff (some (h.slot n).wksIdx) else some h

/-! ### Fields -/

/-- `mime_field_create`, with the address of a new block. The new field is in the last slot. -/
def fieldCreate (addr : Nat) : MIMEHdr :=
  { h with
    slots := h.slots ++ [{}]
    blocks := if fieldBlockSlots * h.blocks.length ≤ h.slots.length then h.blocks ++ [addr]
      else h.blocks }

/-- `mime_field_name_set`: the length of a name has 16 bits. -/
def fieldNameSet (n : Nat) (wksIdx : Option Nat) (name : Bytes) : MIMEHdr :=
  h.modify n fun f =>
    { f with
      wksIdx := wksIdx
      name := name.take (name.length % 2 ^ 16)
      cooked := f.cooked || decide (wksIdx = some wksidxCacheControl ∨ wksIdx = some wksidxPragma) }

def nameSet (n : Nat) (name : HdrName) : MIMEHdr :=
  match name with
  | .wks i => h.fieldNameSet n (some i) (hdrtokenIndexToWks i)
  | .str s =>
    match hdrtokenTokenize s with
    | some i => h.fieldNameSet n (some i) (hdrtokenIndexToWks i)
    | none => h.fieldNameSet n none s

/-- The loop of `mime_hdr_field_attach` along the duplicates: `prev_dup`, `prev_slotnum` and
`next_dup` when it ends. The number of the next slot is computed once, before the loop. -/
def attachLoop (fieldSlotnum nextSlotnum : Int) :
    Nat → Nat → Int → Option Nat → Option (Nat × Int × Option Nat)
  | 0, _, _, _ => none
  | fuel + 1, prevDup, prevSlotnum, nextDup =>
    if prevSlotnum < fieldSlotnum then
      match nextDup with
      | none => some (prevDup, prevSlotnum, nextDup)
      | some m =>
        if nextSlotnum > fieldSlotnum then some (prevDup, prevSlotnum, nextDup)
        else attachLoop fieldSlotnum nextSlotnum fuel m nextSlotnum (h.next m)
    else some (prevDup, prevSlotnum, nextDup)

/-- The part of `mime_hdr_field_attach` that links in the field, which is live by now. -/
def attachLink (n : Nat) : Option Nat → Option MIMEHdr
  | none => some ((h.modify n fun f => { f with dupHead := true }).setAccelerators n)
  | some p => do
    let nextSlotnum := ((h.next p).map h.fieldSlotnum).getD (-1)
    let (prevDup, prevSlotnum, nextDup) ←
      h.attachLoop (h.fieldSlotnum n) nextSlotnum (h.slots.length + 1) p (h.fieldSlotnum p) (h.next p)
    if prevSlotnum > h.fieldSlotnum n then
      some (((h.modify n fun f => { f with dupHead := true, nextDup := some prevDup }).modify
        prevDup fun f => { f with dupHead := false }).setAccelerators n)
    else
      some ((h.modify prevDup fun f => { f with nextDup := some n }).modify n fun f =>
        { f with dupHead := false, nextDup := nextDup })

def attach (n : Nat) (checkForDups : Bool) (prevDup : Option Nat) : Option MIMEHdr :=
  if (h.slot n).readiness ≠ .detached then some h
  else do
    let search := checkForDups || prevDup.any fun p => !(h.slot p).dupHead
    let prevDup := if search then h.find (nameGet (h.slot n)) else prevDup
    let h' ← (h.modify n fun f => { f with readiness := .live }).attachLink n prevDup
    h'.recook n ((h'.slot n).value.isSome)

/-- The loop of `mime_hdr_field_detach` to the duplicate before the field. -/
def detachLoop (n : Nat) : Nat → Option Nat → Option Nat
  | _, none => none
  | 0, some _ => none
  | fuel + 1, some prev => if h.next prev = some n then some prev else detachLoop n fuel (h.next prev)

def detachLink (n : Nat) : Option MIMEHdr :=
  if (h.slot n).dupHead then
    match h.next n with
    | none => some (h.unsetAccelerators n)
    | some m => some ((h.modify m fun f => { f with dupHead := true }).setAccelerators m)
  else do
    let prev ← h.detachLoop n h.slots.length (h.find (nameGet (h.slot n)))
    some (h.modify prev fun f => { f with nextDup := h.next n })

def detachOne (n : Nat) : Option MIMEHdr := do
  let h' ← h.detachLink n
  (h'.modify n fun f => { f with readiness := .detached, nextDup := none }).recook n true

def detach : Nat → MIMEHdr → Nat → Bool → Option MIMEHdr
  | 0, _, _, _ => none
  | fuel + 1, h, n, detachAllDups => do
    let h' ← h.detachOne n
    match h.next n with
    | some m => if detachAllDups then detach fuel h' m detachAllDups else some h'
    | none => some h'

def fieldDestroy (n : Nat) : MIMEHdr := h.modify n fun f => { f with readiness := .deleted }

def deleteLoop : Nat → MIMEHdr → Option Nat → Option MIMEHdr
  | _, h, none => some h
  | 0, _, some _ => none
  | fuel + 1, h, some n => do
    let h' ← h.detachOne n
    deleteLoop fuel (h'.fieldDestroy n) (h.next n)

def delete (n : Nat) (deleteAllDups : Bool) : Option MIMEHdr :=
  if deleteAllDups then deleteLoop h.slots.length h (some n)
  else (h.detachOne n).map (·.fieldDestroy n)

/-- A new field of the name, attached without a search for duplicates. -/
def addField (wksIdx : Option Nat) (name : Bytes) (addr : Nat) : Option MIMEHdr :=
  ((h.fieldCreate addr).fieldNameSet h.slots.length wksIdx name).attach h.slots.length false none

def prepareForValueSet (name : HdrName) (addr : Nat) : Option MIMEHdr :=
  match h.find name with
  | none => h.addField name.tokenize name.bytes addr
  | some n =>
    if h.next n = none then some h
    else do
      let h' ← h.delete n true
      h'.addField (h.slot n).wksIdx name.bytes addr

/-! ### Copies -/

/-- A pointer to a slot of a copy: the block of the old pointer, moved by the distance of the blocks
as an `int`. -/
def xlate (old new : List Nat) (addr : Nat) : Option Int :=
  ((old.zip new).find? fun b => b.1 ≤ addr ∧ addr < b.1 + sizeofBlock).map fun b =>
    addr + CInt.toInt32 ((b.2 : Int) - b.1)

def slotAt (blocks : List Nat) (slots : Nat) (addr : Int) : Option Nat :=
  (List.range slots).find? fun n => (fieldAddr blocks n : Int) = addr

/-- The field of a copy: the pointer of a live field is translated, that of another one must be
null. -/
def copyField (old new : List Nat) (slots : Nat) (f : MIMEField) : Option MIMEField :=
  match f.nextDup with
  | none => some f
  | some m =>
    if f.readiness = .live then do
      let addr ← xlate old new (fieldAddr old m)
      let n ← slotAt new slots addr
      some { f with nextDup := some n }
    else none

/-- `mime_hdr_copy_onto` a header whose blocks have the given addresses. -/
def copyOnto (blocks : List Nat) : Option MIMEHdr := do
  let slots ← h.slots.mapM (copyField h.blocks blocks h.slots.length)
  some { h with slots := slots, blocks := blocks }

end MIMEHdr

end TrafficServer
