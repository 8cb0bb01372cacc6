import TrafficServer.Hdrs.MIMEHdrOps
import Mathlib.Logic.Relation

/-!
# Runs of header operations

In every header that operations with their conditions lead to, the links, the presence bits and the
searches agree with the list of the live fields.
-/

namespace TrafficServer

open List Relation Option

/-! ### Operations -/

/-- The operations on a header. New blocks get the given addresses. -/
inductive MIMEOp where
  | fieldCreate (addr : Nat)
  | nameSet (n : Nat) (name : HdrName)
  | attach (n : Nat)
  | detach (n : Nat) (detachAllDups : Bool)
  | delete (n : Nat) (deleteAllDups : Bool)
  | prepareForValueSet (name : HdrName) (addr : Nat)
  | copyOnto (blocks : List Nat)
  | valueSet (n : Nat) (value : Option Bytes)
  | valueAppend (n : Nat) (value : Bytes) (prependComma : Bool) (separator : UInt8)
  | nameValueSet (n : Nat) (wksIdx : Option Nat) (name : Bytes) (value : Option Bytes)
      (mustCopyStrings : Bool)
  | setCommaVal (n : Nat) (idx : Int) (piece : Bytes)
  | deleteCommaVal (n : Nat) (idx : Int)
  | insertCommaVal (n : Nat) (idx : Int) (piece : Bytes)
  | extendCommaVal (n : Nat) (idx : Int) (piece : Bytes)

namespace MIMEOp

open MIMEHdr HdrToken

def apply : MIMEOp → MIMEHdr → Option MIMEHdr
  | fieldCreate addr, h => some (h.fieldCreate addr)
  | nameSet n name, h => some (h.nameSet n name)
  | attach n, h => h.attach n true none
  | detach n all, h => MIMEHdr.detach h.slots.length h n all
  | delete n all, h => h.delete n all
  | prepareForValueSet name addr, h => h.prepareForValueSet name addr
  | copyOnto blocks, h => h.copyOnto blocks
  | valueSet n value, h => h.fieldValueSet n value
  | valueAppend n value prependComma separator, h => h.fieldValueAppend n value prependComma separator
  | nameValueSet n wksIdx name value copy, h => h.fieldNameValueSet n wksIdx name value copy
  | setCommaVal n idx piece, h => h.setCommaVal n idx piece
  | deleteCommaVal n idx, h => h.deleteCommaVal n idx
  | insertCommaVal n idx piece, h => h.insertCommaVal n idx piece
  | extendCommaVal n idx piece, h => h.extendCommaVal n idx piece

/-- The conditions of an operation. Names are set while the field is detached, and have neither null
bytes nor more than 65535 bytes; what is detached or deleted is live; what is attached is
`Attachable`; blocks are `Apart`, and those of a copy `Near`. -/
def Fits (h : MIMEHdr) : MIMEOp → Prop
  | fieldCreate addr => Apart (h.fieldCreate addr).blocks
  | nameSet n name => (h.slot n).readiness = .detached ∧ GoodName name
  | attach n => n < h.slots.length ∧ Attachable h n
  | detach n _ | delete n _ => isLive (h.slot n)
  | prepareForValueSet name addr => GoodName name ∧ Apart (h.fieldCreate addr).blocks
  | copyOnto blocks => blocks.length = h.blocks.length ∧ Apart blocks ∧ Near h.blocks blocks
  | nameValueSet n wksIdx name _ _ => (h.slot n).readiness = .detached ∧
      wksIdx = hdrtokenTokenize name ∧ GoodName (.str name)
  | _ => True

instance (h : MIMEHdr) : (op : MIMEOp) → Decidable (op.Fits h)
  | fieldCreate _ => inferInstanceAs (Decidable (Apart _))
  | nameSet .. | attach _ | prepareForValueSet .. | copyOnto _ | nameValueSet .. => inferInstanceAs (Decidable (_ ∧ _))
  | detach .. | delete .. => inferInstanceAs (Decidable (_ = true))
  | valueSet .. | valueAppend .. | setCommaVal .. | deleteCommaVal .. | insertCommaVal .. | extendCommaVal .. =>
    .isTrue trivial

/-- A field without a value is attached to a cooked name only if it is the first one. -/
def Shown (h : MIMEHdr) : MIMEOp → Prop
  | attach n => MIMEHdr.Shown h n
  | _ => True

instance (h : MIMEHdr) (op : MIMEOp) : Decidable (op.Shown h) := by
  cases op
  case attach n => exact inferInstanceAs (Decidable (MIMEHdr.Shown h n))
  all_goals exact .isTrue trivial

theorem apply_spec {h : MIMEHdr} (hi : Inv h) {op : MIMEOp} (hfits : op.Fits h) :
    ∃ g, op.apply h = some g ∧ Inv g ∧ (op.Shown h → Fresh h → Fresh g) := by
  have hdead {n : Nat} (hd : (h.slot n).readiness = .detached) : isLive (h.slot n) = false := by simp [isLive, hd]
  cases op with
  | fieldCreate addr =>
    obtain ⟨hi', -, -, hf⟩ := hi.fieldCreate hfits
    exact ⟨_, rfl, hi', fun _ => hf⟩
  | nameSet n name =>
    obtain ⟨hi', hf⟩ := hi.nameSet (hdead hfits.1) hfits.2
    exact ⟨_, rfl, hi', fun _ => hf⟩
  | attach n =>
    obtain ⟨g, hg, hi', -, hf⟩ := hi.attach hfits.1 hfits.2 (c := true) (.inl rfl)
    exact ⟨g, hg, hi', hf⟩
  | detach n all =>
    obtain ⟨g, hg, hi', -, hf⟩ := hi.detach all hfits (liveOf_length_le _)
    exact ⟨g, hg, hi', fun _ => hf⟩
  | delete n all =>
    obtain ⟨g, hg, hi', -, hf, -⟩ := hi.delete hfits all
    exact ⟨g, hg, hi', fun _ => hf⟩
  | prepareForValueSet name addr =>
    obtain ⟨g, hg, hi', hf⟩ := hi.prepareForValueSet hfits.1 hfits.2
    exact ⟨g, hg, hi', fun _ => hf⟩
  | copyOnto blocks =>
    obtain ⟨hlen, hap, hnear⟩ := hfits
    refine ⟨_, hi.copyOnto hlen hap hnear, ?_, fun _ hf => hf.of_valuesOf rfl fun _ => rfl⟩
    exact (hi.of_slots (g := { h with blocks := blocks }) rfl hap (by rw [hlen]; exact hi.room) rfl rfl
      fun _ => rfl).1
  | valueSet n value =>
    obtain ⟨g, hg, hi', hf⟩ := hi.storeValue n value
    exact ⟨g, hg, hi', fun _ => hf⟩
  | valueAppend n value prependComma separator =>
    obtain ⟨g, hg, hi', hf⟩ := hi.storeValue n _
    exact ⟨g, hg, hi', fun _ => hf⟩
  | nameValueSet n wksIdx name value copy =>
    obtain ⟨hd, rfl, hname⟩ := hfits
    obtain ⟨g, hg, hi', hf⟩ := hi.fieldNameValueSet (hdead hd) hname.1 hname.2 value copy
    exact ⟨g, hg, hi', fun _ => hf⟩
  | setCommaVal n idx piece =>
    obtain ⟨g, hg, hi', hf⟩ := hi.editCommaVals n _
    exact ⟨g, hg, hi', fun _ => hf⟩
  | deleteCommaVal n idx =>
    obtain ⟨g, hg, hi', hf⟩ := hi.editCommaVals n _
    exact ⟨g, hg, hi', fun _ => hf⟩
  | insertCommaVal n idx piece =>
    obtain ⟨g, hg, hi', hf⟩ := hi.editCommaVals n _
    exact ⟨g, hg, hi', fun _ => hf⟩
  | extendCommaVal n idx piece =>
    obtain ⟨g, hg, hi', hf⟩ := hi.editCommaVals n _
    exact ⟨g, hg, hi', fun _ => hf⟩

def Step (h g : MIMEHdr) : Prop := ∃ op : MIMEOp, op.Fits h ∧ op.apply h = some g

/-- A step of a run in which cooked values stay fresh. -/
def ShownStep (h g : MIMEHdr) : Prop := ∃ op : MIMEOp, op.Fits h ∧ op.Shown h ∧ op.apply h = some g

def run (ops : List MIMEOp) (h : MIMEHdr) : Option MIMEHdr :=
  ops.foldlM (fun h op => if op.Fits h ∧ op.Shown h then op.apply h else none) h

/-- The operations that give a new header its fields, one for each slot. -/
def fields (fs : List (String × String)) : List MIMEOp :=
  fs.zipIdx.flatMap fun f => [.fieldCreate 4096, .nameValueSet f.2 (hdrtokenTokenize (strBytes f.1.1))
    (strBytes f.1.1) (some (strBytes f.1.2)) true, .attach f.2]

variable {h g : MIMEHdr} {ops : List MIMEOp}

theorem shown_of_run (hrun : run ops h = some g) : ReflTransGen ShownStep h g := by
  induction ops generalizing h with
  | nil =>
    cases hrun
    exact .refl
  | cons op ops ih =>
    obtain ⟨k, hk, hrun⟩ := bind_eq_some_iff.1 hrun
    dsimp only at hk
    split at hk
    · next hfits => exact .head ⟨op, hfits.1, hfits.2, hk⟩ (ih hrun)
    · cases hk

theorem steps_of_run (hrun : run ops h = some g) : ReflTransGen Step h g := by
  refine ReflTransGen.mono ?_ _ _ (shown_of_run hrun)
  rintro h g ⟨op, hfits, -, hop⟩
  exact ⟨op, hfits, hop⟩

end MIMEOp

/-! ### Headers that are reached -/

namespace MIMEHdr

open HdrToken Linked

def liveMask (h : MIMEHdr) : BitVec 64 :=
  ((h.slots.filter isLive).filterMap (·.wksIdx)).foldr (fun i m => hdrtokenIndexToMask i ||| m) 0

/-- The structure of a header: of the live fields of a name the first is the only one with the flag,
and its chain is all of them in slot order; the presence bits are those of the live fields, and a
search finds the first one of the name. -/
structure WellLinked (h : MIMEHdr) : Prop where
  heads : ∀ nm, ∀ n ∈ h.liveOf nm, ((h.slot n).dupHead = true ↔ (h.liveOf nm).head? = some n)
  chain : ∀ nm n, (h.liveOf nm).head? = some n →
    follow h.next h.slots.length (some n) = some (h.liveOf nm)
  presence : h.presenceBits = h.liveMask
  find : ∀ name : HdrName, (∀ i, name = .wks i → i < hdrtokenNumWks) →
    h.find name = (h.liveOf (lower name.bytes)).head?

section Reached
variable {h g : MIMEHdr}

theorem getLsbD_foldr_mask (l : List Nat) (b : Nat) :
    (l.foldr (fun i m => hdrtokenIndexToMask i ||| m) 0).getLsbD b = true ↔ ∃ i ∈ l, maskBit i = some b := by
  induction l with
  | nil => simp
  | cons i l ih =>
    rw [foldr_cons, BitVec.getLsbD_or, Bool.or_eq_true, getLsbD_mask, ih]
    simp

theorem Inv.presence_eq (hi : Inv h) : h.presenceBits = h.liveMask := by
  refine BitVec.eq_of_getLsbD_eq fun b _ => ?_
  rw [Bool.eq_iff_iff, hi.index.presence, liveMask, getLsbD_foldr_mask]
  constructor
  · rintro ⟨i, hw, hb, hs⟩
    obtain ⟨n, hn⟩ := isSome_iff_exists.mp hs
    have hmem := (h.mem_liveOf_iff _).mp (mem_of_mem_head? hn)
    refine ⟨i, mem_filterMap.mpr ⟨h.slot n, ?_, (hi.wksIdx_iff hw).mpr hmem.2⟩, hb⟩
    exact mem_filter.mpr ⟨h.slot_mem (h.lt_of_isLive hmem.1), hmem.1⟩
  · rintro ⟨i, hi', hb⟩
    obtain ⟨f, hf, hw⟩ := mem_filterMap.mp hi'
    obtain ⟨hf, hl⟩ := mem_filter.mp hf
    obtain ⟨n, hn, rfl⟩ := getElem_of_mem hf
    have hslot : h.slot n = h.slots[n] := getD_eq_getElem _ _ hn
    rw [← hslot] at hw hl
    have hlt := hi.wksIdx_lt hw
    refine ⟨i, hlt, hb, ?_⟩
    have hmem : n ∈ h.liveOf (lower (hdrtokenIndexToWks i)) :=
      (h.mem_liveOf_iff _).mpr ⟨hl, (hi.wksIdx_iff hlt).mp hw⟩
    exact isSome_head?.mpr (ne_nil_of_mem hmem)

theorem Inv.wellLinked (hi : Inv h) : WellLinked h where
  heads := hi.heads
  chain nm n hn := by
    rw [← hn]
    exact (hi.chain nm).follow (liveOf_length_le nm)
  presence := hi.presence_eq
  find _ hw := hi.find_eq hw

theorem inv_create (addr : Nat) : Inv (create addr) where
  apart := by simp [create, Apart]
  room := by simp [create]
  wksIdx n := by
    rw [slot_of_ge _ (by simp [create])]
    decide +kernel
  name n := by
    rw [slot_of_ge _ (by simp [create])]
    simp
  cooked n := by
    rw [slot_of_ge _ (by simp [create])]
    simp
  alone n _ := by rw [next, slot_of_ge _ (by simp [create])]
  chain nm := rfl
  heads nm n hn := by simp [liveOf, create] at hn
  index := by
    refine ⟨fun b => ?_, fun i _ s _ n hn => ?_⟩
    · simp [create, firstOf, liveOf]
    · simp [create, firstOf, liveOf] at hn

theorem fresh_create (addr : Nat) : Fresh (create addr) := by
  have h1 : MIMECooked.cookCacheControl [] = some {} := rfl
  have h2 : MIMECooked.cookPragma [] = some false := rfl
  exact ⟨h1, h2⟩

theorem Inv.run (hrun : ReflTransGen MIMEOp.Step g h) (hi : Inv g) : Inv h := by
  induction hrun with
  | refl => exact hi
  | tail _ hstep ih =>
    obtain ⟨op, hfits, hop⟩ := hstep
    obtain ⟨g', hg', hi', -⟩ := MIMEOp.apply_spec ih hfits
    rw [hop] at hg'
    cases hg'
    exact hi'

/-- **In every header that operations with their conditions lead to**, the links, the presence bits
and the searches are those of the live fields, and every operation with its conditions returns. -/
theorem header_links_of_run {addr : Nat} (hrun : ReflTransGen MIMEOp.Step (create addr) h) :
    WellLinked h ∧ ∀ op : MIMEOp, op.Fits h → ∃ g, op.apply h = some g := by
  have hi : Inv h := Inv.run hrun (inv_create addr)
  refine ⟨hi.wellLinked, fun op hfits => ?_⟩
  obtain ⟨g, hg, -⟩ := MIMEOp.apply_spec hi hfits
  exact ⟨g, hg⟩

/-- Three fields of one name and one of another; the second of the three is detached. -/
def dupHeader : Option MIMEHdr :=
  MIMEOp.run (MIMEOp.fields [("x", "1"), ("y", "2"), ("x", "3"), ("x", "4")] ++ [.detach 2 false]) (create 0)

theorem header_links_of_dups : ∃ g, dupHeader = some g ∧
    (g.liveOf (strBytes "x"), g.liveOf (strBytes "y")) = ([0, 3], [1]) ∧ WellLinked g := by
  have hrun : dupHeader.map (fun g => (g.liveOf (strBytes "x"), g.liveOf (strBytes "y"))) =
      some ([0, 3], [1]) := by
    decide +kernel
  obtain ⟨g, hg, hlive⟩ := map_eq_some_iff.1 hrun
  exact ⟨g, hg, hlive, (header_links_of_run (MIMEOp.steps_of_run hg)).1⟩

/-- Of five fields of one name, the ones in slots 0, 2 and 4 are attached first. The one in slot 3 is
then linked behind that of slot 4: the walk along the chain compares it with slot 2 each time. -/
theorem attach_between_out_of_order : ((List.replicate 5 (MIMEOp.fieldCreate 4096) ++
        (List.range 5).map (MIMEOp.nameSet · (.str (strBytes "x"))) ++
        [0, 2, 4, 3].map MIMEOp.attach).foldlM (fun h op => MIMEOp.apply op h) (create 0)).map
      (fun h => (h.liveOf (strBytes "x"), follow h.next h.slots.length (some 0))) =
    some ([0, 2, 3, 4], some [0, 2, 4, 3]) := by
  decide +kernel

end Reached

end MIMEHdr

end TrafficServer
