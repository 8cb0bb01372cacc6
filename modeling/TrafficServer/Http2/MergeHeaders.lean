import TrafficServer.Hdrs.MIMEHdrFields
import TrafficServer.Hdrs.MIMEHdrRun

/-!
# Merging a response into the cached header

`merge_response_header_with_cached_header` replaces the fields of the cached header by those of the
response, one after the other. From the first field on that has a duplicate behind it, it first deletes
the names of all fields that are left in the response, and then adds them one by one.

The names that the loop skips are deleted, too, if they stand behind such a field. So the cached header
keeps them exactly if it has no field of a spared name that stands there.
-/

namespace TrafficServer

namespace HttpTransact

open Option List HdrToken MIMEHdr

/-! ### The functions -/

/-- The well-known strings with `HTIF_HOPBYHOP`. -/
def hopByHopStrs : List String :=
  ["Connection", "Keep-Alive", "Proxy-Authenticate", "Proxy-Authorization", "Proxy-Connection", "TE",
    "Upgrade", "X-ID"]

def isField (name : HdrName) (s : String) : Bool :=
  match name with
  | .wks i => MIMECooked.isWksOf i s
  | .str _ => false

def isThisAHopByHopHeader (name : HdrName) : Bool :=
  hopByHopStrs.any (isField name) && !isField name "Keep-Alive"

def skips (name : HdrName) : Bool :=
  isThisAHopByHopHeader name || isField name "Content-Length" || isField name "Set-Cookie" ||
    isField name "Content-Type" || isField name "Warning"

def liveSlots (h : MIMEHdr) : List Nat :=
  (List.range h.slots.length).filter fun n => isLive (h.slot n)

def deleteNames : List HdrName → MIMEHdr → Option MIMEHdr
  | [], c => some c
  | name :: names, c => do
    let c ← c.fieldDelete name
    deleteNames names c

def nameAt (r : MIMEHdr) (n : Nat) : HdrName := nameGet (r.slot n)

def mergeLoop (r : MIMEHdr) (addr : Nat → Nat) : Bool → List Nat → MIMEHdr → Option MIMEHdr
  | _, [], c => some c
  | dupsSeen, n :: rest, c =>
    if skips (nameAt r n) then mergeLoop r addr dupsSeen rest c
    else do
      let fresh := (r.next n).isSome && !dupsSeen
      let c ← if fresh then deleteNames ((n :: rest).map (nameAt r)) c else some c
      let c ← if dupsSeen || fresh then c.fieldAdd (nameAt r n) (r.slot n).value (addr c.blocks.length)
        else c.valueSet (nameAt r n) (r.slot n).value (addr c.blocks.length)
      mergeLoop r addr (dupsSeen || fresh) rest c

/-- The digits of `ink_atoi`; the number is computed as a negative one. -/
def atoiDigits (s : Bytes) : Int :=
  (s.takeWhile MIMECooked.isDigit).foldl (fun n c => CInt.toInt32 (n * 10 - (c.toNat - 48 : Nat))) 0

def inkAtoi (s : Bytes) : Int :=
  match s.dropWhile ParseRules.isWslfcr with
  | 48 :: 120 :: r =>
    (r.takeWhile ParseRules.isHex).foldl (fun n c => CInt.toInt32 (n * 16 +
      (if MIMECooked.isDigit c then c.toNat - 48 else (inkTolower c).toNat - 97 + 10 : Nat))) 0
  | 45 :: r => atoiDigits r
  | r => CInt.toInt32 (-atoiDigits r)

def wksidxWarning : Nat := 68

example : hdrtokenIndexToWks wksidxWarning = strBytes "Warning" := by decide +kernel

/-- The loop over the cached warnings: those without a code of the form 1xx go to a new field. -/
def moveWarnings (addr : Nat → Nat) :
    List Bytes → MIMEHdr → Option Nat → Option (MIMEHdr × Option Nat)
  | [], c, newCwarn => some (c, newCwarn)
  | w :: ws, c, newCwarn =>
    if inkAtoi w < 100 ∨ inkAtoi w > 199 then
      match newCwarn with
      | none => do
        let n := c.slots.length
        let c ← (c.fieldCreate (addr c.blocks.length)).fieldValueAppend n w false 44
        moveWarnings addr ws c (some n)
      | some n => do
        let c ← c.fieldValueAppend n w true 44
        moveWarnings addr ws c (some n)
    else moveWarnings addr ws c newCwarn

def appendWarnings (addr : Nat → Nat) :
    List (Option Bytes) → MIMEHdr → Option Nat → Option MIMEHdr
  | [], c, _ => some c
  | v :: vs, c, some n => do
    let c ← c.fieldValueAppend n (v.getD []) true 44
    appendWarnings addr vs c (some n)
  | v :: vs, c, none => do
    let n := c.slots.length
    let c ← c.fieldAdd (.wks wksidxWarning) v (addr c.blocks.length)
    appendWarnings addr vs c (some n)

def renewWarnings (addr : Nat → Nat) (c : MIMEHdr) : Option (MIMEHdr × Option Nat) :=
  match c.find (.wks wksidxWarning) with
  | none => some (c, none)
  | some _ => do
    let values ← c.chainValues (.wks wksidxWarning)
    let pieces ← HdrCsvIter.allValues 44 true values
    let (c, newCwarn) ← moveWarnings addr pieces c none
    let c ← c.fieldDelete (.wks wksidxWarning)
    match newCwarn with
    | none => some (c, none)
    | some n => do
      let c ← (c.nameSet n (.wks wksidxWarning)).attach n true none
      some (c, some n)

def mergeWarningHeader (addr : Nat → Nat) (c r : MIMEHdr) : Option MIMEHdr := do
  let (c, newCwarn) ← renewWarnings addr c
  let values ← r.chainValues (.wks wksidxWarning)
  appendWarnings addr values c newCwarn

def mergeResponseHeaderWithCachedHeader (addr : Nat → Nat) (c r : MIMEHdr) : Option MIMEHdr := do
  let c ← mergeLoop r addr false (liveSlots r) c
  mergeWarningHeader addr c r

/-! ### Names -/

def skipped (nm : Bytes) : Bool := ((hdrtokenTokenize nm).map fun i => skips (.wks i)).getD false

def warningName : Bytes := lower (hdrtokenIndexToWks wksidxWarning)

variable {l : List Nat} {n : Nat}

theorem wksidxWarning_lt : wksidxWarning < hdrtokenNumWks := by decide +kernel

section Response
variable {r : MIMEHdr} {n m : Nat}

def key (r : MIMEHdr) (n : Nat) : Bytes := lower (r.slot n).name

theorem lower_nameAt (hr : Inv r) (n : Nat) : lower (nameAt r n).bytes = key r n := by
  rw [nameAt, nameGet, key]
  cases hw : (r.slot n).wksIdx with
  | none => rfl
  | some i => exact ((hr.wksIdx_iff (hr.wksIdx_lt hw)).mp hw).symm

theorem goodName_nameAt (hr : Inv r) (hlen : (r.slot n).name.length < 2 ^ 16) : GoodName (nameAt r n) := by
  rw [nameAt, nameGet]
  cases hw : (r.slot n).wksIdx with
  | none => exact ⟨hr.name n, hlen⟩
  | some i => exact hr.wksIdx_lt hw

theorem skips_nameAt (hr : Inv r) (n : Nat) : skips (nameAt r n) = skipped (key r n) := by
  have htok : hdrtokenTokenize (key r n) = (r.slot n).wksIdx := by
    rw [hr.wksIdx]
    exact hdrtokenTokenize_congr (by rw [key, lower_lower])
  rw [skipped, htok, nameAt, nameGet]
  cases (r.slot n).wksIdx with
  | none => rfl
  | some i => rfl

theorem liveOf_eq_filter (r : MIMEHdr) (nm : Bytes) :
    r.liveOf nm = (liveSlots r).filter fun n => key r n = nm := by
  rw [liveOf, liveSlots, List.filter_filter]
  refine filter_congr fun n _ => ?_
  rw [named, key, Bool.and_comm]

theorem next_eq_none_iff (hr : Inv r) {rest : List Nat} (hsuf : n :: rest <:+ liveSlots r) :
    r.next n = none ↔ ∀ m ∈ rest, key r m ≠ key r n := by
  obtain ⟨pre, hpre⟩ := hsuf
  have hchain := hr.chain (key r n)
  rw [liveOf_eq_filter, ← hpre, filter_append, filter_cons_of_pos (by simp)] at hchain
  rw [hchain.next_eq, head?_eq_none_iff, filter_eq_nil_iff]
  simp

end Response

/-! ### The loop -/

/-- What the response needs: the invariant, and lengths that fit their fields. -/
structure Sound (r : MIMEHdr) : Prop where
  inv : Inv r
  names : ∀ n, (r.slot n).name.length < 2 ^ 16
  values : ∀ n, Storable (r.slot n).value

section Loop
variable {r c : MIMEHdr} {addr : Nat → Nat} {nm : Bytes}

theorem deleteNames_spec (names : List HdrName) (hc : Inv c) (hnames : ∀ name ∈ names, GoodName name) :
    ∃ c', deleteNames names c = some c' ∧ Inv c' ∧ c'.blocks = c.blocks ∧
      ∀ nm, c'.fieldsOf nm = if nm ∈ names.map (fun name => lower name.bytes) then [] else c.fieldsOf nm := by
  induction names generalizing c with
  | nil => exact ⟨c, rfl, hc, rfl, fun nm => by simp⟩
  | cons name names ih =>
    obtain ⟨c1, hc1, hi1, -, hb1, hnil, hs, -⟩ := hc.fieldDelete (hnames name mem_cons_self)
    obtain ⟨c', hc', hi', hb', hfields⟩ := ih hi1 fun n hn => hnames n (mem_cons_of_mem _ hn)
    refine ⟨c', by rw [deleteNames, hc1]; exact hc', hi', hb'.trans hb1, fun nm => ?_⟩
    rw [hfields, map_cons]
    by_cases hnm : nm = lower name.bytes
    · rw [if_pos (mem_cons.mpr (.inl hnm)), hnm, hnil, ite_self]
    · rw [hs nm hnm]
      simp only [mem_cons, hnm, false_or]

def added (r : MIMEHdr) (l : List Nat) (nm : Bytes) : List (Bytes × Option Bytes) :=
  (l.filter fun n => key r n = nm && !skipped nm).map fun n => ((nameAt r n).bytes, (r.slot n).value)

theorem added_cons_of_ne (h : key r n ≠ nm ∨ skipped nm = true) : added r (n :: l) nm = added r l nm := by
  rw [added, added, filter_cons_of_neg]
  rcases h with h | h <;> simp [h]

theorem added_cons_self (h : skipped (key r n) = false) :
    added r (n :: l) (key r n) = ((nameAt r n).bytes, (r.slot n).value) :: added r l (key r n) := by
  rw [added, added, filter_cons_of_pos (by simp [h]), map_cons]

theorem mergeLoop_dups (hr : Sound r) (l : List Nat) (hc : Inv c) (hroom : Roomy addr l.length c) :
    ∃ c', mergeLoop r addr true l c = some c' ∧ Inv c' ∧ Grown addr l.length c c' ∧
      ∀ nm, c'.fieldsOf nm = c.fieldsOf nm ++ added r l nm := by
  induction l generalizing c with
  | nil => exact ⟨c, rfl, hc, .refl c, fun nm => by simp [added]⟩
  | cons n l ih =>
    rw [mergeLoop, skips_nameAt hr.inv]
    by_cases hskip : skipped (key r n) = true
    · obtain ⟨c', hc', hi', hg', hfields⟩ := ih hc (hroom.mono (Nat.le_succ _))
      refine ⟨c', by rw [if_pos hskip, hc'], hi', hg'.mono (Nat.le_succ _), fun nm => ?_⟩
      rw [hfields, added_cons_of_ne]
      by_cases hnm : key r n = nm
      · exact .inr (hnm ▸ hskip)
      · exact .inl hnm
    · obtain ⟨c1, hc1, hi1, hg1, -, -, hown, hs⟩ := hc.fieldAdd
        (goodName_nameAt hr.inv (hr.names n)) (hroom.mono (by simp)) (hr.values n)
      rw [lower_nameAt hr.inv] at hown hs
      obtain ⟨c', hc', hi', hg', hfields⟩ := ih hi1
        ((hroom.mono (by rw [length_cons]; omega) : Roomy addr (1 + l.length) c).of_grown hg1)
      refine ⟨c', ?_, hi', (hg1.trans hg').mono (by rw [length_cons]; omega), fun nm => ?_⟩
      · rw [if_neg hskip]
        simp only [Bool.not_true, Bool.and_false, Bool.false_eq_true, if_false, Bool.or_false,
          if_true, bind_eq_bind, bind_some]
        rw [hc1, bind_some, hc']
      · rw [hfields]
        by_cases hnm : nm = key r n
        · rw [hnm, hown, added_cons_self (by simpa using hskip), append_assoc]
          rfl
        · rw [hs nm hnm, added_cons_of_ne (.inl (Ne.symm hnm))]

/-- The fields from the first one on that has a duplicate and is not skipped. -/
def fromDup (r : MIMEHdr) : List Nat → List Nat
  | [] => []
  | n :: rest => if skipped (key r n) ∨ r.next n = none then fromDup r rest else n :: rest

theorem fromDup_cons (h : skipped (key r n) = true ∨ r.next n = none) : fromDup r (n :: l) = fromDup r l := by
  rw [fromDup, if_pos h]

theorem mergeLoop_spec (hr : Sound r) (l : List Nat) (hsuf : l <:+ liveSlots r) (hc : Inv c)
    (hroom : Roomy addr l.length c) :
    ∃ c', mergeLoop r addr false l c = some c' ∧ Inv c' ∧ Grown addr l.length c c' ∧
      (∀ nm, (∀ n ∈ l, key r n ≠ nm) → c'.fieldsOf nm = c.fieldsOf nm) ∧
      (∀ nm, skipped nm = true → c'.fieldsOf nm = if nm ∈ (fromDup r l).map (key r) then [] else c.fieldsOf nm) ∧
      (∀ nm, skipped nm = false → nm ∈ l.map (key r) →
        c'.valuesOf nm = (l.filter fun n => key r n = nm).map fun n => (r.slot n).value) := by
  induction l generalizing c with
  | nil => exact ⟨c, rfl, hc, .refl c, fun nm _ => rfl, fun nm _ => by simp [fromDup], by simp⟩
  | cons n l ih =>
    have hsuf' : l <:+ liveSlots r := (suffix_cons n l).trans hsuf
    by_cases hskip : skipped (key r n) = true
    · -- the field is skipped
      obtain ⟨c', hc', hi', hg', hother, hskipped, hvalues⟩ := ih hsuf' hc (hroom.mono (Nat.le_succ _))
      refine ⟨c', ?_, hi', hg'.mono (Nat.le_succ _), fun nm hnm => ?_, fun nm hnm => ?_, fun nm hnm hmem => ?_⟩
      · rw [mergeLoop, skips_nameAt hr.inv, if_pos hskip, hc']
      · exact hother nm fun m hm => hnm m (mem_cons_of_mem _ hm)
      · rw [hskipped nm hnm, fromDup_cons (.inl hskip)]
      · have hne : key r n ≠ nm := by
          rintro rfl
          rw [hskip] at hnm
          cases hnm
        rw [map_cons, mem_cons] at hmem
        rw [filter_cons_of_neg (by simpa using hne)]
        exact hvalues nm hnm (hmem.resolve_left (Ne.symm hne))
    by_cases hnext : r.next n = none
    · -- no duplicate so far: the field replaces those of its name
      obtain ⟨c1, hc1, hi1, hg1, hown, hs⟩ := hc.valueSet
        (goodName_nameAt hr.inv (hr.names n)) (hroom.mono (by simp)) (hr.values n)
      rw [lower_nameAt hr.inv] at hown hs
      obtain ⟨c', hc', hi', hg', hother, hskipped, hvalues⟩ := ih hsuf' hi1
        ((hroom.mono (by rw [length_cons]; omega) : Roomy addr (1 + l.length) c).of_grown hg1)
      have hlast := (next_eq_none_iff hr.inv hsuf).mp hnext
      refine ⟨c', ?_, hi', (hg1.trans hg').mono (by rw [length_cons]; omega), fun nm hnm => ?_, fun nm hnm => ?_,
        fun nm hnm hmem => ?_⟩
      · rw [mergeLoop, skips_nameAt hr.inv, if_neg hskip, hnext]
        simp only [isSome_none, Bool.false_and, Bool.false_eq_true, if_false, Bool.or_false, bind_eq_bind, bind_some]
        rw [hc1, bind_some, hc']
      · rw [hother nm fun m hm => hnm m (mem_cons_of_mem _ hm)]
        exact hs nm (Ne.symm (hnm n mem_cons_self))
      · have hne : nm ≠ key r n := by
          rintro rfl
          exact hskip hnm
        rw [hskipped nm hnm, fromDup_cons (.inr hnext), hs nm hne]
      · by_cases hne : key r n = nm
        · rw [← hne, valuesOf_eq_map, hother _ hlast, ← valuesOf_eq_map, hown,
            filter_cons_of_pos (by simp), filter_eq_nil_iff.mpr (by simpa using hlast)]
          rfl
        · rw [map_cons, mem_cons] at hmem
          rw [filter_cons_of_neg (by simpa using hne)]
          exact hvalues nm hnm (hmem.resolve_left (Ne.symm hne))
    · -- the first duplicate: all names that are left are deleted, and their fields added again
      obtain ⟨c1, hc1, hi1, hb1, hdel⟩ := deleteNames_spec ((n :: l).map (nameAt r)) hc
        (by
          intro name hname
          obtain ⟨m, -, rfl⟩ := List.mem_map.mp hname
          exact goodName_nameAt hr.inv (hr.names m))
      have hkeys : ((n :: l).map (nameAt r)).map (fun name => lower name.bytes) = (n :: l).map (key r) := by
        rw [List.map_map]
        exact map_congr_left fun m _ => lower_nameAt hr.inv m
      rw [hkeys] at hdel
      obtain ⟨c', hc', hi', hg', hfields⟩ := mergeLoop_dups hr (n :: l) hi1
        (by rwa [Roomy, hb1] : Roomy addr (n :: l).length c1)
      have hfrom : fromDup r (n :: l) = n :: l := by rw [fromDup, if_neg (by simp [hskip, hnext])]
      refine ⟨c', ?_, hi', ((Grown.of_blocks hb1).trans hg').mono (zero_add _).le,
        fun nm hnm => ?_, fun nm hnm => ?_, fun nm hnm hmem => ?_⟩
      · rw [← hc', mergeLoop, mergeLoop, skips_nameAt hr.inv, if_neg hskip, if_neg hskip,
          isSome_iff_ne_none.mpr hnext]
        simp only [Bool.not_false, Bool.and_true, if_true, Bool.or_true, Bool.not_true, Bool.and_false,
          Bool.false_eq_true, if_false, bind_eq_bind, bind_some, hc1]
        rfl
      · have hnil : added r (n :: l) nm = [] := by
          rw [added, filter_eq_nil_iff.mpr fun m hm => by simp [hnm m hm]]
          rfl
        rw [hfields, hdel, hnil, append_nil, if_neg]
        rintro hmem
        obtain ⟨m, hm, hkey⟩ := List.mem_map.mp hmem
        exact hnm m hm hkey
      · have hnil : added r (n :: l) nm = [] := by
          rw [added, filter_eq_nil_iff.mpr (by simp [hnm])]
          rfl
        rw [hfields, hdel, hnil, append_nil, hfrom]
      · rw [valuesOf_eq_map, hfields, hdel, if_pos hmem, nil_append, added, List.map_map]
        have hfilter : ((n :: l).filter fun m => key r m = nm && !skipped nm) =
            (n :: l).filter fun m => key r m = nm :=
          filter_congr fun m _ => by rw [hnm, Bool.not_false, Bool.and_true]
        rw [hfilter]
        rfl

end Loop

/-! ### Warnings -/

section Warnings
variable {r c : MIMEHdr} {addr : Nat → Nat} {n : Nat}

theorem goodName_warning : GoodName (.wks wksidxWarning) := wksidxWarning_lt

theorem moveWarnings_some (addr : Nat → Nat) (ws : List Bytes) (hc : Inv c) (hn : c.slots.length = n + 1)
    (hd : (c.slot n).readiness = .detached) :
    ∃ c', moveWarnings addr ws c (some n) = some (c', some n) ∧ Inv c' ∧ c'.slots.length = n + 1 ∧
      c'.blocks = c.blocks ∧ (c'.slot n).readiness = .detached ∧ ∀ nm, c'.fieldsOf nm = c.fieldsOf nm := by
  induction ws generalizing c with
  | nil => exact ⟨c, rfl, hc, hn, rfl, hd, fun _ => rfl⟩
  | cons w ws ih =>
    rw [moveWarnings]
    split
    · have hdead : isLive (c.slot n) = false := by simp [isLive, hd]
      obtain ⟨c1, (hc1 : c.fieldValueAppend n w true 44 = some c1), hi1, hlen1, hb1, hready1, hfields1⟩ :=
        hc.storeValue_dead hdead _
      obtain ⟨c', hc', hi', hlen', hb', hd', hfields'⟩ := ih hi1 (hlen1.trans hn) ((hready1 n).trans hd)
      refine ⟨c', ?_, hi', hlen', hb'.trans hb1, hd', fun nm => (hfields' nm).trans (hfields1 nm)⟩
      rw [hc1]
      exact hc'
    · exact ih hc hn hd

theorem moveWarnings_none (ws : List Bytes) (hc : Inv c) (hroom : Roomy addr 1 c) :
    ∃ c' new, moveWarnings addr ws c none = some (c', new) ∧ Inv c' ∧ (∀ nm, c'.fieldsOf nm = c.fieldsOf nm) ∧
      ((new = none ∧ c'.blocks = c.blocks) ∨ ∃ n, new = some n ∧ c'.slots.length = n + 1 ∧
        (c'.slot n).readiness = .detached ∧ Grown addr 1 c c') := by
  induction ws with
  | nil => exact ⟨c, none, rfl, hc, fun _ => rfl, .inl ⟨rfl, rfl⟩⟩
  | cons w ws ih =>
    rw [moveWarnings]
    split
    · obtain ⟨hi1, hslot1, hlive1, -⟩ := hc.fieldCreate hroom.fieldCreate
      obtain ⟨c1, hc1⟩ : ∃ c1, c1 = c.fieldCreate (addr c.blocks.length) := ⟨_, rfl⟩
      have hgrown := Grown.fieldCreate addr c
      have hlen1 : c1.slots.length = c.slots.length + 1 := by simp [hc1, fieldCreate]
      rw [← hc1] at hi1 hslot1 hlive1 hgrown
      have hnew : c1.slot c.slots.length = {} := by rw [hslot1, c.slot_of_ge le_rfl]
      have hdead : isLive (c1.slot c.slots.length) = false := by rw [hnew]; rfl
      obtain ⟨c2, (hc2 : c1.fieldValueAppend c.slots.length w false 44 = some c2), hi2, hlen2, hb2, hready2,
        hfields2⟩ := hi1.storeValue_dead hdead _
      obtain ⟨c', hc', hi', hlen', hb', hd', hfields'⟩ := moveWarnings_some addr ws hi2
        (hlen2.trans hlen1) (by rw [hready2, hnew])
      refine ⟨c', some c.slots.length, ?_, hi', fun nm => ?_, .inr ⟨_, rfl, hlen', hd', ?_⟩⟩
      · dsimp only
        rw [← hc1, hc2]
        exact hc'
      · rw [hfields', hfields2]
        exact fieldsOf_congr (hlive1 nm) fun m _ => by rw [hslot1]; exact ⟨rfl, rfl⟩
      · obtain ⟨j, hj, hb⟩ := hgrown
        exact ⟨j, hj, by rw [hb', hb2, hb]⟩
    · exact ih

theorem appendWarnings_some (addr : Nat → Nat) (vs : List (Option Bytes)) (hc : Inv c) {A : List Nat}
    (hL : c.liveOf warningName = A ++ [n]) :
    ∃ c', appendWarnings addr vs c (some n) = some c' ∧ Inv c' ∧ SameBut warningName c c' := by
  induction vs generalizing c with
  | nil => exact ⟨c, rfl, hc, .refl _ c⟩
  | cons v vs ih =>
    obtain ⟨c1, (hc1 : c.fieldValueAppend n (v.getD []) true 44 = some c1), hi1, -, -, hL1, -, hs1⟩ :=
      hc.storeValue_last hL _
    obtain ⟨c', hc', hi', hs'⟩ := ih hi1 hL1
    refine ⟨c', ?_, hi', hs1.trans hs'⟩
    rw [appendWarnings, hc1]
    exact hc'

theorem appendWarnings_none (vs : List (Option Bytes)) (hvs : ∀ v ∈ vs, Storable v) (hc : Inv c)
    (hroom : Roomy addr 1 c) : ∃ c', appendWarnings addr vs c none = some c' ∧ Inv c' ∧ SameBut warningName c c' := by
  cases vs with
  | nil => exact ⟨c, rfl, hc, .refl _ c⟩
  | cons v vs =>
    obtain ⟨c1, hc1, hi1, -, -, ⟨A, hL1⟩, -, hs1⟩ := hc.fieldAdd goodName_warning hroom (hvs v mem_cons_self)
    obtain ⟨c', hc', hi', hs'⟩ := appendWarnings_some addr vs hi1 hL1
    refine ⟨c', ?_, hi', hs1.trans hs'⟩
    rw [appendWarnings, hc1]
    exact hc'

theorem attachWarning (hc : Inv c) (hn : c.slots.length = n + 1) (hd : (c.slot n).readiness = .detached) :
    ∃ c', (c.nameSet n (.wks wksidxWarning)).attach n true none = some c' ∧ Inv c' ∧
      SameBut warningName c c' ∧ ∃ A, c'.liveOf warningName = A ++ [n] := by
  have hdead : isLive (c.slot n) = false := by simp [isLive, hd]
  have hplain : 0 ∉ hdrtokenIndexToWks wksidxWarning ∧
      (hdrtokenIndexToWks wksidxWarning).length < 2 ^ 16 := hdrtokenIndexToWks_plain wksidxWarning_lt
  obtain ⟨hi1, hlive1⟩ := hc.fieldNameSet hdead hplain.1 hplain.2
  rw [hdrtokenTokenize_wks wksidxWarning_lt] at hi1 hlive1
  generalize hc1 : c.fieldNameSet n (some wksidxWarning) (hdrtokenIndexToWks wksidxWarning) = c1 at hi1 hlive1
  have hname1 : lower (c1.slot n).name = warningName := by
    rw [← hc1, fieldNameSet, slot_modify_self _ (by omega)]
    rw [Nat.mod_eq_of_lt hplain.2, take_length, warningName]
  have hd1 : (c1.slot n).readiness = .detached := by
    rw [← hc1, fieldNameSet, slot_modify_self _ (by omega)]
    exact hd
  obtain ⟨c', hc', hi', hk, hL, hne⟩ := hi1.attach_last
    (by rw [← hc1, fieldNameSet, slots_modify_length, hn]) hd1 (c := true) (.inl rfl)
  rw [hname1] at hL hne
  refine ⟨c', by rw [← hc', ← hc1]; rfl, hi', fun nm hnm => ?_, _, hL⟩
  rw [hk.fieldsOf (hne nm hnm)]
  refine fieldsOf_congr (hlive1 nm) fun m hm => ?_
  have hmn : m ≠ n := by
    rintro rfl
    rw [((c.mem_liveOf_iff nm).mp hm).1] at hdead
    cases hdead
  rw [← hc1, fieldNameSet, slot_modify_of_ne _ hmn]
  exact ⟨rfl, rfl⟩

theorem renewWarnings_spec (hc : Inv c) (hroom : Roomy addr 1 c) :
    ∃ c' new, renewWarnings addr c = some (c', new) ∧ Inv c' ∧ SameBut warningName c c' ∧
      ((new = none ∧ c'.blocks = c.blocks) ∨ ∃ n A, new = some n ∧ c'.liveOf warningName = A ++ [n]) := by
  rw [renewWarnings]
  cases hfind : c.find (.wks wksidxWarning) with
  | none => exact ⟨c, none, rfl, hc, .refl _ c, .inl ⟨rfl, rfl⟩⟩
  | some m =>
    obtain ⟨pieces, hpieces⟩ := MIMECooked.allValues_eq_some (c.valuesOf warningName)
    obtain ⟨c1, new, hc1, hi1, hfields1, hnew⟩ := moveWarnings_none pieces hc hroom
    obtain ⟨c2, hc2, hi2, hlen2, hb2, -, hs2, hdead2⟩ := hi1.fieldDelete goodName_warning
    have hs : SameBut warningName c c2 := (SameBut.of_fieldsOf hfields1).trans hs2
    have hvalues : c.chainValues (.wks wksidxWarning) = some (c.valuesOf warningName) :=
      hc.chainValues wksidxWarning_lt
    simp only [bind_eq_bind, bind_some, hvalues, hpieces, hc1, hc2]
    rcases hnew with ⟨rfl, hb1⟩ | ⟨n, rfl, hlen1, hd1, -⟩
    · exact ⟨c2, none, rfl, hi2, hs, .inl ⟨rfl, hb2.trans hb1⟩⟩
    · have hd2 : (c2.slot n).readiness = .detached := (hdead2 n (by simp [isLive, hd1])).trans hd1
      obtain ⟨c3, hc3, hi3, hs3, A, hL3⟩ := attachWarning hi2 (hlen2.trans hlen1) hd2
      exact ⟨c3, some n, by dsimp only; rw [hc3]; rfl, hi3, hs.trans hs3, .inr ⟨n, A, rfl, hL3⟩⟩

theorem mergeWarningHeader_spec (hr : Sound r) (hc : Inv c) (hroom : Roomy addr 1 c) :
    ∃ c', mergeWarningHeader addr c r = some c' ∧ SameBut warningName c c' := by
  obtain ⟨c1, new, hc1, hi1, hs1, hnew⟩ := renewWarnings_spec hc hroom
  have hvalues : r.chainValues (.wks wksidxWarning) = some (r.valuesOf warningName) :=
    hr.inv.chainValues wksidxWarning_lt
  have hstorable : ∀ v ∈ r.valuesOf warningName, Storable v := by
    intro v hv
    obtain ⟨n, -, rfl⟩ := List.mem_map.mp hv
    exact hr.values n
  rw [mergeWarningHeader, hc1, hvalues]
  simp only [bind_eq_bind, bind_some]
  rcases hnew with ⟨rfl, hb⟩ | ⟨n, A, rfl, hL⟩
  · obtain ⟨c', hc', -, hs'⟩ := appendWarnings_none (r.valuesOf warningName) hstorable hi1
      (by rwa [Roomy, hb] : Roomy addr 1 c1)
    exact ⟨c', hc', hs1.trans hs'⟩
  · obtain ⟨c', hc', -, hs'⟩ := appendWarnings_some addr (r.valuesOf warningName) hi1 hL
    exact ⟨c', hc', hs1.trans hs'⟩

end Warnings

/-! ### The merged header -/

def Spared (nm : Bytes) : Prop := skipped nm = true ∧ nm ≠ warningName
deriving Decidable

/-- What the merged header `c'` has of the cached header `c` and of the response `r`, `Warning`
aside. -/
structure Merged (c r c' : MIMEHdr) : Prop where
  spared : ∀ nm, Spared nm → c'.fieldsOf nm = c.fieldsOf nm
  replaced : ∀ nm, skipped nm = false → r.liveOf nm ≠ [] → c'.valuesOf nm = r.valuesOf nm
  untouched : ∀ nm, skipped nm = false → r.liveOf nm = [] → c'.fieldsOf nm = c.fieldsOf nm

/-- The cached header has no field of a spared name that stands in the response behind a field with a
duplicate. -/
def Undisturbed (c r : MIMEHdr) : Prop :=
  ∀ n ∈ fromDup r (liveSlots r), Spared (key r n) → c.liveOf (key r n) = []
deriving Decidable

section Merge
variable {r c : MIMEHdr} {addr : Nat → Nat}

/-- **The merge keeps what it is to keep exactly if no spared name is deleted.** -/
theorem merge_iff_undisturbed (hc : Inv c) (hr : Sound r) (hroom : Roomy addr ((liveSlots r).length + 1) c) :
    ∃ c', mergeResponseHeaderWithCachedHeader addr c r = some c' ∧ (Merged c r c' ↔ Undisturbed c r) := by
  obtain ⟨c1, hc1, hi1, hg1, hother, hskipped, hvalues⟩ :=
    mergeLoop_spec hr (liveSlots r) suffix_rfl hc (hroom.mono (Nat.le_succ _))
  obtain ⟨c', hc', hs⟩ := mergeWarningHeader_spec hr hi1 (hroom.of_grown hg1)
  have hne {nm : Bytes} (h : skipped nm = false) : nm ≠ warningName := by
    rintro rfl
    cases h
  refine ⟨c', by rw [mergeResponseHeaderWithCachedHeader, hc1]; exact hc', fun hm n hn hsp => ?_,
    fun hund => ⟨fun nm hsp => ?_, fun nm hsk hlive => ?_, fun nm hsk hlive => ?_⟩⟩
  · have hkept := hm.spared _ hsp
    rw [hs _ hsp.2, hskipped _ hsp.1, if_pos (List.mem_map_of_mem hn)] at hkept
    exact fieldsOf_eq_nil.mp hkept.symm
  · rw [hs nm hsp.2, hskipped nm hsp.1]
    split
    · next hmem =>
      obtain ⟨n, hn, rfl⟩ := List.mem_map.mp hmem
      exact (fieldsOf_eq_nil.mpr (hund n hn hsp)).symm
    · rfl
  · have hmem : nm ∈ (liveSlots r).map (key r) := by
      obtain ⟨n, hn⟩ := exists_mem_of_ne_nil _ hlive
      rw [liveOf_eq_filter, mem_filter] at hn
      exact List.mem_map.mpr ⟨n, hn.1, by simpa using hn.2⟩
    rw [valuesOf_eq_map, hs nm (hne hsk), ← valuesOf_eq_map, hvalues nm hsk hmem, valuesOf, liveOf_eq_filter]
  · rw [hs nm (hne hsk)]
    refine hother nm fun n hn hkey => ?_
    rw [liveOf_eq_filter, filter_eq_nil_iff] at hlive
    exact hlive n hn (by simpa using hkey)

def headerOf (fields : List (HdrName × String)) : Option MIMEHdr :=
  fields.foldlM (fun h f => h.fieldAdd f.1 (some (strBytes f.2)) (4096 * h.blocks.length)) (create 0)

theorem sound_of_slots (hr : Inv r)
    (h : (r.slots.all fun f => f.name.length < 2 ^ 16 && (f.value.getD []).length < 2 ^ 24) = true) : Sound r := by
  have hslot (n : Nat) : (r.slot n).name.length < 2 ^ 16 ∧ ((r.slot n).value.getD []).length < 2 ^ 24 := by
    by_cases hn : n < r.slots.length
    · have := List.all_eq_true.mp h _ (r.slot_mem hn)
      simpa using this
    · rw [r.slot_of_ge (Nat.le_of_not_lt hn)]
      decide
  refine ⟨hr, fun n => (hslot n).1, fun n v hv => ?_⟩
  have := (hslot n).2
  rwa [mem_def.mp hv] at this

def cachedHeader : Option MIMEHdr :=
  MIMEOp.run (MIMEOp.fields [("Content-Type", "text/html"), ("Via", "z"), ("Server", "s")]) (create 0)

def responseHeader : Option MIMEHdr :=
  MIMEOp.run (MIMEOp.fields [("Content-Type", "text/plain"), ("Via", "a"), ("Via", "b")]) (create 0)

/-- The `Content-Type` and the `Server` are kept, and the `Via` fields are replaced. -/
theorem merge_iff_undisturbed_of_dups : ∃ c r c', cachedHeader = some c ∧ responseHeader = some r ∧
    mergeResponseHeaderWithCachedHeader (fun i => 4096 * i) c r = some c' ∧ Merged c r c' := by
  have hchecks : (cachedHeader.bind fun c => responseHeader.map fun r => (r.slots.all fun f =>
      f.name.length < 2 ^ 16 && (f.value.getD []).length < 2 ^ 24,
      decide (Roomy (fun i => 4096 * i) ((liveSlots r).length + 1) c), decide (Undisturbed c r))) =
      some (true, true, true) := by
    decide +kernel
  obtain ⟨c, hc, hchecks⟩ := bind_eq_some_iff.1 hchecks
  obtain ⟨r, hr, hchecks⟩ := map_eq_some_iff.1 hchecks
  obtain ⟨hall, hroom, hund⟩ : _ ∧ _ ∧ _ := by simpa only [Prod.mk.injEq, decide_eq_true_eq] using hchecks
  have hic := Inv.run (MIMEOp.steps_of_run hc) (inv_create 0)
  have hir := Inv.run (MIMEOp.steps_of_run hr) (inv_create 0)
  obtain ⟨c', hc', hiff⟩ := merge_iff_undisturbed hic (sound_of_slots hir hall) hroom
  exact ⟨c, r, c', hc, hr, hc', hiff.2 hund⟩

/-- The cached header has a `Content-Type`, the response two `Via` fields and a `Content-Type` behind
them: the one of the cached header is lost. -/
theorem merge_loses_content_type : (do
      let c ← headerOf [(.wks 20, "text/html")]
      let r ← headerOf [(.wks 67, "a"), (.wks 67, "b"), (.wks 20, "text/html")]
      let c' ← mergeResponseHeaderWithCachedHeader (fun i => 4096 * i) c r
      some (c.valuesOf (strBytes "content-type"), c'.valuesOf (strBytes "content-type"))) =
    some ([some (strBytes "text/html")], []) := by
  decide +kernel

end Merge

end HttpTransact

end TrafficServer
