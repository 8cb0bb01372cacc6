import TrafficServer.Hdrs.MIMEHdrOps

/-!
# The fields of a name

The methods of `MIMEHdr` that are given a name, and what they do to the fields of each name: those of
the given name are deleted, replaced or get a new one behind them, and those of every other name stay
as they are (`SameBut`).

A header takes the addresses of its new blocks from a supply: `addr i` is that of its `i`-th block.
-/

namespace TrafficServer

namespace MIMEHdr

open List HdrToken

/-! ### Methods by name -/

section Methods
variable (h : MIMEHdr)

def fieldDelete (name : HdrName) : Option MIMEHdr :=
  match h.find name with
  | none => some h
  | some n => h.delete n true

def fieldCreateNamed (name : HdrName) (addr : Nat) : MIMEHdr :=
  (h.fieldCreate addr).fieldNameSet h.slots.length name.tokenize name.bytes

def fieldAdd (name : HdrName) (value : Option Bytes) (addr : Nat) : Option MIMEHdr := do
  let g ← (h.fieldCreateNamed name addr).attach h.slots.length true none
  g.fieldValueSet h.slots.length value

def preparedField (name : HdrName) : Nat :=
  match h.find name with
  | none => h.slots.length
  | some n => if h.next n = none then n else h.slots.length

def valueSet (name : HdrName) (value : Option Bytes) (addr : Nat) : Option MIMEHdr := do
  let g ← h.prepareForValueSet name addr
  g.fieldValueSet (h.preparedField name) value

end Methods

/-! ### The blocks -/

def Grown (addr : Nat → Nat) (k : Nat) (h g : MIMEHdr) : Prop :=
  ∃ j ≤ k, g.blocks = h.blocks ++ (List.range' h.blocks.length j).map addr

def Roomy (addr : Nat → Nat) (k : Nat) (h : MIMEHdr) : Prop :=
  Apart (h.blocks ++ (List.range' h.blocks.length k).map addr)
deriving Decidable

section Blocks
variable {addr : Nat → Nat} {h g g' : MIMEHdr} {k l : Nat}

theorem Grown.refl (h : MIMEHdr) : Grown addr 0 h h := ⟨0, le_rfl, by simp⟩

theorem Grown.of_blocks (hb : g.blocks = h.blocks) : Grown addr 0 h g := ⟨0, le_rfl, by simp [hb]⟩

theorem Grown.mono (hg : Grown addr k h g) (hkl : k ≤ l) : Grown addr l h g := by
  obtain ⟨j, hj, hb⟩ := hg
  exact ⟨j, hj.trans hkl, hb⟩

theorem Grown.trans (hg : Grown addr k h g) (hg' : Grown addr l g g') : Grown addr (k + l) h g' := by
  obtain ⟨i, hi, hb⟩ := hg
  obtain ⟨j, hj, hb'⟩ := hg'
  refine ⟨i + j, add_le_add hi hj, ?_⟩
  rw [hb', hb, append_assoc, ← map_append, length_append, length_map, length_range', range'_append_1]

theorem Roomy.of_grown (hr : Roomy addr (k + l) h) (hg : Grown addr k h g) : Roomy addr l g := by
  obtain ⟨j, hj, hb⟩ := hg
  refine List.Pairwise.sublist ?_ hr
  rw [hb, append_assoc, ← map_append, length_append, length_map, length_range', range'_append_1]
  refine (List.Sublist.map addr ?_).append_left _
  obtain ⟨d, hd⟩ := Nat.exists_eq_add_of_le (Nat.add_le_add_right hj l)
  have hsplit : List.range' h.blocks.length (j + l + d) =
      List.range' h.blocks.length (j + l) ++ List.range' (h.blocks.length + (j + l)) d :=
    range'_append_1.symm
  rw [hd, hsplit]
  exact sublist_append_left _ _

theorem Roomy.mono (hr : Roomy addr l h) (hkl : k ≤ l) : Roomy addr k h := by
  obtain ⟨d, rfl⟩ := Nat.exists_eq_add_of_le hkl
  rw [Nat.add_comm] at hr
  exact hr.of_grown ((Grown.refl h).mono (Nat.zero_le d))

theorem Grown.fieldCreate (addr : Nat → Nat) (h : MIMEHdr) : Grown addr 1 h (h.fieldCreate (addr h.blocks.length)) := by
  rw [MIMEHdr.fieldCreate]
  by_cases hfull : fieldBlockSlots * h.blocks.length ≤ h.slots.length
  · exact ⟨1, le_rfl, by simp [hfull]⟩
  · exact ⟨0, Nat.zero_le 1, by simp [hfull]⟩

theorem Roomy.fieldCreate (hr : Roomy addr 1 h) : Apart (h.fieldCreate (addr h.blocks.length)).blocks := by
  have h := hr.of_grown (l := 0) (Grown.fieldCreate addr h)
  rwa [Roomy, range'_zero, map_nil, append_nil] at h

end Blocks

/-! ### Fields -/

def fieldsOf (h : MIMEHdr) (nm : Bytes) : List (Bytes × Option Bytes) :=
  (h.liveOf nm).map fun n => ((h.slot n).name, (h.slot n).value)

def SameBut (nm : Bytes) (h g : MIMEHdr) : Prop := ∀ nm' ≠ nm, g.fieldsOf nm' = h.fieldsOf nm'

section Fields
variable {h h' h'' g : MIMEHdr} {n : Nat} {nm : Bytes}

theorem valuesOf_eq_map (h : MIMEHdr) (nm : Bytes) : h.valuesOf nm = (h.fieldsOf nm).map Prod.snd := by
  rw [valuesOf, fieldsOf, map_map]
  rfl

theorem fieldsOf_eq_nil : h.fieldsOf nm = [] ↔ h.liveOf nm = [] := map_eq_nil_iff

theorem SameBut.refl (nm : Bytes) (h : MIMEHdr) : SameBut nm h h := fun _ _ => rfl

theorem SameBut.of_fieldsOf (hs : ∀ nm, g.fieldsOf nm = h.fieldsOf nm) : SameBut nm h g := fun nm' _ => hs nm'

theorem SameBut.trans (hs : SameBut nm h h') (hs' : SameBut nm h' h'') : SameBut nm h h'' :=
  fun nm' hne => (hs' nm' hne).trans (hs nm' hne)

theorem fieldsOf_congr (hlive : g.liveOf nm = h.liveOf nm)
    (hsame : ∀ m ∈ h.liveOf nm, (g.slot m).name = (h.slot m).name ∧ (g.slot m).value = (h.slot m).value) :
    g.fieldsOf nm = h.fieldsOf nm := by
  rw [fieldsOf, fieldsOf, hlive]
  refine map_congr_left fun m hm => ?_
  rw [(hsame m hm).1, (hsame m hm).2]

theorem Kept.value (hk : Kept h g) (m : Nat) : (g.slot m).value = (h.slot m).value :=
  congrArg (·.2.2.1) (hk.contents m)

theorem Kept.fieldsOf (hk : Kept h g) (hlive : g.liveOf nm = h.liveOf nm) : g.fieldsOf nm = h.fieldsOf nm :=
  fieldsOf_congr hlive fun m _ => ⟨hk.name m, hk.value m⟩

theorem Kept.liveOf_of_ne (hk : Kept h g) (hready : ∀ m, m ≠ n → (g.slot m).readiness = (h.slot m).readiness)
    (hne : nm ≠ lower (h.slot n).name) : g.liveOf nm = h.liveOf nm := by
  refine liveOf_congr hk.length fun m => ?_
  rw [named, named, hk.name]
  by_cases hm : m = n
  · rw [hm, decide_eq_false (Ne.symm hne), Bool.and_false, Bool.and_false]
  · rw [isLive, isLive, hready m hm]

/-! ### Deleting -/

theorem Detached.sameBut (hd : Detached h g n) : SameBut (lower (h.slot n).name) h g :=
  fun _ hne => hd.kept.fieldsOf (hd.kept.liveOf_of_ne hd.others hne)

theorem Inv.deleteLoop_sameBut {fuel : Nat} (hi : Inv h) (hl : isLive (h.slot n))
    (hnm : nm = lower (h.slot n).name) (hg : MIMEHdr.deleteLoop fuel h (some n) = some g) :
    SameBut nm h g ∧ ∀ m, isLive (h.slot m) = false → (g.slot m).readiness = (h.slot m).readiness := by
  induction fuel generalizing h n with
  | zero => cases hg
  | succ fuel ih =>
    obtain ⟨g1, hg1, hd⟩ := hi.detachOne hl
    obtain ⟨hi2, hk2, -, hlive2⟩ := hd.inv.fieldDestroy hd.readiness
    rw [MIMEHdr.deleteLoop, hg1] at hg
    have hs : SameBut nm h (g1.fieldDestroy n) := by
      rw [hnm]
      exact hd.sameBut.trans (.of_fieldsOf fun nm' => hk2.fieldsOf (hlive2 nm'))
    have hdead (m : Nat) (hm : isLive (h.slot m) = false) :
        ((g1.fieldDestroy n).slot m).readiness = (h.slot m).readiness := by
      have hmn : m ≠ n := by
        rintro rfl
        rw [hl] at hm
        cases hm
      rw [MIMEHdr.fieldDestroy, slot_modify_of_ne _ hmn, hd.others m hmn]
    cases hm : h.next n with
    | none =>
      rw [hm] at hg
      obtain rfl : g1.fieldDestroy n = g := by cases fuel <;> exact Option.some.inj hg
      exact ⟨hs, hdead⟩
    | some m =>
      rw [hm] at hg
      obtain ⟨hlm, hname, -⟩ := hd.live_of_next hi hl hnm hm
      have hmem : m ∈ (g1.fieldDestroy n).liveOf nm := by
        rw [hlive2]
        exact (g1.mem_liveOf_iff nm).mpr ⟨hlm, hname⟩
      have hm2 := ((g1.fieldDestroy n).mem_liveOf_iff nm).mp hmem
      obtain ⟨hs', hdead'⟩ := ih hi2 hm2.1 hm2.2.symm hg
      refine ⟨hs.trans hs', fun k hk => ?_⟩
      rw [hdead' k (by rw [isLive, hdead k hk]; exact hk), hdead k hk]

theorem Inv.find_name (hi : Inv h) {name : HdrName} (hg : GoodName name) :
    h.find name = (h.liveOf (lower name.bytes)).head? :=
  hi.find_eq fun i he => by rw [he] at hg; exact hg

theorem before_of_head? (hhead : (h.liveOf nm).head? = some n) : h.before nm n = [] := by
  cases hL : h.liveOf nm with
  | nil => simp [hL] at hhead
  | cons x l =>
    obtain rfl : x = n := by simpa [hL] using hhead
    exact before_of_liveOf (A := []) hL

/-- **`field_delete` deletes all fields of the name, and no other.** -/
theorem Inv.fieldDelete (hi : Inv h) {name : HdrName} (hg : GoodName name) :
    ∃ g, h.fieldDelete name = some g ∧ Inv g ∧ g.slots.length = h.slots.length ∧
      g.blocks = h.blocks ∧ g.fieldsOf (lower name.bytes) = [] ∧ SameBut (lower name.bytes) h g ∧
      ∀ m, isLive (h.slot m) = false → (g.slot m).readiness = (h.slot m).readiness := by
  have hfind := hi.find_name hg
  rw [MIMEHdr.fieldDelete]
  cases hf : h.find name with
  | none =>
    rw [hf, eq_comm, head?_eq_none_iff] at hfind
    exact ⟨h, rfl, hi, rfl, rfl, fieldsOf_eq_nil.mpr hfind, .refl _ h, fun _ _ => rfl⟩
  | some n =>
    rw [hf] at hfind
    have hmem := (h.mem_liveOf_iff _).mp (mem_of_mem_head? hfind.symm)
    obtain ⟨g, hd, hi', hk, -, hL⟩ := hi.deleteLoop hmem.1 hmem.2.symm (liveOf_length_le _)
    refine ⟨g, by simpa [MIMEHdr.delete] using hd, hi', hk.length, hk.blocks,
      fieldsOf_eq_nil.mpr ?_, hi.deleteLoop_sameBut hmem.1 hmem.2.symm hd⟩
    rw [hL, before_of_head? hfind.symm]

/-! ### Adding -/

theorem Inv.storeValue_eq (hi : Inv h) (n : Nat) (value : Option Bytes) : ∃ k, h.storeValue n value =
      some { h.modify n fun f => { f with value := value.map storedValue } with cookedStuff := k } := by
  obtain ⟨k, hk, -⟩ := (hi.modify_value n (value.map storedValue)).1.recook n (isLive (h.slot n))
  exact ⟨k, hk⟩

theorem Inv.storeValue_dead (hi : Inv h) (hdead : isLive (h.slot n) = false) (value : Option Bytes) :
    ∃ g, h.storeValue n value = some g ∧ Inv g ∧ g.slots.length = h.slots.length ∧
      g.blocks = h.blocks ∧ (∀ m, (g.slot m).readiness = (h.slot m).readiness) ∧
      ∀ nm, g.fieldsOf nm = h.fieldsOf nm := by
  obtain ⟨k, hk⟩ := hi.storeValue_eq n value
  obtain ⟨hi', hlive⟩ := hi.modify_value n (value.map storedValue)
  refine ⟨_, hk, hi'.withCooked k, h.slots_modify_length, rfl, fun m => ?_, fun nm =>
    fieldsOf_congr (hlive nm) fun m hm => ?_⟩
  · exact h.slot_modify_keeps (·.readiness) (fun _ => by rfl) m
  · have hmn : m ≠ n := by
      rintro rfl
      rw [((h.mem_liveOf_iff nm).mp hm).1] at hdead
      cases hdead
    change ((h.modify n _).slot m).name = _ ∧ ((h.modify n _).slot m).value = _
    rw [h.slot_modify_of_ne hmn]
    exact ⟨rfl, rfl⟩

theorem Inv.storeValue_last (hi : Inv h) {A : List Nat} (hL : h.liveOf nm = A ++ [n]) (value : Option Bytes) :
    ∃ g, h.storeValue n value = some g ∧ Inv g ∧ g.slots.length = h.slots.length ∧
      g.blocks = h.blocks ∧ g.liveOf nm = A ++ [n] ∧
      g.fieldsOf nm = A.map (fun m => ((h.slot m).name, (h.slot m).value)) ++
        [((h.slot n).name, value.map storedValue)] ∧ SameBut nm h g := by
  obtain ⟨k, hk⟩ := hi.storeValue_eq n value
  obtain ⟨hi', hlive⟩ := hi.modify_value n (value.map storedValue)
  have hn := (h.mem_liveOf_iff nm).mp (show n ∈ h.liveOf nm by simp [hL])
  have hnA : n ∉ A := by
    intro hmem
    have hnodup : (h.liveOf nm).Nodup := nodup_range.filter _
    rw [hL] at hnodup
    exact (disjoint_of_nodup_append hnodup) hmem (by simp)
  have hslot (m : Nat) (hm : m ≠ n) :
      (h.modify n fun f => { f with value := value.map storedValue }).slot m = h.slot m :=
    h.slot_modify_of_ne hm
  refine ⟨_, hk, hi'.withCooked k, h.slots_modify_length, rfl, (hlive nm).trans hL, ?_, ?_⟩
  · change List.map _ ((h.modify n fun f => { f with value := value.map storedValue }).liveOf nm) = _
    rw [hlive, hL, map_append]
    congr 1
    · refine map_congr_left fun m hm => ?_
      change (((h.modify n _).slot m).name, ((h.modify n _).slot m).value) = _
      rw [hslot m fun he => hnA (he ▸ hm)]
    · change [(((h.modify n _).slot n).name, ((h.modify n _).slot n).value)] = _
      rw [h.slot_modify_self (h.lt_of_isLive hn.1)]
  · refine fun nm' hne => fieldsOf_congr (hlive nm') fun m hm => ?_
    have hmn : m ≠ n := by
      rintro rfl
      exact hne (((h.mem_liveOf_iff nm').mp hm).2.symm.trans hn.2)
    change ((h.modify n _).slot m).name = _ ∧ ((h.modify n _).slot m).value = _
    rw [hslot m hmn]
    exact ⟨rfl, rfl⟩

theorem Inv.attach_last (hi : Inv h) (hn : h.slots.length = n + 1) (hd : (h.slot n).readiness = .detached) {c : Bool}
    (hc : c = true ∨ h.liveOf (lower (h.slot n).name) = []) : ∃ g, h.attach n c none = some g ∧ Inv g ∧ Kept h g ∧
      g.liveOf (lower (h.slot n).name) = h.liveOf (lower (h.slot n).name) ++ [n] ∧
      ∀ nm, nm ≠ lower (h.slot n).name → g.liveOf nm = h.liveOf nm := by
  have hlt : n < h.slots.length := by omega
  have hdead : isLive (h.slot n) = false := by simp [isLive, hd]
  have hbehind (nm : Bytes) : h.behind nm n = [] := by
    rw [behind, hn, Nat.sub_self]
    rfl
  obtain ⟨g, hg, hr, hlive, hig⟩ := hi.attach_eq hlt (.inr (hbehind _)) hc hd
  obtain ⟨k, hk, -⟩ := hig.recook n (g.slot n).value.isSome
  refine ⟨{ g with cookedStuff := k }, by rw [hg, hk], hig.withCooked k,
    ⟨hr.length, hr.blocks, hr.contents⟩, ?_, fun nm hne => hr.liveOf_of_ne hlt hne⟩
  change g.liveOf _ = _
  rw [liveOf_of_live hr hlt rfl hlive, liveOf_of_not_live (.refl h n) hlt hdead, hbehind, append_nil]

theorem Inv.fieldCreateNamed (hi : Inv h) {name : Bytes} (h0 : 0 ∉ name)
    (hlen : name.length < 2 ^ 16) {addr : Nat} (hap : Apart (h.fieldCreate addr).blocks) :
    ∃ g, (h.fieldCreate addr).fieldNameSet h.slots.length (hdrtokenTokenize name) name = g ∧ Inv g ∧
      g.slots.length = h.slots.length + 1 ∧ g.blocks = (h.fieldCreate addr).blocks ∧
      (g.slot h.slots.length).readiness = .detached ∧ (g.slot h.slots.length).name = name ∧
      (∀ m, m ≠ h.slots.length → g.slot m = h.slot m) ∧ (∀ nm, g.liveOf nm = h.liveOf nm) := by
  obtain ⟨hi1, hslot1, hlive1, -⟩ := hi.fieldCreate hap
  have hlen1 : (h.fieldCreate addr).slots.length = h.slots.length + 1 := by simp [MIMEHdr.fieldCreate]
  have hnew : (h.fieldCreate addr).slot h.slots.length = {} := by rw [hslot1, h.slot_of_ge le_rfl]
  have hdead : isLive ((h.fieldCreate addr).slot h.slots.length) = false := by
    rw [hnew]
    rfl
  obtain ⟨hi2, hlive2⟩ := hi1.fieldNameSet hdead h0 hlen
  have hself : ((h.fieldCreate addr).fieldNameSet h.slots.length (hdrtokenTokenize name) name).slot
      h.slots.length = { ({} : MIMEField) with
        wksIdx := hdrtokenTokenize name
        name := name
        cooked := decide (hdrtokenTokenize name = some wksidxCacheControl ∨
          hdrtokenTokenize name = some wksidxPragma) } := by
    rw [MIMEHdr.fieldNameSet, slot_modify_self _ (by omega), hnew, Nat.mod_eq_of_lt hlen, take_length]
    rfl
  refine ⟨_, rfl, hi2, ?_, rfl, by rw [hself], by rw [hself], fun m hm => ?_, fun nm => ?_⟩
  · rw [MIMEHdr.fieldNameSet, slots_modify_length, hlen1]
  · rw [MIMEHdr.fieldNameSet, slot_modify_of_ne _ hm, hslot1]
  · rw [hlive2, hlive1]

theorem Inv.attachNew (hi : Inv h) {name : Bytes} (h0 : 0 ∉ name) (hlen : name.length < 2 ^ 16)
    {addr : Nat} (hap : Apart (h.fieldCreate addr).blocks) {c : Bool} (hc : c = true ∨ h.liveOf (lower name) = []) :
    ∃ g, ((h.fieldCreate addr).fieldNameSet h.slots.length (hdrtokenTokenize name) name).attach
        h.slots.length c none = some g ∧ Inv g ∧ g.slots.length = h.slots.length + 1 ∧
      g.blocks = (h.fieldCreate addr).blocks ∧ g.liveOf (lower name) = h.liveOf (lower name) ++ [h.slots.length] ∧
      (g.slot h.slots.length).name = name ∧
      (h.liveOf (lower name)).map (fun m => ((g.slot m).name, (g.slot m).value)) =
        h.fieldsOf (lower name) ∧ SameBut (lower name) h g := by
  obtain ⟨g1, hg1, hi1, hlen1, hb1, hd1, hname1, hslot1, hlive1⟩ := hi.fieldCreateNamed h0 hlen hap
  obtain ⟨g, hg, hi', hk, hL, hne⟩ := hi1.attach_last hlen1 hd1 (c := c) (by rwa [hname1, hlive1])
  have hmem {nm : Bytes} {m : Nat} (hm : m ∈ h.liveOf nm) : m ≠ h.slots.length := by
    have := ((h.mem_liveOf nm).mp hm).1
    omega
  have hsame {nm : Bytes} {m : Nat} (hm : m ∈ h.liveOf nm) :
      (g.slot m).name = (h.slot m).name ∧ (g.slot m).value = (h.slot m).value := by
    rw [hk.name, hk.value, hslot1 m (hmem hm)]
    exact ⟨rfl, rfl⟩
  rw [hname1] at hL hne
  refine ⟨g, by rw [hg1, hg], hi', hk.length.trans hlen1, hk.blocks.trans hb1, by rw [hL, hlive1],
    by rw [hk.name, hname1], map_congr_left fun m hm => ?_, fun nm hnm => ?_⟩
  · rw [(hsame hm).1, (hsame hm).2]
  · exact fieldsOf_congr ((hne nm hnm).trans (hlive1 nm)) fun m hm => hsame hm

variable {name : HdrName} {addr : Nat → Nat} {value : Option Bytes}

def Storable (value : Option Bytes) : Prop := ∀ v ∈ value, v.length < 2 ^ 24

theorem Storable.map_storedValue (hv : Storable value) : value.map storedValue = value := by
  cases value with
  | none => rfl
  | some v => rw [Option.map_some, storedValue, Nat.mod_eq_of_lt (hv v rfl), take_length]

/-- **A field that is added comes behind those of its name.** -/
theorem Inv.fieldAdd (hi : Inv h) (hg : GoodName name) (hroom : Roomy addr 1 h) (hv : Storable value) :
    ∃ g, h.fieldAdd name value (addr h.blocks.length) = some g ∧ Inv g ∧ Grown addr 1 h g ∧
      g.slots.length = h.slots.length + 1 ∧ (∃ A, g.liveOf (lower name.bytes) = A ++ [h.slots.length]) ∧
      g.fieldsOf (lower name.bytes) = h.fieldsOf (lower name.bytes) ++ [(name.bytes, value)] ∧
      SameBut (lower name.bytes) h g := by
  obtain ⟨htok, h0, hlen⟩ := hg.bytes
  obtain ⟨g1, hg1, hi1, hlen1, hb1, hL1, hname1, hmap1, hs1⟩ :=
    hi.attachNew h0 hlen hroom.fieldCreate (c := true) (.inl rfl)
  obtain ⟨g, hg, hi', hlen', hb', hL', hfields, hs'⟩ := hi1.storeValue_last hL1 value
  refine ⟨g, ?_, hi', ?_, hlen'.trans hlen1, ⟨_, hL'⟩, ?_, hs1.trans hs'⟩
  · rw [MIMEHdr.fieldAdd, MIMEHdr.fieldCreateNamed, htok, hg1]
    exact hg
  · obtain ⟨j, hj, hb⟩ := Grown.fieldCreate addr h
    exact ⟨j, hj, by rw [hb', hb1, hb]⟩
  · rw [hfields, hmap1, hname1, hv.map_storedValue]

theorem Inv.addField_value (hi : Inv h) {name : Bytes} (h0 : 0 ∉ name) (hlen : name.length < 2 ^ 16)
    (hroom : Roomy addr 1 h) (hnil : h.liveOf (lower name) = []) (hv : Storable value) :
    ∃ g1 g, h.addField (hdrtokenTokenize name) name (addr h.blocks.length) = some g1 ∧
      g1.fieldValueSet h.slots.length value = some g ∧ Inv g ∧ Grown addr 1 h g ∧
      g.valuesOf (lower name) = [value] ∧ SameBut (lower name) h g := by
  obtain ⟨g1, hg1, hi1, hlen1, hb1, hL1, hname1, hmap1, hs1⟩ :=
    hi.attachNew h0 hlen hroom.fieldCreate (c := false) (.inr hnil)
  obtain ⟨g, hg, hi', hlen', hb', -, hfields, hs'⟩ := hi1.storeValue_last hL1 value
  refine ⟨g1, g, hg1, hg, hi', ?_, ?_, hs1.trans hs'⟩
  · obtain ⟨j, hj, hb⟩ := Grown.fieldCreate addr h
    exact ⟨j, hj, by rw [hb', hb1, hb]⟩
  · rw [valuesOf_eq_map, hfields, hmap1, fieldsOf_eq_nil.mpr hnil, hv.map_storedValue]
    rfl

/-- **`value_set` leaves one field of the name.** -/
theorem Inv.valueSet (hi : Inv h) (hg : GoodName name) (hroom : Roomy addr 1 h) (hv : Storable value) :
    ∃ g, h.valueSet name value (addr h.blocks.length) = some g ∧ Inv g ∧ Grown addr 1 h g ∧
      g.valuesOf (lower name.bytes) = [value] ∧ SameBut (lower name.bytes) h g := by
  obtain ⟨htok, h0, hlen⟩ := hg.bytes
  have hfind := hi.find_name hg
  rw [MIMEHdr.valueSet, MIMEHdr.prepareForValueSet, MIMEHdr.preparedField]
  cases hf : h.find name with
  | none =>
    rw [hf, eq_comm, head?_eq_none_iff] at hfind
    obtain ⟨g1, g, hg1, hg, hrest⟩ := hi.addField_value h0 hlen hroom hfind hv
    exact ⟨g, by rw [htok, hg1]; exact hg, hrest⟩
  | some n =>
    rw [hf] at hfind
    have hmem := (h.mem_liveOf_iff _).mp (mem_of_mem_head? hfind.symm)
    dsimp only
    by_cases hnext : h.next n = none
    · -- the only field of the name
      have hL : h.liveOf (lower name.bytes) = [] ++ [n] := by
        rw [hi.next_eq hmem.1 hmem.2.symm, head?_eq_none_iff] at hnext
        rw [liveOf_of_live (.refl h n) (h.lt_of_isLive hmem.1) hmem.2.symm hmem.1, before_of_head? hfind.symm, hnext]
      obtain ⟨g, hg, hi', -, hb, -, hfields, hs⟩ := hi.storeValue_last hL value
      refine ⟨g, by rw [if_pos hnext, if_pos hnext]; exact hg, hi', (Grown.of_blocks hb).mono (by omega), ?_, hs⟩
      rw [valuesOf_eq_map, hfields, hv.map_storedValue]
      rfl
    · obtain ⟨g0, hd, hi0, hlen0, hb0, hnil, hs0, -⟩ := hi.fieldDelete hg
      rw [MIMEHdr.fieldDelete, hf] at hd
      have hwks : (h.slot n).wksIdx = hdrtokenTokenize name.bytes := by
        rw [hi.wksIdx]
        exact hdrtokenTokenize_congr hmem.2
      have hroom0 : Roomy addr 1 g0 := by rwa [Roomy, hb0]
      obtain ⟨g1, g, hg1, hg, hi', hgrown, hval, hs⟩ := hi0.addField_value h0 hlen hroom0 (fieldsOf_eq_nil.mp hnil) hv
      refine ⟨g, ?_, hi', ?_, hval, hs0.trans hs⟩
      · have hd : h.delete n true = some g0 := hd
        rw [if_neg hnext, if_neg hnext, hd, hwks, ← hlen0, ← hb0]
        simp only [Option.bind_eq_bind, Option.bind_some]
        rw [hg1, Option.bind_some, hg]
      · exact (Grown.of_blocks hb0).trans hgrown

end Fields

end MIMEHdr

end TrafficServer
