import TrafficServer.Hdrs.MIMEHdrCook

/-!
# The operations of headers

Each operation that meets its conditions returns, and keeps the invariant of headers. It keeps the
cooked values fresh, too, unless it attaches a field without a value to a name that is cooked and
has other live fields (`Shown`).
-/

namespace TrafficServer

namespace MIMEHdr

open List HdrToken HttpCompat

/-! ### Attach, detach, delete -/

/-- What the operations on links keep of a header: all but the links and the cooked values. -/
structure Kept (h h' : MIMEHdr) : Prop where
  length : h'.slots.length = h.slots.length
  blocks : h'.blocks = h.blocks
  contents : ∀ m, fieldContents (h'.slot m) = fieldContents (h.slot m)

section Links
variable {h h' h'' g : MIMEHdr} {n : Nat} {nm : Bytes}

variable {old new blocks : List Nat} {f : MIMEField → MIMEField}

theorem Kept.trans (hk : Kept h h') (hk' : Kept h' h'') : Kept h h'' :=
  ⟨hk'.length.trans hk.length, hk'.blocks.trans hk.blocks, fun m => (hk'.contents m).trans (hk.contents m)⟩

theorem Kept.name (hk : Kept h h') (m : Nat) : (h'.slot m).name = (h.slot m).name := congrArg (·.1) (hk.contents m)

theorem Relinked.valuesOf (hr : Relinked h g n) (hn : n < h.slots.length)
    (hnm : nm ≠ lower (h.slot n).name) : g.valuesOf nm = h.valuesOf nm := by
  rw [MIMEHdr.valuesOf, MIMEHdr.valuesOf, hr.liveOf_of_ne hn hnm]
  exact map_congr_left fun m _ => hr.value m

/-- A field that is to be attached has a value, or its name is not cooked, or no other field of its
name is live. -/
def Shown (h : MIMEHdr) (n : Nat) : Prop :=
  (h.slot n).value.isSome ∨
    (lower (h.slot n).name ≠ ccName ∧ lower (h.slot n).name ≠ pragmaName) ∨
    h.liveOf (lower (h.slot n).name) = []
deriving Decidable

theorem cookCacheControl_null : MIMECooked.cookCacheControl [none] = MIMECooked.cookCacheControl [] := rfl

theorem cookPragma_null : MIMECooked.cookPragma [none] = MIMECooked.cookPragma [] := rfl

theorem valuesOf_only (hr : Relinked h g n) (hn : n < h.slots.length)
    (hnm : nm = lower (h.slot n).name) (hdead : isLive (h.slot n) = false) (hlive : isLive (g.slot n))
    (hnil : h.liveOf nm = []) : h.valuesOf nm = [] ∧ g.valuesOf nm = [(h.slot n).value] := by
  have hsplit : h.liveOf nm = h.before nm n ++ h.behind nm n := liveOf_of_not_live (.refl h n) hn hdead
  rw [hnil] at hsplit
  obtain ⟨hA, hB⟩ := append_eq_nil_iff.mp hsplit.symm
  rw [valuesOf, valuesOf, hnil, liveOf_of_live hr hn hnm hlive, hA, hB]
  simp [hr.value]

theorem Inv.attach_eq (hi : Inv h) (hn : n < h.slots.length) (hfits : Attachable h n) {c : Bool}
    (hc : c = true ∨ h.liveOf (lower (h.slot n).name) = []) (hd : (h.slot n).readiness = .detached) :
    ∃ g, h.attach n c none = g.recook n (g.slot n).value.isSome ∧ Relinked h g n ∧ isLive (g.slot n) ∧ Inv g := by
  obtain ⟨g, hg, hr, hlive, hig⟩ := hi.attachLink hn hd hfits
  have hprev : (if (c || (none : Option Nat).any fun p => !(h.slot p).dupHead) = true then
      h.find (nameGet (h.slot n)) else none) = (h.liveOf (lower (h.slot n).name)).head? := by
    rcases hc with rfl | hnil
    · exact hi.find_nameGet n
    · rw [hi.find_nameGet, hnil]
      simp
  refine ⟨g, ?_, hr, hlive, hig⟩
  rw [attach, if_neg (not_not.mpr hd)]
  simp only [hprev]
  change (((h.enliven n).attachLink n _).bind fun g => g.recook n (g.slot n).value.isSome) = _
  rw [hg]
  rfl

theorem Inv.attach (hi : Inv h) (hn : n < h.slots.length) (hfits : Attachable h n) {c : Bool}
    (hc : c = true ∨ h.liveOf (lower (h.slot n).name) = []) :
    ∃ g, h.attach n c none = some g ∧ Inv g ∧ Kept h g ∧ (Shown h n → Fresh h → Fresh g) := by
  by_cases hd : (h.slot n).readiness = .detached
  case neg =>
    refine ⟨h, ?_, hi, ⟨rfl, rfl, fun _ => rfl⟩, fun _ hf => hf⟩
    rw [MIMEHdr.attach, if_pos hd]
  have hdead : isLive (h.slot n) = false := by simp [isLive, hd]
  obtain ⟨g, hg, hr, hlive, hig⟩ := hi.attach_eq hn hfits hc hd
  obtain ⟨k, hk, hfresh⟩ := hig.recook n (g.slot n).value.isSome
  refine ⟨{ g with cookedStuff := k }, by rw [hg, hk], hig.withCooked k,
    ⟨hr.length, hr.blocks, hr.contents⟩, fun hs hf => ?_⟩
  -- without a value the field is not cooked, and is the only one of its name if that is
  have hcase (nm : Bytes) (hnm : nm = ccName ∨ nm = pragmaName)
      (h1 : nm ≠ lower (g.slot n).name ∨ (g.slot n).value.isSome = false) :
      g.valuesOf nm = h.valuesOf nm ∨ (h.valuesOf nm = [] ∧ g.valuesOf nm = [none]) := by
    rw [hr.name, hr.value] at h1
    by_cases hne : nm = lower (h.slot n).name
    · have hnull : (h.slot n).value = none := by simpa using h1.resolve_left fun h2 => h2 hne
      have hnil : h.liveOf nm = [] := by
        rw [hne]
        refine (hs.resolve_left (by simp [hnull])).resolve_left fun h2 => ?_
        rcases hnm with rfl | rfl
        · exact h2.1 hne.symm
        · exact h2.2 hne.symm
      rw [← hnull]
      exact .inr (valuesOf_only hr hn hne hdead hlive hnil)
    · exact .inl (hr.valuesOf hn hne)
  refine hfresh h hf hr.cookedStuff (fun h1 => ?_) fun h1 => ?_
  · rcases hcase _ (.inl rfl) h1 with he | ⟨he, he'⟩
    · rw [he]
    · rw [he, he', cookCacheControl_null]
  · rcases hcase _ (.inr rfl) h1 with he | ⟨he, he'⟩
    · rw [he]
    · rw [he, he', cookPragma_null]

/-- What is left of the live fields after one is detached. -/
structure Detached (h g : MIMEHdr) (n : Nat) : Prop where
  inv : Inv g
  kept : Kept h g
  fresh : Fresh h → Fresh g
  readiness : (g.slot n).readiness = .detached
  others : ∀ m, m ≠ n → (g.slot m).readiness = (h.slot m).readiness
  liveOf : ∀ nm, nm = lower (h.slot n).name → g.liveOf nm = h.before nm n ++ h.behind nm n

theorem Inv.detachOne (hi : Inv h) (hl : isLive (h.slot n)) : ∃ g, h.detachOne n = some g ∧ Detached h g n := by
  have hn := h.lt_of_isLive hl
  obtain ⟨g, hg, hr, hready, hig⟩ := hi.detachLink hl
  obtain ⟨k, hk, hfresh⟩ := hig.recook n true
  have hdead : isLive ((g.enfree n).slot n) = false := by simp [isLive, hready]
  refine ⟨{ g.enfree n with cookedStuff := k }, ?_, hig.withCooked k,
    ⟨hr.length, hr.blocks, hr.contents⟩, fun hf => ?_, hready, hr.readiness, fun nm _ => ?_⟩
  · rw [MIMEHdr.detachOne, hg]
    exact hk
  · refine hfresh h hf hr.cookedStuff (fun h1 => ?_) fun h1 => ?_
    · rw [hr.valuesOf hn (by simpa [hr.name] using h1)]
    · rw [hr.valuesOf hn (by simpa [hr.name] using h1)]
  · have hL : (g.enfree n).liveOf nm = h.before nm n ++ h.behind nm n := liveOf_of_not_live hr hn hdead
    exact hL

theorem Inv.next_eq (hi : Inv h) (hl : isLive (h.slot n)) (hnm : nm = lower (h.slot n).name) :
    h.next n = (h.behind nm n).head? := by
  have hchain := hi.chain nm
  rw [liveOf_of_live (.refl h n) (h.lt_of_isLive hl) hnm hl] at hchain
  exact hchain.next_eq

theorem Detached.live_of_next (hi : Inv h) (hd : Detached h g n) (hl : isLive (h.slot n))
    (hnm : nm = lower (h.slot n).name) {m : Nat} (hm : h.next n = some m) :
    isLive (g.slot m) ∧ lower (g.slot m).name = nm ∧ ∃ B, h.behind nm n = m :: B := by
  rw [hi.next_eq hl hnm] at hm
  obtain ⟨B, hB⟩ : ∃ B, h.behind nm n = m :: B := by
    cases hB : h.behind nm n with
    | nil => simp [hB] at hm
    | cons x B =>
      obtain rfl : x = m := by simpa [hB] using hm
      exact ⟨B, rfl⟩
  have hmem : m ∈ g.liveOf nm := by
    rw [hd.liveOf nm hnm, hB]
    simp
  exact ⟨((g.mem_liveOf_iff nm).mp hmem).1, ((g.mem_liveOf_iff nm).mp hmem).2, B, hB⟩

variable {fuel : Nat}

theorem Inv.detach (all : Bool) (hi : Inv h) (hl : isLive (h.slot n))
    (hfuel : (h.liveOf (lower (h.slot n).name)).length ≤ fuel) :
    ∃ g, detach fuel h n all = some g ∧ Inv g ∧ Kept h g ∧ (Fresh h → Fresh g) := by
  induction fuel generalizing h n with
  | zero =>
    have hmem : n ∈ h.liveOf (lower (h.slot n).name) := (h.mem_liveOf_iff _).mpr ⟨hl, rfl⟩
    rw [length_eq_zero_iff.mp (Nat.le_zero.mp hfuel)] at hmem
    cases hmem
  | succ fuel ih =>
    obtain ⟨g, hg, hd⟩ := hi.detachOne hl
    rw [detach, hg]
    cases hm : h.next n with
    | none => exact ⟨g, rfl, hd.inv, hd.kept, hd.fresh⟩
    | some m =>
      cases all with
      | false => exact ⟨g, rfl, hd.inv, hd.kept, hd.fresh⟩
      | true =>
        obtain ⟨hlm, hname, B, hB⟩ := hd.live_of_next hi hl rfl hm
        have hlen : (g.liveOf (lower (g.slot m).name)).length ≤ fuel := by
          rw [liveOf_of_live (.refl h n) (h.lt_of_isLive hl) rfl hl] at hfuel
          rw [hname, hd.liveOf _ rfl]
          simp at hfuel ⊢
          omega
        obtain ⟨g', hg', hi', hk', hf'⟩ := ih hd.inv hlm hlen
        exact ⟨g', hg', hi', hd.kept.trans hk', fun hf => hf' (hd.fresh hf)⟩

/-! ### Stores to fields that are not live -/

theorem liveOf_congr (hlen : g.slots.length = h.slots.length)
    (hnamed : ∀ m, g.named nm m = h.named nm m) : g.liveOf nm = h.liveOf nm := by
  rw [liveOf, liveOf, hlen]
  exact filter_congr fun m _ => hnamed m

theorem Inv.modify_dead (hi : Inv h) (hdead : isLive (h.slot n) = false)
    (hf : isLive (f (h.slot n)) = false) (hnext : (f (h.slot n)).nextDup = none)
    (hwks : (f (h.slot n)).wksIdx = hdrtokenTokenize (f (h.slot n)).name) (hname : 0 ∉ (f (h.slot n)).name)
    (hcooked : (f (h.slot n)).wksIdx = some wksidxCacheControl ∨
      (f (h.slot n)).wksIdx = some wksidxPragma → (f (h.slot n)).cooked = true) :
    Inv (h.modify n f) ∧ ∀ nm, (h.modify n f).liveOf nm = h.liveOf nm := by
  by_cases hn : n < h.slots.length
  swap
  · have hsame : h.modify n f = h := by rw [modify, modify_eq_self (Nat.le_of_not_lt hn)]
    rw [hsame]
    exact ⟨hi, fun _ => rfl⟩
  have hself := h.slot_modify_self (f := f) hn
  have hne {m : Nat} (hm : m ≠ n) : (h.modify n f).slot m = h.slot m := h.slot_modify_of_ne hm
  have hlive (nm : Bytes) : (h.modify n f).liveOf nm = h.liveOf nm := by
    refine liveOf_congr h.slots_modify_length fun m => ?_
    by_cases hm : m = n
    · rw [hm, named, named, hself, hf, hdead]
      rfl
    · rw [named, named, hne hm]
  have hmem {nm : Bytes} {m : Nat} (hm : m ∈ h.liveOf nm) : m ≠ n := fun he => by
    have := ((h.mem_liveOf_iff nm).mp hm).1
    rw [he, hdead] at this
    cases this
  refine ⟨⟨hi.apart, by rw [h.slots_modify_length]; exact hi.room, fun m => ?_, fun m => ?_,
    fun m => ?_, fun m => ?_, fun nm => ?_, fun nm m hm => ?_, ?_⟩, hlive⟩
  · by_cases hm : m = n
    · rw [hm, hself, hwks]
    · rw [hne hm, hi.wksIdx]
  · by_cases hm : m = n
    · rw [hm, hself]
      exact hname
    · rw [hne hm]
      exact hi.name m
  · by_cases hm : m = n
    · rw [hm, hself]
      exact hcooked
    · rw [hne hm]
      exact hi.cooked m
  · by_cases hm : m = n
    · rw [hm, next, hself]
      exact fun _ => hnext
    · rw [next, hne hm]
      exact hi.alone m
  · rw [hlive nm]
    exact (hi.chain nm).congr fun m hm => by rw [next, hne (hmem hm), next]
  · rw [hlive nm] at hm ⊢
    rw [hne (hmem hm)]
    exact hi.heads nm m hm
  · exact hi.index.congr rfl rfl fun i _ => by rw [firstOf, hlive, firstOf]

theorem valuesOf_modify_dead (hdead : isLive (h.slot n) = false)
    (hlive : (h.modify n f).liveOf nm = h.liveOf nm) : (h.modify n f).valuesOf nm = h.valuesOf nm := by
  rw [valuesOf, valuesOf, hlive]
  refine map_congr_left fun m hm => ?_
  have hmn : m ≠ n := fun he => by
    have := ((h.mem_liveOf_iff nm).mp hm).1
    rw [he, hdead] at this
    cases this
  rw [h.slot_modify_of_ne hmn]

theorem Fresh.of_valuesOf (hf : Fresh h) (hstuff : g.cookedStuff = h.cookedStuff)
    (hval : ∀ nm, g.valuesOf nm = h.valuesOf nm) : Fresh g :=
  ⟨by rw [hval, hstuff]; exact hf.cacheControl, by rw [hval, hstuff]; exact hf.pragma⟩

theorem Inv.fieldDestroy (hi : Inv h) (hd : (h.slot n).readiness = .detached) :
    Inv (h.fieldDestroy n) ∧ Kept h (h.fieldDestroy n) ∧ (Fresh h → Fresh (h.fieldDestroy n)) ∧
      ∀ nm, (h.fieldDestroy n).liveOf nm = h.liveOf nm := by
  have hdead : isLive (h.slot n) = false := by simp [isLive, hd]
  obtain ⟨hi', hlive⟩ := hi.modify_dead (f := fun f => { f with readiness := .deleted }) hdead rfl
    (hi.alone n hdead) (hi.wksIdx n) (hi.name n) (hi.cooked n)
  refine ⟨hi', ⟨h.slots_modify_length, rfl, fun m => ?_⟩, fun hf => ?_, hlive⟩
  · exact h.slot_modify_keeps fieldContents (fun _ => by rfl) m
  · exact hf.of_valuesOf rfl fun nm => valuesOf_modify_dead hdead (hlive nm)

theorem before_of_liveOf {A B : List Nat} (hL : h.liveOf nm = A ++ n :: B) : h.before nm n = A := by
  have hmem := (h.mem_liveOf nm).mp (show n ∈ h.liveOf nm by simp [hL])
  rw [h.liveOf_split nm hmem.1, hmem.2] at hL
  have hA : n ∉ h.before nm n := fun hm => (h.lt_of_mem_before nm hm).false
  have hB : n ∉ h.behind nm n := fun hm => (h.lt_of_mem_behind nm hm).false
  exact ((append_cons_inj_of_notMem hA hB).mp hL).1

theorem Inv.deleteLoop (hi : Inv h) (hl : isLive (h.slot n)) (hnm : nm = lower (h.slot n).name)
    (hfuel : (h.liveOf nm).length ≤ fuel) :
    ∃ g, deleteLoop fuel h (some n) = some g ∧ Inv g ∧ Kept h g ∧ (Fresh h → Fresh g) ∧
      g.liveOf nm = h.before nm n := by
  induction fuel generalizing h n with
  | zero =>
    have hmem : n ∈ h.liveOf nm := (h.mem_liveOf_iff _).mpr ⟨hl, hnm.symm⟩
    rw [length_eq_zero_iff.mp (Nat.le_zero.mp hfuel)] at hmem
    cases hmem
  | succ fuel ih =>
    obtain ⟨g, hg, hd⟩ := hi.detachOne hl
    obtain ⟨hi2, hk2, hf2, hlive2⟩ := hd.inv.fieldDestroy hd.readiness
    rw [deleteLoop, hg]
    cases hm : h.next n with
    | none =>
      refine ⟨g.fieldDestroy n, by cases fuel <;> rfl, hi2, hd.kept.trans hk2, fun hf => hf2 (hd.fresh hf), ?_⟩
      rw [hi.next_eq hl hnm, head?_eq_none_iff] at hm
      rw [hlive2, hd.liveOf nm hnm, hm, append_nil]
    | some m =>
      obtain ⟨-, hname, B, hB⟩ := hd.live_of_next hi hl hnm hm
      have hL2 : (g.fieldDestroy n).liveOf nm = h.before nm n ++ m :: B := by rw [hlive2, hd.liveOf nm hnm, hB]
      have hm2 := ((g.fieldDestroy n).mem_liveOf_iff nm).mp (show m ∈ (g.fieldDestroy n).liveOf nm by simp [hL2])
      have hlen : ((g.fieldDestroy n).liveOf nm).length ≤ fuel := by
        rw [liveOf_of_live (.refl h n) (h.lt_of_isLive hl) hnm hl] at hfuel
        rw [hL2]
        simp [hB] at hfuel ⊢
        omega
      obtain ⟨g', hg', hi', hk', hf', hL'⟩ := ih hi2 hm2.1 hm2.2.symm hlen
      refine ⟨g', hg', hi', (hd.kept.trans hk2).trans hk', fun hf => hf' (hf2 (hd.fresh hf)), ?_⟩
      rw [hL', before_of_liveOf hL2]

theorem Inv.delete (hi : Inv h) (hl : isLive (h.slot n)) (all : Bool) :
    ∃ g, h.delete n all = some g ∧ Inv g ∧ Kept h g ∧ (Fresh h → Fresh g) ∧
      (all = true → g.liveOf (lower (h.slot n).name) = h.before (lower (h.slot n).name) n) := by
  rw [MIMEHdr.delete]
  cases all with
  | true =>
    obtain ⟨g, hg, hi', hk, hf, hL⟩ := hi.deleteLoop hl rfl (liveOf_length_le _)
    exact ⟨g, by rw [if_pos rfl, hg], hi', hk, hf, fun _ => hL⟩
  | false =>
    obtain ⟨g, hg, hd⟩ := hi.detachOne hl
    obtain ⟨hi2, hk2, hf2, -⟩ := hd.inv.fieldDestroy hd.readiness
    refine ⟨g.fieldDestroy n, by rw [if_neg (by decide), hg]; rfl, hi2, hd.kept.trans hk2,
      fun hf => hf2 (hd.fresh hf), by simp⟩

/-! ### Names, values and new fields -/

/-- A name that a field can have: a well-known one, or one without null bytes that is short enough. -/
def GoodName (name : HdrName) : Prop :=
  match name with
  | .wks i => i < hdrtokenNumWks
  | .str s => 0 ∉ s ∧ s.length < 2 ^ 16

instance : (name : HdrName) → Decidable (GoodName name)
  | .wks _ => inferInstanceAs (Decidable (_ < _))
  | .str _ => inferInstanceAs (Decidable (_ ∧ _))

theorem GoodName.bytes {name : HdrName} (hg : GoodName name) :
    name.tokenize = hdrtokenTokenize name.bytes ∧ 0 ∉ name.bytes ∧ name.bytes.length < 2 ^ 16 := by
  cases name with
  | wks i => exact ⟨(hdrtokenTokenize_wks hg).symm, hdrtokenIndexToWks_plain hg⟩
  | str s => exact ⟨rfl, hg⟩

variable {name : Bytes}

theorem Inv.fieldNameSet (hi : Inv h) (hdead : isLive (h.slot n) = false) (h0 : 0 ∉ name)
    (hlen : name.length < 2 ^ 16) : Inv (h.fieldNameSet n (hdrtokenTokenize name) name) ∧
      ∀ nm, (h.fieldNameSet n (hdrtokenTokenize name) name).liveOf nm = h.liveOf nm := by
  have htake : name.take (name.length % 2 ^ 16) = name := by rw [Nat.mod_eq_of_lt hlen, take_length]
  refine hi.modify_dead hdead hdead (hi.alone n hdead) ?_ ?_ ?_
  · dsimp only
    rw [htake]
  · dsimp only
    rwa [htake]
  · intro hw
    simp [hw]

theorem Inv.nameSet (hi : Inv h) (hdead : isLive (h.slot n) = false) {name : HdrName} (hg : GoodName name) :
    Inv (h.nameSet n name) ∧ (Fresh h → Fresh (h.nameSet n name)) := by
  have hset {s : Bytes} (h0 : 0 ∉ s) (hlen : s.length < 2 ^ 16) : Inv (h.fieldNameSet n (hdrtokenTokenize s) s) ∧
        (Fresh h → Fresh (h.fieldNameSet n (hdrtokenTokenize s) s)) := by
    obtain ⟨hi', hlive⟩ := hi.fieldNameSet hdead h0 hlen
    exact ⟨hi', fun hf => hf.of_valuesOf rfl fun nm => valuesOf_modify_dead hdead (hlive nm)⟩
  have hwks {i : Nat} (hw : i < hdrtokenNumWks) : Inv (h.fieldNameSet n (some i) (hdrtokenIndexToWks i)) ∧
        (Fresh h → Fresh (h.fieldNameSet n (some i) (hdrtokenIndexToWks i))) := by
    have := hset (hdrtokenIndexToWks_plain hw).1 (hdrtokenIndexToWks_plain hw).2
    rwa [hdrtokenTokenize_wks hw] at this
  cases name with
  | wks i => exact hwks hg
  | str s =>
    rw [MIMEHdr.nameSet]
    cases ht : hdrtokenTokenize s with
    | some i => exact hwks (hdrtokenTokenize_eq_some.mp ht).1
    | none =>
      have := hset hg.1 hg.2
      rwa [ht] at this

theorem Inv.of_slots (hi : Inv h) (hlen : g.slots.length = h.slots.length) (hap : Apart g.blocks)
    (hroom : g.slots.length ≤ 16 * g.blocks.length) (hp : g.presenceBits = h.presenceBits)
    (ha : g.slotAccelerators = h.slotAccelerators)
    (hsame : ∀ m, { g.slot m with value := none } = { h.slot m with value := none }) :
    Inv g ∧ ∀ nm, g.liveOf nm = h.liveOf nm := by
  have hname (m : Nat) : (g.slot m).name = (h.slot m).name := congrArg (·.name) (hsame m)
  have hwks (m : Nat) : (g.slot m).wksIdx = (h.slot m).wksIdx := congrArg (·.wksIdx) (hsame m)
  have hready (m : Nat) : (g.slot m).readiness = (h.slot m).readiness := congrArg (·.readiness) (hsame m)
  have hhead (m : Nat) : (g.slot m).dupHead = (h.slot m).dupHead := congrArg (·.dupHead) (hsame m)
  have hcooked (m : Nat) : (g.slot m).cooked = (h.slot m).cooked := congrArg (·.cooked) (hsame m)
  have hnext : g.next = h.next := funext fun m => congrArg (·.nextDup) (hsame m)
  have hlive (nm : Bytes) : g.liveOf nm = h.liveOf nm :=
    liveOf_congr hlen fun m => by rw [named, named, isLive, isLive, hready, hname]
  refine ⟨⟨hap, hroom, fun m => ?_, fun m => ?_, fun m => ?_, fun m => ?_, fun nm => ?_, fun nm m => ?_, ?_⟩, hlive⟩
  · rw [hwks, hname, hi.wksIdx]
  · rw [hname]
    exact hi.name m
  · rw [hwks, hcooked]
    exact hi.cooked m
  · rw [isLive, hready, hnext]
    exact hi.alone m
  · rw [hlive, hnext]
    exact hi.chain nm
  · rw [hlive, hhead]
    exact hi.heads nm m
  · exact hi.index.congr hp ha fun i _ => by rw [firstOf, hlive, firstOf]

theorem Inv.modify_value (hi : Inv h) (n : Nat) (value : Option Bytes) :
    Inv (h.modify n fun f => { f with value := value }) ∧
      ∀ nm, (h.modify n fun f => { f with value := value }).liveOf nm = h.liveOf nm := by
  exact hi.of_slots h.slots_modify_length hi.apart (by rw [h.slots_modify_length]; exact hi.room) rfl rfl
    (h.slot_modify_keeps (f := fun f => { f with value := value }) ({ · with value := none }) fun _ => rfl)

theorem Inv.storeValue (hi : Inv h) (n : Nat) (value : Option Bytes) :
    ∃ g, h.storeValue n value = some g ∧ Inv g ∧ (Fresh h → Fresh g) := by
  obtain ⟨hig, hlive⟩ := hi.modify_value n (value.map storedValue)
  obtain ⟨g, hg⟩ : ∃ g, g = h.modify n fun f => { f with value := value.map storedValue } := ⟨_, rfl⟩
  rw [← hg] at hig hlive
  have hname : (g.slot n).name = (h.slot n).name := by
    rw [hg]
    exact h.slot_modify_keeps (·.name) (fun _ => by rfl) n
  obtain ⟨k, hk, hfresh⟩ := hig.recook n (isLive (h.slot n))
  refine ⟨{ g with cookedStuff := k }, by rw [MIMEHdr.storeValue, ← hg, hk], hig.withCooked k, fun hf => ?_⟩
  -- the values of another name, or of live fields if this one is not
  have hval (nm : Bytes) (h1 : nm ≠ lower (g.slot n).name ∨ isLive (h.slot n) = false) :
      g.valuesOf nm = h.valuesOf nm := by
    rw [valuesOf, valuesOf, hlive]
    refine map_congr_left fun m hm => ?_
    have hm := (h.mem_liveOf_iff nm).mp hm
    have hmn : m ≠ n := by
      rintro rfl
      rcases h1 with h1 | h1
      · exact h1 (by rw [hname, hm.2])
      · simp [h1] at hm
    rw [hg, h.slot_modify_of_ne hmn]
  have hstuff : g.cookedStuff = h.cookedStuff := by
    rw [hg]
    rfl
  exact hfresh h hf hstuff (fun h1 => by rw [hval _ h1]) fun h1 => by rw [hval _ h1]

theorem scanTok_length_le (sep : UInt8) (inQuote : Bool) (s : Bytes) :
    (scanTok sep inQuote s).2.length ≤ s.length := by
  induction s generalizing inQuote with
  | nil => exact le_rfl
  | cons c r ih =>
    rw [scanTok]
    split
    · exact le_rfl
    · exact (ih _).trans (by simp)

theorem tokLoop_eq_some (trimQuotes : Bool) (sep : UInt8) {s : Bytes} (index : Nat)
    (hitSep : Bool) (hfuel : s.length < fuel) : ∃ l, tokLoop trimQuotes sep fuel s index hitSep = some l := by
  induction fuel generalizing s index hitSep with
  | zero => omega
  | succ fuel ih =>
    have hdrop := (dropWhile_suffix (l := s) ParseRules.isWs).length_le
    rw [tokLoop]
    split
    · exact ⟨_, rfl⟩
    · next c r hs =>
      rw [hs, length_cons] at hdrop
      split
      · obtain ⟨l, hl⟩ := ih (s := r) (index + 1) true (by omega)
        exact ⟨_, by rw [hl]; rfl⟩
      · have hp : (if c = 34 then scanTok sep true r else scanTok sep false (c :: r)).2.tail.length < fuel := by
          rw [length_tail]
          split
          · have := scanTok_length_le sep true r
            omega
          · have := scanTok_length_le sep false (c :: r)
            rw [length_cons] at this
            omega
        obtain ⟨l, hl⟩ := ih (index + 1) _ hp
        exact ⟨_, by dsimp only; rw [hl]; rfl⟩

theorem Inv.editCommaVals (hi : Inv h) (n : Nat) (edit : List Bytes → Option (Option Bytes)) :
    ∃ g, h.editCommaVals n edit = some g ∧ Inv g ∧ (Fresh h → Fresh g) := by
  obtain ⟨l, hl⟩ : ∃ l, parseTokList false 44 (h.slot n).value = some l := by
    cases (h.slot n).value with
    | none => exact ⟨_, rfl⟩
    | some s => exact tokLoop_eq_some _ _ _ _ (by omega)
  rw [MIMEHdr.editCommaVals, hl]
  cases he : edit l with
  | none => exact ⟨h, by simp [he], hi, fun hf => hf⟩
  | some value =>
    obtain ⟨g, hg, hi', hf⟩ := hi.storeValue n value
    exact ⟨g, by simpa [he] using hg, hi', hf⟩

variable {addr : Nat}

theorem Inv.fieldCreate (hi : Inv h) (hap : Apart (h.fieldCreate addr).blocks) :
    Inv (h.fieldCreate addr) ∧ (∀ m, (h.fieldCreate addr).slot m = h.slot m) ∧
      (∀ nm, (h.fieldCreate addr).liveOf nm = h.liveOf nm) ∧ (Fresh h → Fresh (h.fieldCreate addr)) := by
  have hslot (m : Nat) : (h.fieldCreate addr).slot m = h.slot m := by
    rw [slot, slot, MIMEHdr.fieldCreate, getD_eq_getElem?_getD, getD_eq_getElem?_getD]
    rcases lt_trichotomy m h.slots.length with hlt | rfl | hgt
    · rw [getElem?_append_left hlt]
    · simp
    · rw [getElem?_eq_none (by simp; omega), getElem?_eq_none (by omega)]
  have hlen : (h.fieldCreate addr).slots.length = h.slots.length + 1 := by simp [MIMEHdr.fieldCreate]
  have hnext : (h.fieldCreate addr).next = h.next := funext fun m => by rw [next, hslot, next]
  have hlive (nm : Bytes) : (h.fieldCreate addr).liveOf nm = h.liveOf nm := by
    have hnew : h.named nm h.slots.length = false := by
      rw [named, h.slot_of_ge le_rfl]
      rfl
    have hnamed : (h.fieldCreate addr).named nm = h.named nm := funext fun m => by rw [named, hslot, named]
    rw [liveOf, liveOf, hlen, range_succ, filter_append, hnamed]
    simp [hnew]
  have hroom : (h.fieldCreate addr).slots.length ≤ 16 * (h.fieldCreate addr).blocks.length := by
    have := hi.room
    rw [hlen, MIMEHdr.fieldCreate]
    by_cases hfull : fieldBlockSlots * h.blocks.length ≤ h.slots.length
    · simp only [hfull, if_true, length_append, length_singleton]
      omega
    · simp only [hfull, if_false]
      simp only [fieldBlockSlots] at hfull
      omega
  refine ⟨⟨hap, hroom, fun m => ?_, fun m => ?_, fun m => ?_, fun m => ?_, fun nm => ?_,
    fun nm m => ?_, ?_⟩, hslot, hlive, fun hf => hf.of_valuesOf rfl fun nm => ?_⟩
  · rw [hslot, hi.wksIdx]
  · rw [hslot]
    exact hi.name m
  · rw [hslot]
    exact hi.cooked m
  · rw [hslot, hnext]
    exact hi.alone m
  · rw [hlive, hnext]
    exact hi.chain nm
  · rw [hlive, hslot]
    exact hi.heads nm m
  · exact hi.index.congr rfl rfl fun i _ => by rw [firstOf, hlive, firstOf]
  · rw [valuesOf, hlive, valuesOf]
    exact map_congr_left fun m _ => by rw [hslot]

theorem Inv.addField (hi : Inv h) (hap : Apart (h.fieldCreate addr).blocks) (h0 : 0 ∉ name)
    (hlen : name.length < 2 ^ 16) (hnil : h.liveOf (lower name) = []) :
    ∃ g, h.addField (hdrtokenTokenize name) name addr = some g ∧ Inv g ∧ (Fresh h → Fresh g) := by
  obtain ⟨hi1, hslot1, hlive1, hf1⟩ := hi.fieldCreate hap
  generalize hh1 : h.fieldCreate addr = h1 at hi1 hslot1 hlive1 hf1
  have hn1 : h.slots.length < h1.slots.length := by
    rw [← hh1]
    simp [MIMEHdr.fieldCreate]
  have hdead : isLive (h1.slot h.slots.length) = false := by
    rw [hslot1, h.slot_of_ge le_rfl]
    rfl
  obtain ⟨hi2, hlive2⟩ := hi1.fieldNameSet hdead h0 hlen
  generalize hh2 : h1.fieldNameSet h.slots.length (hdrtokenTokenize name) name = h2 at hi2 hlive2
  have hname2 : (h2.slot h.slots.length).name = name := by
    rw [← hh2, MIMEHdr.fieldNameSet, slot_modify_self _ hn1]
    rw [Nat.mod_eq_of_lt hlen, take_length]
  have hnil2 : h2.liveOf (lower (h2.slot h.slots.length).name) = [] := by rw [hname2, hlive2, hlive1, hnil]
  have hn2 : h.slots.length < h2.slots.length := by
    rw [← hh2, MIMEHdr.fieldNameSet, slots_modify_length]
    exact hn1
  have hfits : Attachable h2 h.slots.length := by
    rw [h2.liveOf_split _ hn2, append_eq_nil_iff] at hnil2
    exact .inl (by rw [hnil2.1]; simp)
  obtain ⟨g, hg, hi', -, hf'⟩ := hi2.attach hn2 hfits (c := false) (.inr hnil2)
  refine ⟨g, by rw [MIMEHdr.addField, hh1, hh2, hg], hi', fun hf => ?_⟩
  refine hf' (.inr (.inr hnil2)) ((hf1 hf).of_valuesOf (by rw [← hh2]; rfl) fun nm => ?_)
  rw [← hh2]
  exact valuesOf_modify_dead hdead (by rw [← hlive2, ← hh2]; rfl)

theorem Inv.prepareForValueSet (hi : Inv h) {name : HdrName} (hg : GoodName name)
    (hap : Apart (h.fieldCreate addr).blocks) :
    ∃ g, h.prepareForValueSet name addr = some g ∧ Inv g ∧ (Fresh h → Fresh g) := by
  obtain ⟨htok, h0, hlen⟩ := hg.bytes
  have hfind : h.find name = (h.liveOf (lower name.bytes)).head? := hi.find_eq fun i he => by rw [he] at hg; exact hg
  rw [MIMEHdr.prepareForValueSet]
  split
  · next hnone =>
    rw [hfind, head?_eq_none_iff] at hnone
    rw [htok]
    exact hi.addField hap h0 hlen hnone
  · next n hsome =>
    split
    · exact ⟨h, rfl, hi, fun hf => hf⟩
    · rw [hfind] at hsome
      have hmem := (h.mem_liveOf_iff _).mp (mem_of_mem_head? hsome)
      obtain ⟨g, hd, hi', hk, hf, hL⟩ := hi.delete hmem.1 true
      have hbefore : h.before (lower (h.slot n).name) n = [] := by
        obtain ⟨l, hl⟩ : ∃ l, h.liveOf (lower (h.slot n).name) = [] ++ n :: l := by
          rw [hmem.2]
          cases hL : h.liveOf (lower name.bytes) with
          | nil => simp [hL] at hsome
          | cons x l =>
            obtain rfl : x = n := by simpa [hL] using hsome
            exact ⟨l, rfl⟩
        exact before_of_liveOf hl
      have hnil : g.liveOf (lower name.bytes) = [] := by rw [← hmem.2, hL rfl, hbefore]
      have hwks : (h.slot n).wksIdx = hdrtokenTokenize name.bytes := by
        rw [hi.wksIdx]
        exact hdrtokenTokenize_congr hmem.2
      have hap' : Apart (g.fieldCreate addr).blocks := by
        have hb : (g.fieldCreate addr).blocks = (h.fieldCreate addr).blocks := by
          rw [MIMEHdr.fieldCreate, MIMEHdr.fieldCreate, hk.length, hk.blocks]
        rwa [hb]
      obtain ⟨g', hg', hi'', hf'⟩ := hi'.addField hap' h0 hlen hnil
      exact ⟨g', by rw [hd, hwks]; exact hg', hi'', fun h1 => hf' (hf h1)⟩

theorem Inv.fieldNameValueSet (hi : Inv h) (hdead : isLive (h.slot n) = false) (h0 : 0 ∉ name)
    (hlen : name.length < 2 ^ 16) (value : Option Bytes) (copy : Bool) :
    ∃ g, h.fieldNameValueSet n (hdrtokenTokenize name) name value copy = some g ∧ Inv g ∧ (Fresh h → Fresh g) := by
  have htake : name.take (name.length % 2 ^ 16) = name := by rw [Nat.mod_eq_of_lt hlen, take_length]
  rw [MIMEHdr.fieldNameValueSet]
  cases copy with
  | true =>
    obtain ⟨hi', hlive⟩ := hi.fieldNameSet hdead h0 hlen
    obtain ⟨g, hg, hig, hf⟩ := hi'.storeValue n value
    refine ⟨g, by rw [if_pos rfl, fieldValueSet, hg], hig, fun h1 => hf ?_⟩
    exact h1.of_valuesOf rfl fun nm => valuesOf_modify_dead hdead (hlive nm)
  | false =>
    rw [if_neg (by decide), hdead]
    obtain ⟨hi', hlive⟩ := hi.modify_dead (n := n) (f := fun f =>
      { f with
        wksIdx := hdrtokenTokenize name
        name := name.take (name.length % 2 ^ 16)
        value := value.map storedValue
        cooked := f.cooked || decide (hdrtokenTokenize name = some wksidxCacheControl ∨
          hdrtokenTokenize name = some wksidxPragma) }) hdead hdead (hi.alone n hdead)
      (by dsimp only; rw [htake]) (by dsimp only; rwa [htake])
      (fun hw => by dsimp only at hw ⊢; simp [hw])
    refine ⟨_, ?_, hi', fun h1 => ?_⟩
    · rw [MIMEHdr.recook, if_neg (by simp)]
    · exact h1.of_valuesOf rfl fun nm => valuesOf_modify_dead hdead (hlive nm)

/-! ### Copies -/

/-- The blocks of a copy are less than 2 GiB from those of the header. -/
def Near (old new : List Nat) : Prop :=
  ∀ p ∈ old.zip new, p.1 < p.2 + 2 ^ 31 ∧ p.2 < p.1 + 2 ^ 31
deriving Decidable

theorem find?_block (hap : Apart old) (hlen : new.length = old.length) {j r : Nat}
    (hj : j < old.length) (hr : r < 16) :
    ((old.zip new).find? fun b => b.1 ≤ old.getD j 0 + slotsOffset + sizeofField * r ∧
      old.getD j 0 + slotsOffset + sizeofField * r < b.1 + sizeofBlock) = some (old.getD j 0, new.getD j 0) := by
  induction old generalizing new j with
  | nil => simp at hj
  | cons b old ih =>
    obtain ⟨b', new, rfl⟩ := exists_cons_of_length_eq_add_one hlen
    obtain ⟨hb, hap⟩ := pairwise_cons.mp hap
    rw [zip_cons_cons]
    cases j with
    | zero =>
      rw [find?_cons_of_pos]
      · rfl
      · simp only [getD_cons_zero, slotsOffset, sizeofField, sizeofBlock, fieldBlockSlots, decide_eq_true_eq]
        omega
    | succ j =>
      have hj' : j < old.length := by simpa using hj
      have hmem : old.getD j 0 ∈ old := by
        rw [getD_eq_getElem _ _ hj']
        exact getElem_mem hj'
      have hb := hb _ hmem
      rw [find?_cons_of_neg]
      · simp only [getD_cons_succ]
        exact ih hap (by simpa using hlen) hj'
      · simp only [getD_cons_succ, slotsOffset, sizeofField, sizeofBlock, fieldBlockSlots, decide_eq_true_eq] at hb ⊢
        omega

theorem xlate_eq (hap : Apart old) (hlen : new.length = old.length)
    (hnear : Near old new) {m : Nat} (hm : m < 16 * old.length) :
    xlate old new (fieldAddr old m) = some (fieldAddr new m : Int) := by
  have hj : m / fieldBlockSlots < old.length := by
    rw [fieldBlockSlots]
    omega
  have hr : m % fieldBlockSlots < 16 := Nat.mod_lt m (by decide)
  have hfind := find?_block hap hlen hj hr
  have hmem := hnear _ (mem_of_find?_eq_some hfind)
  rw [xlate, fieldAddr, fieldAddr, hfind, Option.map_some, CInt.toInt32_of_mem (by omega) (by omega)]
  congr 1
  push_cast
  ring

theorem slotAt_eq (hap : Apart blocks) {m slots : Nat} (hm : m < slots)
    (hslots : slots ≤ 16 * blocks.length) : slotAt blocks slots (fieldAddr blocks m) = some m := by
  rw [slotAt, find?_range_eq_some]
  refine ⟨by simp, by simpa using hm, fun j hj => ?_⟩
  have hne : fieldAddr blocks j ≠ fieldAddr blocks m := fun he => hj.ne (fieldAddr_inj hap (by omega) (by omega) he)
  simpa using hne

theorem mapM_eq_self {α : Type} {f : α → Option α} {l : List α} (h : ∀ x ∈ l, f x = some x) : l.mapM f = some l := by
  induction l with
  | nil => rfl
  | cons x l ih =>
    rw [mapM_cons, h x (by simp), ih fun y hy => h y (by simp [hy])]
    rfl

/-- **`mime_hdr_copy_onto`:** the copy has the same fields with the same links. -/
theorem Inv.copyOnto (hi : Inv h) (hlen : blocks.length = h.blocks.length)
    (hap : Apart blocks) (hnear : Near h.blocks blocks) : h.copyOnto blocks = some { h with blocks := blocks } := by
  have hfields : h.slots.mapM (copyField h.blocks blocks h.slots.length) = some h.slots := by
    refine mapM_eq_self fun f hf => ?_
    obtain ⟨n, hn, rfl⟩ := getElem_of_mem hf
    have hslot : h.slot n = h.slots[n] := getD_eq_getElem _ _ hn
    rw [← hslot, copyField]
    cases hm : (h.slot n).nextDup with
    | none => rfl
    | some m =>
      have hl : isLive (h.slot n) := by
        by_contra hdead
        have := hi.alone n (by simpa using hdead)
        rw [next, hm] at this
        cases this
      have hmem : m ∈ h.behind (lower (h.slot n).name) n :=
        mem_of_mem_head? (by rw [← hi.next_eq hl rfl, next, hm]; rfl)
      have hmlt : m < h.slots.length := by
        simp only [behind, mem_filter, mem_range'_1] at hmem
        omega
      have hroom := hi.room
      have hx := xlate_eq hi.apart hlen hnear (show m < 16 * h.blocks.length by omega)
      have hs := slotAt_eq hap hmlt (by omega)
      have hready : (h.slot n).readiness = .live := by simpa [isLive] using hl
      simp only [hready, if_true, hx, hs, Option.bind_eq_bind, Option.bind_some]
      rw [← hm, ← hready]
  rw [MIMEHdr.copyOnto, hfields]
  rfl

end Links

end MIMEHdr

end TrafficServer
