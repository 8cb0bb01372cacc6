import TrafficServer.Hdrs.MIMEHdrIndex

/-!
# The links of a header

The live fields of a name are listed in slot order (`liveOf`). The invariant says that the chain of
the duplicates is this list, that its first element is the one with the flag, and that the presence
bits and the slot accelerators are those of the first elements (`Indexed`).

Linking a field in or out changes the chain of its own name only (`Relinked`), and of the index only
the entries of that name.
-/

namespace TrafficServer.MIMEHdr

open List HdrToken Linked

/-! ### Slots -/

section Slots
variable (h : MIMEHdr) {n m : Nat} {f : MIMEField → MIMEField}

@[simp] theorem slots_modify_length : (h.modify n f).slots.length = h.slots.length := by simp [modify]

theorem slot_modify_self (hn : n < h.slots.length) : (h.modify n f).slot n = f (h.slot n) := by
  simp [slot, modify, getD_eq_getElem?_getD, getElem?_eq_getElem hn]

theorem slot_modify_of_ne (hm : m ≠ n) : (h.modify n f).slot m = h.slot m := by
  simp [slot, modify, getD_eq_getElem?_getD, hm.symm]

theorem slot_of_ge (hn : h.slots.length ≤ n) : h.slot n = {} := by
  simp [slot, getD_eq_getElem?_getD, getElem?_eq_none hn]

theorem slot_modify_keeps {α : Type} (p : MIMEField → α) (hf : ∀ x, p (f x) = p x) (m : Nat) :
    p ((h.modify n f).slot m) = p (h.slot m) := by
  by_cases hm : m = n
  · by_cases hn : n < h.slots.length
    · rw [hm, h.slot_modify_self hn, hf]
    · rw [hm, h.slot_of_ge (Nat.le_of_not_lt hn), slot_of_ge _ (by simpa using hn)]
  · rw [h.slot_modify_of_ne hm]

theorem slot_mem (hn : n < h.slots.length) : h.slot n ∈ h.slots := by
  rw [slot, getD_eq_getElem _ _ hn]
  exact getElem_mem hn

theorem setAccelerators_eq (n : Nat) :
    ∃ p a, h.setAccelerators n = { h with presenceBits := p, slotAccelerators := a } := by
  rw [setAccelerators]
  split
  · exact ⟨_, _, rfl⟩
  · dsimp only
    split <;> exact ⟨_, _, rfl⟩

theorem unsetAccelerators_eq (n : Nat) :
    ∃ p a, h.unsetAccelerators n = { h with presenceBits := p, slotAccelerators := a } := by
  rw [unsetAccelerators]
  split
  · exact ⟨_, _, rfl⟩
  · dsimp only
    split <;> exact ⟨_, _, rfl⟩

end Slots

/-! ### Live fields -/

section Live
variable (h : MIMEHdr) (nm : Bytes) {n m : Nat}

def named (n : Nat) : Bool := isLive (h.slot n) && lower (h.slot n).name = nm

def liveOf : List Nat := (List.range h.slots.length).filter (h.named nm)

def before (n : Nat) : List Nat := (List.range n).filter (h.named nm)

def behind (n : Nat) : List Nat :=
  (List.range' (n + 1) (h.slots.length - (n + 1))).filter (h.named nm)

theorem named_iff : h.named nm n = true ↔ isLive (h.slot n) = true ∧ lower (h.slot n).name = nm := by simp [named]

theorem mem_liveOf : n ∈ h.liveOf nm ↔ n < h.slots.length ∧ h.named nm n = true := by simp [liveOf]

theorem lt_of_isLive (hn : isLive (h.slot n)) : n < h.slots.length := by
  by_contra hge
  rw [h.slot_of_ge (Nat.le_of_not_lt hge)] at hn
  exact absurd hn (by decide)

theorem mem_liveOf_iff : n ∈ h.liveOf nm ↔ isLive (h.slot n) ∧ lower (h.slot n).name = nm := by
  rw [mem_liveOf, named_iff]
  exact and_iff_right_of_imp fun hl => h.lt_of_isLive hl.1

theorem liveOf_split (hn : n < h.slots.length) :
    h.liveOf nm = h.before nm n ++ ((if h.named nm n then [n] else []) ++ h.behind nm n) := by
  have hr : List.range h.slots.length = List.range n ++ (n :: List.range' (n + 1) (h.slots.length - (n + 1))) := by
    have hlen : h.slots.length = n + (h.slots.length - (n + 1) + 1) := by omega
    rw [range_eq_range', range_eq_range', ← range'_succ]
    nth_rewrite 1 [hlen]
    rw [← range'_append_1, zero_add]
  rw [liveOf, hr, filter_append, filter_cons, before, behind]
  split <;> rfl

theorem lt_of_mem_before (hm : m ∈ h.before nm n) : m < n := by
  simp only [before, mem_filter, mem_range] at hm
  exact hm.1

theorem lt_of_mem_behind (hm : m ∈ h.behind nm n) : n < m := by
  simp only [behind, mem_filter, mem_range'_1] at hm
  omega

end Live

/-! ### The index -/

def accelerated (n : Nat) : Nat := if n < 14 then n else 14

/-- The presence bits and the accelerators are those of the first fields of the well-known names. -/
structure Indexed (h : MIMEHdr) (first : Nat → Option Nat) : Prop where
  presence : ∀ b, h.presenceBits.getLsbD b = true ↔
    ∃ i < hdrtokenNumWks, maskBit i = some b ∧ (first i).isSome
  accelerators : ∀ i < hdrtokenNumWks, ∀ s, hdrtokenIndexToSlotid i = some s → ∀ n,
    first i = some n → h.getAcceleratorSlotnum s = accelerated n

variable {b : Nat}

section Index
variable {h h' : MIMEHdr} {first first' : Nat → Option Nat} {i n : Nat}

theorem Indexed.congr (hx : Indexed h first) (hp : h'.presenceBits = h.presenceBits)
    (ha : h'.slotAccelerators = h.slotAccelerators)
    (hfirst : ∀ i < hdrtokenNumWks, first' i = first i) : Indexed h' first' := by
  refine ⟨fun b => ?_, fun i hi s hs n hn => ?_⟩
  · rw [hp, hx.presence b]
    refine exists_congr fun i => and_congr_right fun hi => ?_
    rw [hfirst i hi]
  · rw [getAcceleratorSlotnum, ha]
    exact hx.accelerators i hi s hs n (by rw [← hfirst i hi, hn])

theorem getLsbD_mask : (hdrtokenIndexToMask i).getLsbD b = decide (maskBit i = some b) := by
  rw [hdrtokenIndexToMask]
  cases hm : maskBit i with
  | none => simp [bitMask]
  | some k => rw [getLsbD_bitMask (maskBit_lt hm)]; simp [eq_comm]

def withFirst (first : Nat → Option Nat) (wks : Option Nat) (k : Option Nat) (i : Nat) : Option Nat :=
  if wks = some i then k else first i

theorem Indexed.update (hx : Indexed h first) (hi : i < hdrtokenNumWks) {k : Option Nat}
    (hp : ∀ b, h'.presenceBits.getLsbD b = if maskBit i = some b then k.isSome else h.presenceBits.getLsbD b)
    (ha : ∀ t < 32, h'.getAcceleratorSlotnum t =
      if hdrtokenIndexToSlotid i = some t then (k.map accelerated).getD fieldSlotnumMax
      else h.getAcceleratorSlotnum t) : Indexed h' (withFirst first (some i) k) := by
  refine ⟨fun b => ?_, fun j hj s hs n hn => ?_⟩
  · rw [hp b]
    split_ifs with hb
    · constructor
      · exact fun hk => ⟨i, hi, hb, by rwa [withFirst, if_pos rfl]⟩
      · rintro ⟨j, -, hj, hk⟩
        rwa [maskBit_inj hj hb, withFirst, if_pos rfl] at hk
    · rw [hx.presence b]
      refine exists_congr fun j => and_congr_right fun _ => and_congr_right fun hj => ?_
      have hne : some i ≠ some j := by
        rintro ⟨⟩
        exact hb hj
      rw [withFirst, if_neg hne]
  · rw [ha s (slotid_lt hs)]
    by_cases hij : i = j
    · subst hij
      rw [withFirst, if_pos rfl] at hn
      rw [if_pos hs, hn]
      rfl
    · have hne : hdrtokenIndexToSlotid i ≠ some s := fun h => hij (slotid_inj h hs)
      have hne' : some i ≠ some j := by simpa using hij
      rw [withFirst, if_neg hne'] at hn
      rw [if_neg hne]
      exact hx.accelerators j hj s hs n hn

theorem Indexed.set (hx : Indexed h first) (hap : Apart h.blocks) (hn : n < 16 * h.blocks.length)
    (hw : ∀ i, (h.slot n).wksIdx = some i → i < hdrtokenNumWks) :
    Indexed (h.setAccelerators n) (withFirst first (h.slot n).wksIdx (some n)) := by
  rw [setAccelerators]
  cases hi : (h.slot n).wksIdx with
  | none => exact hx.congr rfl rfl fun j _ => by simp [withFirst]
  | some i =>
    dsimp only
    have hbit (b : Nat) : (h.presenceBits ||| hdrtokenIndexToMask i).getLsbD b =
        if maskBit i = some b then (some n).isSome else h.presenceBits.getLsbD b := by
      rw [BitVec.getLsbD_or, getLsbD_mask]
      by_cases hb : maskBit i = some b <;> simp [hb]
    cases hs : hdrtokenIndexToSlotid i with
    | none => exact hx.update (hw i hi) hbit fun t _ => by rw [hs, if_neg (by simp)]; rfl
    | some s =>
      refine hx.update (hw i hi) hbit fun t ht => ?_
      rw [acceleratorOf_eq hap hn, getAcceleratorSlotnum_set (slotid_lt hs) ht (by split <;> omega)]
      simp only [hs, Option.some.injEq]
      rfl

theorem Indexed.unset (hx : Indexed h first) (hw : ∀ i, (h.slot n).wksIdx = some i → i < hdrtokenNumWks) :
    Indexed (h.unsetAccelerators n) (withFirst first (h.slot n).wksIdx none) := by
  rw [unsetAccelerators]
  cases hi : (h.slot n).wksIdx with
  | none => exact hx.congr rfl rfl fun j _ => by simp [withFirst]
  | some i =>
    dsimp only
    have hbit (b : Nat) : (h.presenceBits &&& ~~~hdrtokenIndexToMask i).getLsbD b =
        if maskBit i = some b then (none : Option Nat).isSome else h.presenceBits.getLsbD b := by
      rw [BitVec.getLsbD_and, BitVec.getLsbD_not, getLsbD_mask]
      by_cases hb : maskBit i = some b
      · simp [hb]
      · simpa [hb] using BitVec.lt_of_getLsbD
    cases hs : hdrtokenIndexToSlotid i with
    | none => exact hx.update (hw i hi) hbit fun t _ => by rw [hs, if_neg (by simp)]; rfl
    | some s =>
      refine hx.update (hw i hi) hbit fun t ht => ?_
      rw [getAcceleratorSlotnum_set (slotid_lt hs) ht (by decide)]
      simp only [hs, Option.some.injEq]
      rfl

end Index

/-! ### The invariant -/

def firstOf (h : MIMEHdr) (i : Nat) : Option Nat := (h.liveOf (lower (hdrtokenIndexToWks i))).head?

/-- **The invariant of headers.** -/
structure Inv (h : MIMEHdr) : Prop where
  apart : Apart h.blocks
  room : h.slots.length ≤ 16 * h.blocks.length
  wksIdx : ∀ n, (h.slot n).wksIdx = hdrtokenTokenize (h.slot n).name
  name : ∀ n, 0 ∉ (h.slot n).name
  cooked : ∀ n, (h.slot n).wksIdx = some wksidxCacheControl ∨ (h.slot n).wksIdx = some wksidxPragma →
    (h.slot n).cooked = true
  alone : ∀ n, isLive (h.slot n) = false → h.next n = none
  chain : ∀ nm, Walk h.next (h.liveOf nm).head? (h.liveOf nm) none
  heads : ∀ nm, ∀ n ∈ h.liveOf nm, ((h.slot n).dupHead = true ↔ (h.liveOf nm).head? = some n)
  index : Indexed h h.firstOf

/-! ### Finding a name -/

section Find
variable {h : MIMEHdr} {s : Bytes} {i n : Nat}

theorem findIdx?_eq_find?_range {α : Type} (l : List α) (d : α) (p : α → Bool) :
    l.findIdx? p = (List.range l.length).find? fun n => p (l.getD n d) := by
  ext n
  rw [findIdx?_eq_some_iff_getElem, find?_range_eq_some]
  constructor
  · rintro ⟨hn, hp, hlt⟩
    refine ⟨by rwa [getD_eq_getElem _ _ hn], by simpa using hn, fun j hj => ?_⟩
    rw [getD_eq_getElem _ _ (lt_trans hj hn)]
    simpa using hlt j hj
  · rintro ⟨hp, hn, hlt⟩
    have hn : n < l.length := by simpa using hn
    refine ⟨hn, by rwa [getD_eq_getElem _ _ hn] at hp, fun j hj => ?_⟩
    have := hlt j hj
    rw [getD_eq_getElem _ _ (lt_trans hj hn)] at this
    simpa using this

theorem findIdx?_eq_head? {p : MIMEField → Bool} {nm : Bytes}
    (hp : ∀ n, p (h.slot n) = h.named nm n) : h.slots.findIdx? p = (h.liveOf nm).head? := by
  rw [findIdx?_eq_find?_range _ {}, liveOf, head?_filter]
  congr 1
  funext n
  exact hp n

theorem strncasecmpEq_iff {a b : Bytes} (ha : 0 ∉ a) :
    (b.length = a.length ∧ strncasecmpEq a b = true) ↔ lower a = lower b := by
  induction a generalizing b with
  | nil => cases b <;> simp [strncasecmpEq, lower]
  | cons x a ih =>
    cases b with
    | nil => simp [lower]
    | cons y b =>
      have hx : x ≠ 0 := fun hx => ha (by simp [hx])
      have hi := ih (b := b) fun h0 => ha (mem_cons_of_mem _ h0)
      simp only [lower, map_cons, List.cons.injEq] at hi ⊢
      simp only [strncasecmpEq, length_cons, add_right_cancel_iff, Bool.and_eq_true,
        decide_eq_true_eq, Bool.or_eq_true, hx, false_or]
      rw [← hi]
      tauto

theorem Inv.listSearchByString (hi : Inv h) : h.listSearchByString s = (h.liveOf (lower s)).head? := by
  refine findIdx?_eq_head? fun n => ?_
  have h := strncasecmpEq_iff (b := s) (hi.name n)
  rw [named]
  congr 1
  rw [Bool.eq_iff_iff]
  simpa using h

theorem Inv.wksIdx_iff (hi : Inv h) (hw : i < hdrtokenNumWks) :
    (h.slot n).wksIdx = some i ↔ lower (h.slot n).name = lower (hdrtokenIndexToWks i) := by
  rw [hi.wksIdx, hdrtokenTokenize_eq_some]
  exact ⟨fun h => h.2.symm, fun h => ⟨hw, h.symm⟩⟩

theorem Inv.wksIdx_lt (hi : Inv h) (hw : (h.slot n).wksIdx = some i) : i < hdrtokenNumWks := by
  rw [hi.wksIdx, hdrtokenTokenize_eq_some] at hw
  exact hw.1

theorem Inv.listSearchByWks (hi : Inv h) (hw : i < hdrtokenNumWks) : h.listSearchByWks i = h.firstOf i := by
  refine findIdx?_eq_head? fun n => ?_
  rw [named]
  congr 1
  rw [Bool.eq_iff_iff]
  simpa using hi.wksIdx_iff hw

theorem and_mask_eq_zero {p : BitVec 64} (hb : maskBit i = some b) :
    p &&& hdrtokenIndexToMask i = 0 ↔ p.getLsbD b = false := by
  constructor
  · intro h
    have := congrArg (fun x => BitVec.getLsbD x b) h
    simpa [getLsbD_mask, hb] using this
  · intro h
    refine BitVec.eq_of_getLsbD_eq fun k hk => ?_
    rw [BitVec.getLsbD_and, getLsbD_mask]
    by_cases hkb : maskBit i = some k
    · obtain rfl : b = k := Option.some.inj (hb.symm.trans hkb)
      simp [h]
    · simp [hkb]

theorem mask_eq_zero_iff : hdrtokenIndexToMask i = 0 ↔ maskBit i = none := by
  constructor
  · intro h
    cases hb : maskBit i with
    | none => rfl
    | some b =>
      have h1 := getLsbD_mask (i := i) (b := b)
      rw [h, hb] at h1
      simp at h1
  · intro h
    rw [hdrtokenIndexToMask, h, bitMask]

theorem Inv.presence_iff (hi : Inv h) (hw : i < hdrtokenNumWks) (hb : maskBit i = some b) :
    h.presenceBits.getLsbD b = true ↔ (h.firstOf i).isSome := by
  rw [hi.index.presence]
  constructor
  · rintro ⟨j, -, hj, hk⟩
    rwa [maskBit_inj hj hb] at hk
  · exact fun hk => ⟨i, hw, hb, hk⟩

theorem Inv.find_wks (hi : Inv h) (hw : i < hdrtokenNumWks) : h.find (.wks i) = h.firstOf i := by
  rw [find]
  split
  · next hmask =>
    obtain ⟨b, hb⟩ := Option.ne_none_iff_exists'.mp fun hn => hmask.1 (mask_eq_zero_iff.mpr hn)
    have hbit := (and_mask_eq_zero hb).mp hmask.2
    have hnone : ¬ (h.firstOf i).isSome := by
      rw [← hi.presence_iff hw hb, hbit]
      simp
    exact (Option.not_isSome_iff_eq_none.mp hnone).symm
  · next hmask =>
    split
    · exact hi.listSearchByWks hw
    · next s hs =>
      obtain ⟨b, hb⟩ := maskBit_of_slotid hs
      -- the presence bit is set, so there is a first field, and the accelerator has it
      have hsome : (h.firstOf i).isSome := by
        rw [← hi.presence_iff hw hb]
        by_contra hbit
        refine hmask ⟨fun h0 => ?_, (and_mask_eq_zero hb).mpr (by simpa using hbit)⟩
        rw [mask_eq_zero_iff.mp h0] at hb
        cases hb
      obtain ⟨n, hn⟩ := Option.isSome_iff_exists.mp hsome
      have hacc := hi.index.accelerators i hw s hs n hn
      rw [hacc, accelerated]
      have hlt : n < h.slots.length := (h.mem_liveOf _).mp (mem_of_mem_head? hn) |>.1
      by_cases h14 : n < 14
      · have hne : n ≠ fieldSlotnumUnknown := fun he => absurd h14 (by rw [he]; decide)
        rw [if_pos h14, if_pos hne, hn, MIMEHdr.listSearchBySlotnum, if_pos hlt]
      · rw [if_neg h14, if_neg (by decide)]
        exact hi.listSearchByWks hw

/-- **`mime_hdr_field_find` finds the first live field of the name.** -/
theorem Inv.find_eq (hi : Inv h) {name : HdrName} (hw : ∀ i, name = .wks i → i < hdrtokenNumWks) :
    h.find name = (h.liveOf (lower name.bytes)).head? := by
  cases name with
  | wks i => exact hi.find_wks (hw i rfl)
  | str s => exact hi.listSearchByString

theorem Inv.find_nameGet (hi : Inv h) (n : Nat) :
    h.find (nameGet (h.slot n)) = (h.liveOf (lower (h.slot n).name)).head? := by
  rw [nameGet]
  split
  · next i hw =>
    have hlt := hi.wksIdx_lt hw
    rw [hi.find_wks hlt, firstOf, ← (hi.wksIdx_iff hlt).mp hw]
  · exact hi.listSearchByString

end Find

end TrafficServer.MIMEHdr
