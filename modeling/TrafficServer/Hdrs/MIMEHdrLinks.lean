import TrafficServer.Hdrs.MIMEHdrInv

/-!
# Attaching and detaching fields

A field is linked into the chain of its name behind the live fields before it, or in front of all of
them; it is linked out again from either place. The step of `mime_hdr_field_attach` along the chain
compares with the slot number of the second field only, so that it finds the right place if at most
one live field of the name stands before the field, or none behind it (`Attachable`).
-/

namespace TrafficServer.MIMEHdr

open List HdrToken Linked Option

def fieldContents (f : MIMEField) : Bytes × Option Nat × Option Bytes × Bool :=
  (f.name, f.wksIdx, f.value, f.cooked)

/-- The field in slot `n` was linked in or out: only the links of its name changed. -/
structure Relinked (h h' : MIMEHdr) (n : Nat) : Prop where
  length : h'.slots.length = h.slots.length
  blocks : h'.blocks = h.blocks
  cookedStuff : h'.cookedStuff = h.cookedStuff
  contents : ∀ m, fieldContents (h'.slot m) = fieldContents (h.slot m)
  readiness : ∀ m, m ≠ n → (h'.slot m).readiness = (h.slot m).readiness
  next : ∀ m, lower (h.slot m).name ≠ lower (h.slot n).name → h'.next m = h.next m
  dupHead : ∀ m, lower (h.slot m).name ≠ lower (h.slot n).name →
    (h'.slot m).dupHead = (h.slot m).dupHead

variable {f : MIMEField → MIMEField}

section Relinked
variable {h h' : MIMEHdr} {n m k : Nat} {nm : Bytes}

theorem Relinked.name (hr : Relinked h h' n) (m : Nat) : (h'.slot m).name = (h.slot m).name :=
  congrArg (·.1) (hr.contents m)

theorem Relinked.wksIdx (hr : Relinked h h' n) (m : Nat) : (h'.slot m).wksIdx = (h.slot m).wksIdx :=
  congrArg (·.2.1) (hr.contents m)

theorem Relinked.value (hr : Relinked h h' n) (m : Nat) : (h'.slot m).value = (h.slot m).value :=
  congrArg (·.2.2.1) (hr.contents m)

theorem Relinked.cooked (hr : Relinked h h' n) (m : Nat) : (h'.slot m).cooked = (h.slot m).cooked :=
  congrArg (·.2.2.2) (hr.contents m)

theorem Relinked.refl (h : MIMEHdr) (n : Nat) : Relinked h h n :=
  ⟨rfl, rfl, rfl, fun _ => rfl, fun _ _ => rfl, fun _ _ => rfl, fun _ _ => rfl⟩

theorem Relinked.setAccelerators (h : MIMEHdr) (k n : Nat) : Relinked h (h.setAccelerators k) n := by
  obtain ⟨p, a, he⟩ := h.setAccelerators_eq k
  rw [he]
  exact ⟨rfl, rfl, rfl, fun _ => rfl, fun _ _ => rfl, fun _ _ => rfl, fun _ _ => rfl⟩

section
variable (hr : Relinked h h' n)

include hr

theorem Relinked.named (hm : m ≠ n) : h'.named nm m = h.named nm m := by
  rw [MIMEHdr.named, MIMEHdr.named, hr.name, isLive, isLive, hr.readiness m hm]

theorem Relinked.before : h'.before nm n = h.before nm n := filter_congr fun _ hm => hr.named (mem_range.mp hm).ne

theorem Relinked.behind : h'.behind nm n = h.behind nm n := by
  rw [MIMEHdr.behind, MIMEHdr.behind, hr.length]
  refine filter_congr fun m hm => hr.named ?_
  rw [mem_range'_1] at hm
  omega

theorem Relinked.liveOf_of_ne (hn : n < h.slots.length)
    (hnm : nm ≠ lower (h.slot n).name) : h'.liveOf nm = h.liveOf nm := by
  have hno : h.named nm n = false := by
    rw [MIMEHdr.named]
    simp [hnm.symm]
  have hno' : h'.named nm n = false := by
    rw [MIMEHdr.named, hr.name]
    simp [hnm.symm]
  rw [h'.liveOf_split nm (hr.length ▸ hn), h.liveOf_split nm hn, hr.before, hr.behind, hno, hno']

end

theorem Inv.relink (hi : Inv h) (hr : Relinked h h' n) (hn : n < h.slots.length) (hnm : nm = lower (h.slot n).name)
    (halone : ∀ m, lower (h.slot m).name = nm → isLive (h'.slot m) = false → h'.next m = none)
    (hchain : Walk h'.next (h'.liveOf nm).head? (h'.liveOf nm) none)
    (hheads : ∀ m ∈ h'.liveOf nm, ((h'.slot m).dupHead = true ↔ (h'.liveOf nm).head? = some m))
    (hindex : Indexed h' (withFirst h.firstOf (h.slot n).wksIdx (h'.liveOf nm).head?)) : Inv h' where
  apart := hr.blocks ▸ hi.apart
  room := by
    rw [hr.length, hr.blocks]
    exact hi.room
  wksIdx m := by rw [hr.wksIdx, hr.name, hi.wksIdx]
  name m := by
    rw [hr.name]
    exact hi.name m
  cooked m hm := by
    rw [hr.wksIdx] at hm
    rw [hr.cooked]
    exact hi.cooked m hm
  alone m hm := by
    by_cases hname : lower (h.slot m).name = nm
    · exact halone m hname hm
    · have hmn : m ≠ n := fun hmn => hname (hmn ▸ hnm.symm)
      rw [hr.next m (hnm ▸ hname)]
      exact hi.alone m (by rw [isLive, ← hr.readiness m hmn]; exact hm)
  chain nm' := by
    by_cases he : nm' = nm
    · rw [he]
      exact hchain
    · rw [hr.liveOf_of_ne hn (hnm ▸ he)]
      refine (hi.chain nm').congr fun m hm => hr.next m ?_
      rw [((h.mem_liveOf_iff nm').mp hm).2, ← hnm]
      exact he
  heads nm' m hm := by
    by_cases he : nm' = nm
    · rw [he] at hm ⊢
      exact hheads m hm
    · rw [hr.liveOf_of_ne hn (hnm ▸ he)] at hm ⊢
      rw [hr.dupHead m (by rwa [((h.mem_liveOf_iff nm').mp hm).2, ← hnm])]
      exact hi.heads nm' m hm
  index := by
    refine hindex.congr rfl rfl fun i hw => ?_
    rw [firstOf, withFirst]
    split
    · next hwks => rw [← (hi.wksIdx_iff hw).mp hwks, ← hnm]
    · next hwks =>
      rw [hr.liveOf_of_ne hn fun he => hwks ((hi.wksIdx_iff hw).mpr he.symm)]
      rfl

theorem Inv.withFirst_eq (hi : Inv h) (hnm : nm = lower (h.slot n).name) {first : Option Nat}
    (hfirst : first = (h.liveOf nm).head?) (i : Nat) (hw : i < hdrtokenNumWks) :
    withFirst h.firstOf (h.slot n).wksIdx first i = h.firstOf i := by
  rw [withFirst, hfirst]
  split
  · next hwks => rw [firstOf, ← (hi.wksIdx_iff hw).mp hwks, hnm]
  · rfl

end Relinked

section Views
variable (h : MIMEHdr) (k m : Nat)

@[simp] theorem slot_setAccelerators : (h.setAccelerators k).slot m = h.slot m := by
  obtain ⟨p, a, he⟩ := h.setAccelerators_eq k
  rw [he]
  rfl

end Views

/-! ### Stores to two fields -/

section Stored
variable {h g : MIMEHdr} {n q : Nat} {a b : MIMEField}

/-- Of the slots only `n`, which is now `a`, and `q`, which is now `b`, were stored to. -/
structure Stored (h g : MIMEHdr) (n q : Nat) (a b : MIMEField) : Prop where
  length : g.slots.length = h.slots.length
  blocks : g.blocks = h.blocks
  cookedStuff : g.cookedStuff = h.cookedStuff
  slot : ∀ m, g.slot m = if m = n then a else if m = q then b else h.slot m

theorem Stored.slot_self (hs : Stored h g n q a b) : g.slot n = a := (hs.slot n).trans (if_pos rfl)

theorem Stored.setAccelerators (hs : Stored h g n q a b) (k : Nat) : Stored h (g.setAccelerators k) n q a b := by
  have hr := Relinked.setAccelerators g k n
  exact ⟨hr.length.trans hs.length, hr.blocks.trans hs.blocks, hr.cookedStuff.trans hs.cookedStuff,
    fun m => by rw [slot_setAccelerators, hs.slot]⟩

theorem Stored.relinked (hs : Stored h g n q a b) (hq : lower (h.slot q).name = lower (h.slot n).name)
    (ha : fieldContents a = fieldContents (h.slot n))
    (hb : fieldContents b = fieldContents (h.slot q)) (hready : b.readiness = (h.slot q).readiness) :
    Relinked h g n := by
  have hother (m : Nat) (hm : lower (h.slot m).name ≠ lower (h.slot n).name) : g.slot m = h.slot m := by
    rw [hs.slot, if_neg fun he : m = n => hm (he ▸ rfl), if_neg fun he : m = q => hm (he ▸ hq)]
  refine ⟨hs.length, hs.blocks, hs.cookedStuff, fun m => ?_, fun m hm => ?_, fun m hm => ?_, fun m hm => ?_⟩
  · rw [hs.slot]
    split_ifs with hmn hmq
    · rw [hmn, ha]
    · rw [hmq, hb]
    · rfl
  · rw [hs.slot, if_neg hm]
    split_ifs with hmq
    · rw [hmq, hready]
    · rfl
  · rw [next, hother m hm, next]
  · rw [hother m hm]

end Stored

/-! ### Attaching -/

/-- At most one live field of the name stands before the field, or none behind it. -/
def Attachable (h : MIMEHdr) (n : Nat) : Prop :=
  (h.before (lower (h.slot n).name) n).length ≤ 1 ∨ h.behind (lower (h.slot n).name) n = []
deriving Decidable

variable {A : List Nat} {fieldSlotnum nextSlotnum prevSlotnum : Int} {fuel q : Nat}

section Attach
variable {h g : MIMEHdr} {n q : Nat} {nm : Bytes}

theorem liveOf_of_live (hr : Relinked h g n) (hn : n < h.slots.length)
    (hnm : nm = lower (h.slot n).name) (hlive : isLive (g.slot n)) :
    g.liveOf nm = h.before nm n ++ n :: h.behind nm n := by
  have hnamed : g.named nm n = true := (g.named_iff nm).mpr ⟨hlive, by rw [hr.name, hnm]⟩
  rw [g.liveOf_split nm (hr.length ▸ hn), hr.before, hr.behind, hnamed]
  rfl

theorem liveOf_of_not_live (hr : Relinked h g n) (hn : n < h.slots.length)
    (hlive : isLive (g.slot n) = false) : g.liveOf nm = h.before nm n ++ h.behind nm n := by
  have hnamed : g.named nm n = false := by
    rw [named, hlive]
    rfl
  rw [g.liveOf_split nm (hr.length ▸ hn), hr.before, hr.behind, hnamed]
  rfl

variable {m : Nat}

theorem Inv.alone_of_ne (hi : Inv h) (hr : Relinked h g n) (hm : m ≠ n)
    (hnext : g.next m = h.next m) (hlive : isLive (g.slot m) = false) : g.next m = none := by
  rw [hnext]
  exact hi.alone m (by rw [isLive, ← hr.readiness m hm]; exact hlive)

section
variable (hi : Inv h) (hn : n < h.slots.length) (hnm : nm = lower (h.slot n).name) (hdead : isLive (h.slot n) = false)

include hi hn hnm hdead

theorem Inv.attach_front (hbefore : h.before nm n = []) (hq : q = (h.behind nm n).head?.getD n) (hs : Stored h g n q
      { h.slot n with readiness := .live, dupHead := true, nextDup := (h.behind nm n).head? }
      { h.slot q with dupHead := false })
    (hp : g.presenceBits = h.presenceBits) (ha : g.slotAccelerators = h.slotAccelerators) :
    Relinked h (g.setAccelerators n) n ∧ isLive ((g.setAccelerators n).slot n) ∧ Inv (g.setAccelerators n) := by
  have hold : h.liveOf nm = h.behind nm n := by
    rw [liveOf_of_not_live (.refl h n) hn hdead, hbefore]
    rfl
  have hqname : lower (h.slot q).name = lower (h.slot n).name := by
    cases hB : (h.behind nm n).head? with
    | none => rw [hq, hB, Option.getD_none]
    | some s =>
      rw [hq, hB, getD_some, ← hnm]
      exact ((h.mem_liveOf_iff nm).mp (hold ▸ mem_of_mem_head? hB)).2
  have hr := hs.relinked hqname rfl rfl rfl
  have hs' := hs.setAccelerators n
  have hr' := hs'.relinked hqname rfl rfl rfl
  have hlive : isLive ((g.setAccelerators n).slot n) := by
    rw [hs'.slot_self]
    rfl
  have hL : (g.setAccelerators n).liveOf nm = n :: h.behind nm n := by
    rw [liveOf_of_live hr' hn hnm hlive, hbefore]
    rfl
  have hne (m : Nat) (hm : m ∈ h.behind nm n) : m ≠ n := (h.lt_of_mem_behind nm hm).ne'
  have hnext (m : Nat) (hm : m ≠ n) : (g.setAccelerators n).next m = h.next m := by
    rw [next, hs'.slot, if_neg hm, next]
    split_ifs with hmq
    · rw [hmq]
    · rfl
  refine ⟨hr', hlive, hi.relink hr' hn hnm (fun m hm hdead' => ?_) ?_ (fun m hm => ?_) ?_⟩
  · have hmn : m ≠ n := fun he => by rw [he, hlive] at hdead'; cases hdead'
    exact hi.alone_of_ne hr' hmn (hnext m hmn) hdead'
  · rw [hL]
    refine ⟨rfl, ?_⟩
    rw [next, hs'.slot_self]
    exact (hold ▸ hi.chain nm).congr fun m hm => hnext m (hne m hm)
  · rw [hL] at hm ⊢
    rcases mem_cons.mp hm with rfl | hm
    · simp [hs'.slot_self]
    · rw [hs'.slot, if_neg (hne m hm)]
      refine iff_of_false ?_ (by simpa using (hne m hm).symm)
      split_ifs with hmq
      · simp
      · rw [hi.heads nm m (hold ▸ hm), hold]
        exact fun he => hmq (by rw [hq, he, getD_some])
  · rw [hL]
    have hg : Indexed g h.firstOf := hi.index.congr hp ha fun _ _ => rfl
    have hset := hg.set (n := n) (hr.blocks ▸ hi.apart)
      (lt_of_lt_of_le hn (hr.blocks ▸ hi.room)) fun i hw => hi.wksIdx_lt (hr.wksIdx n ▸ hw)
    rwa [hr.wksIdx] at hset

theorem Inv.attach_behind (hbefore : h.before nm n = A ++ [q])
    (hs : Stored h g n q { h.slot n with readiness := .live, dupHead := false, nextDup := h.next q }
      { h.slot q with nextDup := some n })
    (hp : g.presenceBits = h.presenceBits) (ha : g.slotAccelerators = h.slotAccelerators) :
    Relinked h g n ∧ isLive (g.slot n) ∧ Inv g := by
  have hold : h.liveOf nm = A ++ q :: h.behind nm n := by
    rw [liveOf_of_not_live (.refl h n) hn hdead, hbefore]
    simp
  have hqL := (h.mem_liveOf_iff nm).mp (show q ∈ h.liveOf nm by rw [hold]; simp)
  have hqn : q ≠ n := (h.lt_of_mem_before nm (show q ∈ h.before nm n by simp [hbefore])).ne
  have hr := hs.relinked (hqL.2.trans hnm) rfl rfl rfl
  have hlive : isLive (g.slot n) := by
    rw [hs.slot_self]
    rfl
  have hL : g.liveOf nm = A ++ q :: n :: h.behind nm n := by
    rw [liveOf_of_live hr hn hnm hlive, hbefore]
    simp
  have hfirst : (g.liveOf nm).head? = (h.liveOf nm).head? := by
    rw [hL, hold]
    cases A <;> rfl
  have hchain := hi.chain nm
  have hnodup := hchain.nodup
  have hnotin : n ∉ h.liveOf nm := fun hmem => by
    have := ((h.mem_liveOf_iff nm).mp hmem).1
    simp [hdead] at this
  have hnext (m : Nat) (hm : m ≠ n) (hmq : m ≠ q) : g.next m = h.next m := by
    rw [next, hs.slot, if_neg hm, if_neg hmq, next]
  have hslot_q : g.slot q = { h.slot q with nextDup := some n } := by rw [hs.slot, if_neg hqn, if_pos rfl]
  refine ⟨hr, hlive, hi.relink hr hn hnm (fun m hm hdead' => ?_) ?_ (fun m hm => ?_) ?_⟩
  · have hmn : m ≠ n := fun he => by simp [he, hlive] at hdead'
    have hmq : m ≠ q := fun he => by
      have hlq := hqL.1
      rw [isLive, ← hr.readiness q hqn, ← he, ← isLive] at hlq
      simp [hlq] at hdead'
    exact hi.alone_of_ne hr hmn (hnext m hmn hmq) hdead'
  · rw [hfirst, hL]
    rw [hold] at hchain ⊢
    refine hchain.insert (by rw [next, hslot_q]) (by rw [next, hs.slot_self]) fun m hm => hnext m ?_ ?_
    · rintro rfl
      exact hnotin (by rw [hold]; simp at hm ⊢; tauto)
    · rintro rfl
      grind
  · rw [hfirst]
    by_cases hmn : m = n
    · subst hmn
      rw [hs.slot_self]
      exact iff_of_false (by simp) fun hmem => hnotin (mem_of_mem_head? hmem)
    · have hflag : (g.slot m).dupHead = (h.slot m).dupHead := by
        by_cases hmq : m = q
        · rw [hmq, hslot_q]
        · rw [hs.slot, if_neg hmn, if_neg hmq]
      rw [hflag]
      refine hi.heads nm m ?_
      rw [hL] at hm
      rw [hold]
      simp [hmn] at hm ⊢
      exact hm
  · exact hi.index.congr hp ha (hi.withFirst_eq hnm hfirst)

end

theorem Inv.fieldSlotnum_eq (hi : Inv h) (hm : m < h.slots.length) : h.fieldSlotnum m = m :=
  slotnum_eq hi.apart (lt_of_lt_of_le hm hi.room)

theorem liveOf_length_le (nm : Bytes) : (h.liveOf nm).length ≤ h.slots.length := by
  have := length_filter_le (h.named nm) (List.range h.slots.length)
  rwa [length_range] at this

variable {next : Option Nat} {p : Nat}

theorem attachLoop_last {l : List Nat}
    (hw : Walk h.next next l none) (hfuel : l.length < fuel) (hprev : prevSlotnum < fieldSlotnum)
    (hnext : nextSlotnum < fieldSlotnum) : ∃ A q k, p :: l = A ++ [q] ∧ k < fieldSlotnum ∧
      h.attachLoop fieldSlotnum nextSlotnum fuel p prevSlotnum next = some (q, k, none) := by
  induction l generalizing p prevSlotnum next fuel with
  | nil =>
    obtain ⟨fuel, rfl⟩ := Nat.exists_eq_succ_of_ne_zero (by omega : fuel ≠ 0)
    obtain rfl : next = none := hw
    exact ⟨[], p, prevSlotnum, rfl, hprev, by rw [attachLoop, if_pos hprev]⟩
  | cons m l ih =>
    obtain ⟨fuel, rfl⟩ := Nat.exists_eq_succ_of_ne_zero (by omega : fuel ≠ 0)
    obtain ⟨rfl, hw⟩ := hw
    obtain ⟨A, q, k, hA, hk, hloop⟩ := ih (p := m) hw (by simp at hfuel; omega) hnext
    refine ⟨p :: A, q, k, by rw [hA]; rfl, hk, ?_⟩
    rw [attachLoop, if_pos hprev, if_neg (by omega)]
    exact hloop

theorem Inv.attachLoop (hi : Inv h) (hn : n < h.slots.length) (hnm : nm = lower (h.slot n).name)
    (hdead : isLive (h.slot n) = false) (hfits : Attachable h n)
    (hbefore : h.before nm n = p :: A) : ∃ A' q k, h.before nm n = A' ++ [q] ∧ k < (n : Int) ∧
      h.attachLoop n (((h.next p).map h.fieldSlotnum).getD (-1)) (h.slots.length + 1) p p (h.next p) =
        some (q, k, h.next q) := by
  have hL : h.liveOf nm = p :: (A ++ h.behind nm n) := by
    rw [liveOf_of_not_live (.refl h n) hn hdead, hbefore]
    rfl
  have hchain := hi.chain nm
  rw [hL] at hchain
  have hpn : (p : Int) < n := by
    have := h.lt_of_mem_before nm (show p ∈ h.before nm n by simp [hbefore])
    omega
  have hp : h.next p = (A ++ h.behind nm n).head? := hchain.2.head?_eq.symm
  have hslot {m : Nat} (hm : m ∈ h.liveOf nm) : h.fieldSlotnum m = m := hi.fieldSlotnum_eq ((h.mem_liveOf nm).mp hm).1
  cases A with
  | nil =>
    refine ⟨[], p, p, hbefore, hpn, ?_⟩
    cases hB : h.behind nm n with
    | nil => rw [hp, hB, append_nil, head?_nil, attachLoop, if_pos hpn]
    | cons s B =>
      have hs : n < s := h.lt_of_mem_behind nm (by simp [hB])
      have hsl : h.fieldSlotnum s = s := hslot (by rw [hL, hB]; simp)
      rw [hp, hB]
      simp only [nil_append, head?_cons, map_some, getD_some, hsl]
      rw [attachLoop, if_pos hpn, if_pos (by omega)]
  | cons r A =>
    have hB : h.behind nm n = [] := by
      subst hnm
      refine hfits.resolve_left ?_
      rw [hbefore]
      simp
    have hr : r < n := h.lt_of_mem_before nm (by simp [hbefore])
    have hrl : h.fieldSlotnum r = r := hslot (by rw [hL]; simp)
    rw [hB, append_nil] at hp hchain hL
    have hlen : (r :: A).length < h.slots.length + 1 := by
      have := liveOf_length_le (h := h) nm
      rw [hL] at this
      simp at this ⊢
      omega
    obtain ⟨A', q, k, hA, hk, hloop⟩ := attachLoop_last (p := p) hchain.2 hlen hpn (show (r : Int) < _ by omega)
    refine ⟨A', q, k, by rw [hbefore, hA], hk, ?_⟩
    have hq : h.next q = none := by
      rw [hA] at hchain
      exact hchain.next_eq
    rw [hq, ← hloop, hp]
    simp [hrl]

theorem attachLoop_of_le
    (hle : fieldSlotnum ≤ prevSlotnum) : h.attachLoop fieldSlotnum nextSlotnum (fuel + 1) p prevSlotnum next =
      some (p, prevSlotnum, next) := by
  cases next <;> rw [attachLoop, if_neg (by omega)]

def enliven (h : MIMEHdr) (n : Nat) : MIMEHdr := h.modify n fun f => { f with readiness := .live }

theorem slot_enliven (hn : n < h.slots.length) : (h.enliven n).slot n = { h.slot n with readiness := .live } :=
  h.slot_modify_self hn

theorem slot_enliven_of_ne (hm : m ≠ n) : (h.enliven n).slot m = h.slot m := h.slot_modify_of_ne hm

theorem next_enliven (hn : n < h.slots.length) : (h.enliven n).next = h.next := by
  funext m
  by_cases hm : m = n
  · rw [next, hm, slot_enliven hn, next]
  · rw [next, slot_enliven_of_ne hm, next]

theorem attachLoop_enliven (hn : n < h.slots.length) : (h.enliven n).attachLoop = h.attachLoop := by
  funext a b fuel
  induction fuel with
  | zero => rfl
  | succ fuel ih =>
    funext p k next
    cases next with
    | none => rfl
    | some m => rw [attachLoop, attachLoop, ih, next_enliven hn]

section Attach
variable (hi : Inv h) (hn : n < h.slots.length)
include hi hn

theorem attachLink_enliven {k : Int} (hp : p < h.slots.length)
    (hloop : h.attachLoop n (((h.next p).map h.fieldSlotnum).getD (-1)) (h.slots.length + 1) p p
      (h.next p) = some (q, k, next)) : (h.enliven n).attachLink n (some p) = if k > n then
        some ((((h.enliven n).modify n fun f => { f with dupHead := true, nextDup := some q }).modify
          q fun f => { f with dupHead := false }).setAccelerators n) else
        some (((h.enliven n).modify q fun f => { f with nextDup := some n }).modify n fun f =>
          { f with dupHead := false, nextDup := next }) := by
  have hnum : (h.enliven n).fieldSlotnum = h.fieldSlotnum := rfl
  have hlen : (h.enliven n).slots.length = h.slots.length := h.slots_modify_length
  rw [attachLink, attachLoop_enliven hn, hnum, next_enliven hn, hlen, hi.fieldSlotnum_eq hn,
    hi.fieldSlotnum_eq hp, hloop]
  rfl

section
variable (hnm : nm = lower (h.slot n).name) (hdead : isLive (h.slot n) = false)

include hnm hdead

theorem Inv.attachLink_front (hbefore : h.before nm n = []) :
    ∃ g, (h.enliven n).attachLink n (h.behind nm n).head? = some g ∧ Relinked h g n ∧ isLive (g.slot n) ∧ Inv g := by
  cases hB : h.behind nm n with
  | nil =>
    refine ⟨_, rfl, hi.attach_front (q := n) hn hnm hdead hbefore (by rw [hB]; rfl) ?_ rfl rfl⟩
    refine ⟨by simp [enliven], rfl, rfl, fun m => ?_⟩
    have hnext : (h.slot n).nextDup = none := hi.alone n hdead
    by_cases hm : m = n
    · simp [hm, enliven, slot_modify_self, hn, hB, hnext]
    · simp [hm, enliven, slot_modify_of_ne]
  | cons s B =>
    have hL : h.liveOf nm = s :: B := by
      rw [liveOf_of_not_live (.refl h n) hn hdead, hbefore, hB]
      rfl
    have hslen : s < h.slots.length := ((h.mem_liveOf nm).mp (by simp [hL])).1
    have hsn : n < s := h.lt_of_mem_behind nm (by simp [hB])
    have hloop := attachLink_enliven hi hn hslen (attachLoop_of_le (by omega))
    rw [if_pos (by omega)] at hloop
    refine ⟨_, hloop, hi.attach_front (q := s) hn hnm hdead hbefore (by rw [hB]; rfl) ?_ rfl rfl⟩
    refine ⟨by simp [enliven], rfl, rfl, fun m => ?_⟩
    by_cases hm : m = n
    · simp [hm, enliven, slot_modify_self, slot_modify_of_ne, hn, hsn.ne, hB]
    · by_cases hms : m = s
      · simp [hms, enliven, slot_modify_self, slot_modify_of_ne, hslen, hsn.ne']
      · simp [hm, hms, enliven, slot_modify_of_ne]

theorem Inv.attachLink_behind (hfits : Attachable h n) (hbefore : h.before nm n = p :: A) :
    ∃ g, (h.enliven n).attachLink n (some p) = some g ∧ Relinked h g n ∧ isLive (g.slot n) ∧ Inv g := by
  obtain ⟨A', q, k, hA', hk, hloop⟩ := hi.attachLoop hn hnm hdead hfits hbefore
  have hlen {m : Nat} (hm : m ∈ h.before nm n) : m < h.slots.length := by
    refine ((h.mem_liveOf nm).mp ?_).1
    rw [liveOf_of_not_live (.refl h n) hn hdead]
    exact mem_append_left _ hm
  have hq : q ∈ h.before nm n := by simp [hA']
  have hqn : q ≠ n := (h.lt_of_mem_before nm hq).ne
  have hlink := attachLink_enliven hi hn (hlen (m := p) (by simp [hbefore])) hloop
  rw [if_neg (by omega)] at hlink
  refine ⟨_, hlink, hi.attach_behind hn hnm hdead hA' ?_ rfl rfl⟩
  refine ⟨by simp [enliven], rfl, rfl, fun m => ?_⟩
  by_cases hm : m = n
  · simp [hm, enliven, slot_modify_self, slot_modify_of_ne, hn, hqn.symm]
  · by_cases hmq : m = q
    · simp [hmq, enliven, slot_modify_self, slot_modify_of_ne, hlen hq, hqn]
    · simp [hm, hmq, enliven, slot_modify_of_ne]

end

theorem Inv.attachLink (hd : (h.slot n).readiness = .detached) (hfits : Attachable h n) :
    ∃ g, (h.enliven n).attachLink n (h.liveOf (lower (h.slot n).name)).head? = some g ∧
      Relinked h g n ∧ isLive (g.slot n) ∧ Inv g := by
  have hdead : isLive (h.slot n) = false := by simp [isLive, hd]
  rw [liveOf_of_not_live (.refl h n) hn hdead]
  cases hA : h.before (lower (h.slot n).name) n with
  | nil => exact hi.attachLink_front hn rfl hdead hA
  | cons p A => exact hi.attachLink_behind hn rfl hdead hfits hA

end Attach

end Attach

/-! ### Detaching -/

section Detach
variable {h g : MIMEHdr} {n q : Nat} {nm : Bytes}

/-- The header with the field detached and alone, after it was linked out. -/
def enfree (h : MIMEHdr) (n : Nat) : MIMEHdr :=
  h.modify n fun f => { f with readiness := .detached, nextDup := none }

theorem slot_enfree (hn : n < h.slots.length) :
    (h.enfree n).slot n = { h.slot n with readiness := .detached, nextDup := none } :=
  h.slot_modify_self hn

theorem slot_enfree_of_ne {m : Nat} (hm : m ≠ n) : (h.enfree n).slot m = h.slot m := h.slot_modify_of_ne hm

theorem Stored.enfree {a b : MIMEField} (hs : Stored h g n q a b) (hn : n < h.slots.length) :
    Stored h (g.enfree n) n q { a with readiness := .detached, nextDup := none } b := by
  refine ⟨g.slots_modify_length.trans hs.length, hs.blocks, hs.cookedStuff, fun m => ?_⟩
  by_cases hm : m = n
  · rw [hm, if_pos rfl, slot_enfree (hs.length ▸ hn), hs.slot_self]
  · rw [if_neg hm, slot_enfree_of_ne hm, hs.slot, if_neg hm]

theorem Stored.modify (hq : q < h.slots.length) (hqn : q ≠ n) :
    Stored h (h.modify q f) n q (h.slot n) (f (h.slot q)) := by
  refine ⟨h.slots_modify_length, rfl, rfl, fun m => ?_⟩
  split_ifs with hm hmq
  · rw [hm, h.slot_modify_of_ne hqn.symm]
  · rw [hmq, h.slot_modify_self hq]
  · rw [h.slot_modify_of_ne hmq]

/-- The links after a field was linked out, if the chain before it is `A` and behind it `B`. -/
structure Unlinked (h g : MIMEHdr) (n : Nat) (A B : List Nat) : Prop where
  relinked : Relinked h g n
  readiness : (g.slot n).readiness = .detached
  alone : g.next n = none
  next : ∀ m, m ≠ n → m ∉ A.getLast? → g.next m = h.next m
  chain : ∀ q ∈ A.getLast?, g.next q = h.next n
  heads : ∀ m ∈ A ++ B, ((g.slot m).dupHead = true ↔ (A ++ B).head? = some m)
  index : Indexed g (withFirst h.firstOf (h.slot n).wksIdx (A ++ B).head?)

theorem Inv.unlinked (hi : Inv h) (hl : isLive (h.slot n)) (hnm : nm = lower (h.slot n).name)
    (hu : Unlinked h g n (h.before nm n) (h.behind nm n)) : Inv g := by
  have hn := h.lt_of_isLive hl
  have hold := liveOf_of_live (.refl h n) hn hnm hl
  have hdead : isLive (g.slot n) = false := by simp [isLive, hu.readiness]
  have hL : g.liveOf nm = h.before nm n ++ h.behind nm n := liveOf_of_not_live hu.relinked hn hdead
  have hchain := hi.chain nm
  have hnodup := hchain.nodup
  refine hi.relink hu.relinked hn hnm (fun m hm hlive => ?_) ?_ ?_ ?_
  · by_cases hmn : m = n
    · rw [hmn, hu.alone]
    · by_cases hlast : m ∈ (h.before nm n).getLast?
      · have hmem : m ∈ g.liveOf nm := by
          rw [hL]
          exact mem_append_left _ (mem_of_mem_getLast? hlast)
        have := ((g.mem_liveOf_iff nm).mp hmem).1
        rw [hlive] at this
        cases this
      · exact hi.alone_of_ne hu.relinked hmn (hu.next m hmn hlast) hlive
  · rw [hL]
    rw [hold] at hchain hnodup
    have hout (m : Nat) (hm : m ∈ h.before nm n ++ h.behind nm n) : m ≠ n := by
      rintro rfl
      grind
    cases hA : h.before nm n using List.reverseRecOn with
    | nil =>
      rw [hA] at hchain
      refine (hchain.2.head?_eq ▸ hchain.2).congr fun m hm => hu.next m (hout m ?_) ?_
      · simpa [hA] using hm
      · simp [hA]
    | append_singleton A q =>
      have hlast : (h.before nm n).getLast? = some q := by simp [hA]
      rw [hA] at hchain hnodup
      have hhead : (A ++ [q] ++ n :: h.behind nm n).head? = (A ++ [q] ++ h.behind nm n).head? := by cases A <;> rfl
      rw [hhead] at hchain
      simp only [append_assoc, singleton_append] at hchain hnodup ⊢
      refine hchain.unlink (hu.chain q hlast) fun m hm => hu.next m (hout m ?_) ?_
      · rw [hA]
        simp at hm ⊢
        tauto
      · rw [hlast]
        rintro ⟨⟩
        grind
  · rw [hL]
    exact hu.heads
  · rw [hL]
    exact hu.index

theorem detachLoop_eq {start : Option Nat} {B : List Nat}
    (hw : Walk h.next start (A ++ q :: n :: B) none) (hfuel : A.length < fuel) :
    h.detachLoop n fuel start = some q := by
  induction A generalizing start fuel with
  | nil =>
    obtain ⟨fuel, rfl⟩ := Nat.exists_eq_succ_of_ne_zero (by omega : fuel ≠ 0)
    obtain ⟨rfl, hq, -⟩ := hw
    rw [detachLoop, if_pos hq]
  | cons x A ih =>
    obtain ⟨fuel, rfl⟩ := Nat.exists_eq_succ_of_ne_zero (by omega : fuel ≠ 0)
    have hnodup := hw.nodup
    obtain ⟨rfl, hw⟩ := hw
    have hx : h.next x ≠ some n := by
      rw [← hw.head?_eq]
      cases A with
      | nil =>
        simp at hnodup ⊢
        exact hnodup.2.1.1
      | cons y A =>
        simp at hnodup ⊢
        grind
    rw [detachLoop, if_neg hx]
    exact ih hw (by simp at hfuel; omega)

section
variable (hi : Inv h) (hl : isLive (h.slot n))

include hi hl

theorem Inv.detachLink_front (hnm : nm = lower (h.slot n).name) (hbefore : h.before nm n = []) :
    ∃ g, h.detachLink n = some g ∧ Unlinked h (g.enfree n) n [] (h.behind nm n) := by
  have hn := h.lt_of_isLive hl
  have hL : h.liveOf nm = n :: h.behind nm n := by
    rw [liveOf_of_live (.refl h n) hn hnm hl, hbefore]
    rfl
  have hhead : (h.slot n).dupHead = true := (hi.heads nm n (by simp [hL])).mpr (by simp [hL])
  have hnext : h.next n = (h.behind nm n).head? := by
    have hchain := hi.chain nm
    rw [hL] at hchain
    exact hchain.2.head?_eq.symm
  rw [detachLink, if_pos hhead, hnext]
  cases hB : h.behind nm n with
  | nil =>
    have hs0 : Stored h (h.unsetAccelerators n) n n (h.slot n) (h.slot n) := by
      obtain ⟨p, a, he⟩ := h.unsetAccelerators_eq n
      rw [he]
      refine ⟨rfl, rfl, rfl, fun m => ?_⟩
      split_ifs with hm
      · rw [hm]
        rfl
      · rfl
    have hs := hs0.enfree hn
    refine ⟨_, rfl, hs.relinked rfl rfl rfl rfl, by rw [hs.slot_self], by rw [next, hs.slot_self],
      fun m hm _ => ?_, by simp, by simp, ?_⟩
    · rw [next, hs.slot, if_neg hm, if_neg hm, next]
    · exact (hi.index.unset fun i => hi.wksIdx_lt).congr rfl rfl fun _ _ => rfl
  | cons m B =>
    have hm := (h.mem_liveOf_iff nm).mp (show m ∈ h.liveOf nm by simp [hL, hB])
    have hmlen := h.lt_of_isLive hm.1
    have hmn : m ≠ n := (h.lt_of_mem_behind nm (show m ∈ h.behind nm n by simp [hB])).ne'
    obtain ⟨g, hg⟩ : ∃ g, g = h.modify m fun f => { f with dupHead := true } := ⟨_, rfl⟩
    have hs0 : Stored h g n m (h.slot n) { h.slot m with dupHead := true } := hg ▸ .modify hmlen hmn
    have hr := hs0.relinked (hm.2.trans hnm) rfl rfl rfl
    have hs := (hs0.setAccelerators m).enfree hn
    refine ⟨g.setAccelerators m, by rw [hg]; rfl, hs.relinked (hm.2.trans hnm) rfl rfl rfl,
      by rw [hs.slot_self], by rw [next, hs.slot_self], fun k hk _ => ?_, by simp, fun k hk => ?_, ?_⟩
    · rw [next, hs.slot, if_neg hk, next]
      split_ifs with hkm
      · rw [hkm]
      · rfl
    · have hkn : k ≠ n := (h.lt_of_mem_behind nm (by rw [hB]; exact hk)).ne'
      rw [hs.slot, if_neg hkn]
      split_ifs with hkm
      · simp [hkm]
      · rw [hi.heads nm k (by rw [hL, hB]; exact mem_cons_of_mem _ hk), hL]
        simp [hkn.symm, Ne.symm hkm]
    · have hwks : (g.slot m).wksIdx = (h.slot n).wksIdx := by
        rw [hr.wksIdx, hi.wksIdx, hi.wksIdx]
        exact hdrtokenTokenize_congr (by rw [hm.2, hnm])
      have hx : Indexed g h.firstOf := hg ▸ hi.index.congr rfl rfl fun _ _ => rfl
      have hset := hx.set (n := m) (hr.blocks ▸ hi.apart)
        (lt_of_lt_of_le hmlen (hr.blocks ▸ hi.room)) fun i hw => hi.wksIdx_lt (hwks ▸ hw)
      rw [hwks] at hset
      exact hset.congr rfl rfl fun _ _ => rfl

theorem Inv.detachLink_behind (hnm : nm = lower (h.slot n).name) (hbefore : h.before nm n = A ++ [q]) :
    ∃ g, h.detachLink n = some g ∧ Unlinked h (g.enfree n) n (A ++ [q]) (h.behind nm n) := by
  have hn := h.lt_of_isLive hl
  have hL : h.liveOf nm = A ++ q :: n :: h.behind nm n := by
    rw [liveOf_of_live (.refl h n) hn hnm hl, hbefore]
    simp
  have hfirst : (h.liveOf nm).head? = (A ++ [q] ++ h.behind nm n).head? := by
    rw [hL]
    cases A <;> rfl
  have hqn : q ≠ n := (h.lt_of_mem_before nm (show q ∈ h.before nm n by simp [hbefore])).ne
  have hq := (h.mem_liveOf_iff nm).mp (show q ∈ h.liveOf nm by simp [hL])
  have hhead : (h.slot n).dupHead ≠ true := by
    rw [ne_eq, hi.heads nm n (by simp [hL]), hL]
    cases A with
    | nil => simpa using hqn
    | cons x A =>
      have hx : x < n := h.lt_of_mem_before nm (by simp [hbefore])
      simpa using hx.ne
  have hloop : h.detachLoop n h.slots.length (h.find (nameGet (h.slot n))) = some q := by
    rw [hi.find_nameGet, ← hnm]
    rw [hL]
    refine detachLoop_eq (hL ▸ hi.chain nm) ?_
    have := liveOf_length_le (h := h) nm
    rw [hL] at this
    simp at this
    omega
  have hs := Stored.enfree (Stored.modify (f := fun f => { f with nextDup := h.next n }) (h.lt_of_isLive hq.1) hqn) hn
  refine ⟨_, by rw [detachLink, if_neg hhead, hloop]; rfl, hs.relinked (hq.2.trans hnm) rfl rfl rfl,
    by rw [hs.slot_self], by rw [next, hs.slot_self], fun k hk hkq => ?_, fun k hk => ?_,
    fun k hk => ?_, ?_⟩
  · have hkq : k ≠ q := by simpa [eq_comm] using hkq
    rw [next, hs.slot, if_neg hk, if_neg hkq, next]
  · obtain rfl : q = k := by simpa using hk
    rw [next, hs.slot, if_neg hqn, if_pos rfl]
  · have hkn : k ≠ n := by
      rcases mem_append.mp hk with hk | hk
      · exact (h.lt_of_mem_before nm (hbefore ▸ hk)).ne
      · exact (h.lt_of_mem_behind nm hk).ne'
    have hkL : k ∈ h.liveOf nm := by
      rw [hL]
      simp at hk ⊢
      tauto
    rw [← hfirst, ← hi.heads nm k hkL, hs.slot, if_neg hkn]
    split_ifs with hkq
    · rw [hkq]
    · rfl
  · exact hi.index.congr rfl rfl (hi.withFirst_eq hnm hfirst.symm)

theorem Inv.detachLink : ∃ g, h.detachLink n = some g ∧ Relinked h (g.enfree n) n ∧
      ((g.enfree n).slot n).readiness = .detached ∧ Inv (g.enfree n) := by
  obtain ⟨nm, hnm⟩ : ∃ nm, nm = lower (h.slot n).name := ⟨_, rfl⟩
  obtain ⟨g, hg, hu⟩ : ∃ g, h.detachLink n = some g ∧ Unlinked h (g.enfree n) n (h.before nm n) (h.behind nm n) := by
    cases hA : h.before nm n using List.reverseRecOn with
    | nil => exact hi.detachLink_front hl hnm hA
    | append_singleton A q => exact hi.detachLink_behind hl hnm hA
  exact ⟨g, hg, hu.relinked, hu.readiness, hi.unlinked hl hnm hu⟩

end

end Detach

end TrafficServer.MIMEHdr
