import TrafficServer.Cache.Agg

/-!
# A valid entry still has its document

One phase bit tells the entries of the current cycle from those of the last one. Entries of older
cycles would be taken for entries of the current one; they are gone, because `agg_wrap` cleans the
directory right after it has flipped the phase, when every entry in phase is invalid. `Inv` says so
for every entry and every copy; each step keeps it, and with it `dir_valid` is sound.
-/

namespace TrafficServer

open Option List Multiset TrafficServer.Part Relation

def maxPartSize : Int := 512 * 1024 * 1024 * 1024 * 1024

/-! ### Blocks and positions -/

theorem tdiv_blocks (n : Nat) : ((inkBlockSize * n : Int).tdiv inkBlockSize).toNat = n := by
  rw [Int.mul_tdiv_cancel_left _ (by decide)]
  rfl

namespace Part

variable {d : Part} {n : Nat}

theorem writeBlock_of (h : d.header.writePos = d.start + inkBlockSize * n) : d.writeBlock = n := by
  rw [writeBlock, h, show d.start + (inkBlockSize : Int) * n - d.start = inkBlockSize * n by omega, tdiv_blocks]

theorem bufBlocks_of (h : d.aggBufPos = inkBlockSize * n) : d.bufBlocks = n := by rw [bufBlocks, h, tdiv_blocks]

end Part

def Placed.base (P : Placed) : Nat := dirOffset P.dir - 1

def Placed.Covers (P : Placed) (k : Nat) : Prop :=
  P.base ≤ k ∧ k < P.base + dirApproxSize P.dir / inkBlockSize

variable {d : Part}

theorem aggCopy_spec {c : AggVC} {wb ab : Nat}
    (hw : d.header.writePos = d.start + inkBlockSize * wb) (hb : d.aggBufPos = inkBlockSize * ab)
    (hmax : wb + ab + 1 < 2 ^ 40) :
    dirOffset (aggCopy d c) = wb + ab + 1 ∧ dirPhase (aggCopy d c) = d.header.phase := by
  have hoff : (offsetToPartOffset d (d.header.writePos + d.aggBufPos)).toNat = wb + ab + 1 := by
    have hpos : d.header.writePos + d.aggBufPos - d.start + inkBlockSize =
        inkBlockSize * ((wb + ab + 1 : Nat) : Int) := by
      rw [hw, hb]
      push_cast
      ring
    rw [offsetToPartOffset, hpos, tdiv_blocks]
  have hset : ∀ e, dirOffset (dirSetOffset e
      (offsetToPartOffset d (d.header.writePos + d.aggBufPos)).toNat) = wb + ab + 1 := by
    intro e
    rw [dirOffset_setOffset, hoff, Nat.mod_eq_of_lt hmax]
  cases c with
  | write len dir pinned head => exact ⟨hset _, by simp [aggCopy]⟩
  | evacuate len overwriteDir => exact ⟨hset _, by simp [aggCopy]⟩

theorem aggCopy_size (d : Part) {c : AggVC} (hpos : 0 < c.len) (hle : c.len ≤ dirSizeWithBlock 3)
    (hevac : ∀ len e, c = .evacuate len e → dirApproxSize e = c.aggLen) : dirApproxSize (aggCopy d c) = c.aggLen := by
  have hset : ∀ e n, dirApproxSize (dirSetOffset e n) = dirApproxSize e := fun e n =>
    congrArg (fun c : Content => (c.size + 1) * dirBlockSize c.big) (content_setOffset e n)
  cases c with
  | write len dir pinned head =>
    refine (hset ..).trans ((dirApproxSize_setApproxSize dir ?_ ?_).trans (roundToApproxSize_idem len))
    · exact hpos.trans_le (le_roundToApproxSize len)
    · exact roundToApproxSize_le hle
  | evacuate len e => exact (hset ..).trans (hevac len e rfl)

/-- The entry `e'` has the link of `e` and the content `c`. -/
def Dir.Becomes (e e' : Dir) (c : Content) : Prop := e'.content = c ∧ dirNext e' = dirNext e

/-- **Every field of an entry is stored apart from the others, and its size is the rounded one.** -/
theorem dir_packing (e : Dir) : (∀ o < 2 ^ 40, e.Becomes (dirSetOffset e o) { e.content with offset := o }) ∧
    (∀ v < 4, e.Becomes (dirSetBig e v) { e.content with big := v }) ∧
    (∀ v < 64, e.Becomes (dirSetSize e v) { e.content with size := v }) ∧
    (∀ t, e.Becomes (dirSetTag e t) { e.content with tag := dirMaskTag t }) ∧
    (∀ v, e.Becomes (dirSetPhase e v) { e.content with phase := v } ∧
      e.Becomes (dirSetHead e v) { e.content with head := v } ∧
      e.Becomes (dirSetPinned e v) { e.content with pinned := v } ∧
      e.Becomes (dirSetToken e v) { e.content with token := v }) ∧
    (∀ n < 2 ^ 16, (dirSetNext e n).content = e.content ∧ dirNext (dirSetNext e n) = n) ∧
    (∀ s, 0 < s → s ≤ dirSizeWithBlock 3 →
      (∃ size big, e.Becomes (dirSetApproxSize e s) { e.content with size := size, big := big }) ∧
      dirApproxSize (dirSetApproxSize e s) = roundToApproxSize s ∧ s ≤ roundToApproxSize s ∧
      ∀ (d : Part) pinned head, dirApproxSize (aggCopy d (.write s e pinned head)) = roundToApproxSize s) ∧
    (∀ s, roundToApproxSize (roundToApproxSize s) = roundToApproxSize s) ∧ Monotone roundToApproxSize := by
  refine ⟨fun o ho => ⟨?_, rfl⟩, fun v hv => ⟨?_, rfl⟩, fun v hv => ⟨?_, rfl⟩, fun t => ⟨content_setTag e t, rfl⟩,
    fun v => ⟨⟨content_setPhase e v, rfl⟩, ⟨content_setHead e v, rfl⟩, ⟨content_setPinned e v, rfl⟩,
      content_setToken e v, rfl⟩, fun n hn => ⟨rfl, ?_⟩, fun s hs hle => ⟨?_, ?_, le_roundToApproxSize s, ?_⟩,
    roundToApproxSize_idem, roundToApproxSize_mono⟩
  · rw [content_setOffset, Nat.mod_eq_of_lt ho]
  · rw [content_setBig, Nat.mod_eq_of_lt hv]
  · rw [content_setSize, Nat.mod_eq_of_lt hv]
  · rw [dirNext_setNext]
    exact Nat.mod_eq_of_lt hn
  · unfold dirSetApproxSize
    split_ifs <;> exact ⟨_, _, by rw [content_setSize, content_setBig], rfl⟩
  · exact dirApproxSize_setApproxSize e hs hle
  · exact fun d pinned head => aggCopy_size d hs hle fun len e' h => by cases h

theorem dir_packing_clear : (dirSetOffset dirClear 7).content = { dirClear.content with offset := 7 } ∧
    dirApproxSize (dirSetApproxSize dirClear 40000) = 40960 := by
  obtain ⟨hoffset, -, -, -, -, -, hsize, -⟩ := dir_packing dirClear
  exact ⟨(hoffset 7 (by decide)).1, (hsize 40000 (by decide) (by decide)).2.1⟩

variable {new : Option (CacheKey × Dir × Nat)} {op : Part.DirOp} {s b fuel : Nat} {x : Content × Nat}

namespace World

variable {w w' : World} {wb ab j k : Nat} {P : Placed} {c : AggVC}

/-- Up to here blocks may have been overwritten, or are about to be, in the current cycle. -/
def limit (io : Bool) (wb ab : Nat) : Nat := if io then wb + ab else wb

/-- What is known of copy `j`: while its cycle lasts its blocks are on disk or in the buffer, and
during the next cycle those that the write position has not reached are still on disk. -/
structure PlacedOk (w : World) (wb ab j : Nat) (P : Placed) : Prop where
  cycle_le : P.cycle ≤ w.part.header.cycle
  phase : dirPhase P.dir = decide (P.cycle % 2 = 1)
  offset_pos : 0 < dirOffset P.dir
  size : dirApproxSize P.dir = roundToApproxSize P.len
  below : P.cycle = w.part.header.cycle → ∀ k, P.Covers k → k < wb + ab
  current : P.cycle = w.part.header.cycle → ∀ k, P.Covers k →
    if k < wb then w.disk k = some j else w.buf (k - wb) = some j
  last : P.cycle + 1 = w.part.header.cycle → ∀ k, P.Covers k → limit w.io wb ab ≤ k →
    w.disk k = some j

/-- The entry with content `c` was created for copy `j`, of this cycle or the last. -/
def CreatedFor (w : World) (j : Nat) (c : Content) : Prop :=
  ∃ P, w.placed[j]? = some P ∧
    (P.cycle = w.part.header.cycle ∨ P.cycle + 1 = w.part.header.cycle) ∧
    c.offset = dirOffset P.dir ∧ c.phase = dirPhase P.dir ∧ c.size = dirSize P.dir ∧
    c.big = dirBig P.dir

structure Inv (w : World) (wb ab : Nat) : Prop where
  wf : w.part.WF
  room : w.part.skip + inkBlockSize ≤ w.part.start
  small : w.part.len ≤ maxPartSize
  write_eq : w.part.header.writePos = w.part.start + inkBlockSize * wb
  buf_eq : w.part.aggBufPos = inkBlockSize * ab
  agg_eq : w.part.header.aggPos = w.part.start + inkBlockSize * limit w.io wb ab
  fits : w.part.header.writePos + w.part.aggBufPos ≤ w.part.skip + w.part.len
  phase : w.part.header.phase = decide (w.part.header.cycle % 2 = 1)
  placed : ∀ j P, w.placed[j]? = some P → w.PlacedOk wb ab j P
  contents : ∀ s < w.part.geo.segments, ∀ b < w.part.geo.buckets,
    (w.entries s b).map Prod.fst = w.part.contents s b
  created : ∀ s < w.part.geo.segments, ∀ b < w.part.geo.buckets, ∀ x ∈ w.entries s b,
    w.CreatedFor x.2 x.1

theorem Inv.buffered (h : w.Inv wb ab) : w.Buffered k ↔ wb ≤ k ∧ k < wb + ab := by
  rw [Buffered, writeBlock_of h.write_eq, bufBlocks_of h.buf_eq]

theorem Inv.end_eq (h : w.Inv wb ab) : w.part.header.writePos + w.part.aggBufPos =
    w.part.start + inkBlockSize * (wb + ab : Nat) := by
  rw [h.write_eq, h.buf_eq]
  push_cast
  ring

theorem parity_succ (n : Nat) : decide ((n + 1) % 2 = 1) = !decide (n % 2 = 1) := by
  rcases Nat.mod_two_eq_zero_or_one n with hn | hn <;> simp [Nat.add_mod, hn]

/-! ### One step -/

theorem Fits.blocks (hfits : w.Fits c) (hbuf : 0 ≤ w.part.aggBufPos) (hpos : 0 < c.len) :
    c.len ≤ dirSizeWithBlock 3 ∧ ∃ m, 0 < m ∧ c.aggLen = inkBlockSize * m := by
  have hle : c.aggLen ≤ aggSize := by
    have := hfits.1
    omega
  have hmax : c.len ≤ dirSizeWithBlock 3 := (le_roundToApproxSize c.len).trans (hle.trans (by decide))
  have hge := le_roundToApproxSize c.len
  obtain ⟨m, hm⟩ := dvd_roundToApproxSize c.len
  refine ⟨hmax, m, pos_of_ne_zero ?_, hm⟩
  rintro rfl
  omega

theorem Ready.len_pos (h : w.Ready c) : 0 < c.len := by
  cases c with
  | write => exact h
  | evacuate => exact h.1

section Wrap
variable (h : w.Inv wb ab)
include h

theorem Inv.offset_lt (hfits : w.Fits c) {m : Nat} (hm : 0 < m)
    (hlen : c.aggLen = inkBlockSize * m) : wb + ab + 1 < 2 ^ 40 := by
  have h1 := hfits.2
  have h2 := h.room
  have h3 := h.small
  rw [h.write_eq, h.buf_eq, hlen] at h1
  simp only [inkBlockSize, maxPartSize] at h1 h2 h3
  omega

theorem Inv.place (hready : w.Ready c) (hidle : w.io = false)
    (hfits : w.Fits c) : (w.place c).Inv wb (ab + c.aggLen / inkBlockSize) := by
  have hbuf : 0 ≤ w.part.aggBufPos := by rw [h.buf_eq]; positivity
  obtain ⟨hmax, m, hm, hlen⟩ := hfits.blocks hbuf hready.len_pos
  have hdiv : c.aggLen / inkBlockSize = m := by
    rw [hlen]
    exact Nat.mul_div_cancel_left m (by decide)
  obtain ⟨hoff, hphase⟩ := aggCopy_spec (c := c) h.write_eq h.buf_eq (h.offset_lt hfits hm hlen)
  have hsize : dirApproxSize (aggCopy w.part c) = c.aggLen := by
    refine aggCopy_size w.part hready.len_pos hmax ?_
    rintro len e rfl
    obtain ⟨-, P, hP, rfl, he⟩ := hready
    obtain ⟨i, hi⟩ := mem_iff_getElem?.1 hP
    rw [he, (h.placed i P hi).size]
    rfl
  have hlim : ∀ a, limit w.io wb a = wb := fun a => by rw [hidle]; rfl
  have hbufBlocks := bufBlocks_of h.buf_eq
  rw [hdiv]
  refine
    { wf := h.wf, room := h.room, small := h.small, write_eq := h.write_eq
      phase := h.phase, contents := h.contents
      fits := (add_assoc ..).symm.trans_le hfits.2
      buf_eq := ?_, agg_eq := ?_, placed := ?_, created := ?_ }
  · change w.part.aggBufPos + c.aggLen = _
    rw [h.buf_eq, hlen]
    push_cast
    ring
  · change w.part.header.aggPos = w.part.start + inkBlockSize * limit w.io wb (ab + m)
    rw [hlim, h.agg_eq, hlim]
  · intro j P hj
    change (w.placed ++ [_])[j]? = some P at hj
    rcases lt_or_ge j w.placed.length with hlt | hge
    · -- an older copy lies below the new blocks of the buffer
      rw [getElem?_append_left hlt] at hj
      have hP := h.placed j P hj
      refine { hP with below := ?_, current := ?_, last := ?_ }
      · intro hc k hk
        have := hP.below hc k hk
        omega
      · intro hc k hk
        have hk' := hP.below hc k hk
        have hcur := hP.current hc k hk
        split at hcur
        · next hkw => rw [if_pos hkw]; exact hcur
        · next hkw =>
          rw [if_neg hkw, ← hcur]
          refine if_neg ?_
          rw [hbufBlocks]
          omega
      · intro hc k hk hkl
        refine hP.last hc k hk ?_
        change limit w.io wb (ab + m) ≤ k at hkl
        rw [hlim] at hkl ⊢
        exact hkl
    · obtain rfl : j = w.placed.length := by
        by_contra hne
        rw [getElem?_append_right hge, getElem?_eq_none (by simp; omega)] at hj
        cases hj
      rw [getElem?_concat_length] at hj
      cases hj
      have hcov : ∀ k, Placed.Covers ⟨aggCopy w.part c, c.len, w.part.header.cycle⟩ k →
          wb + ab ≤ k ∧ k < wb + ab + m := by
        intro k hk
        simp only [Placed.Covers, Placed.base, hoff, hsize, hdiv] at hk
        omega
      refine ⟨le_rfl, ?_, ?_, hsize, ?_, ?_, ?_⟩
      · rw [hphase, h.phase]
      · rw [hoff]
        omega
      · intro _ k hk
        have := hcov k hk
        omega
      · intro _ k hk
        have := hcov k hk
        rw [if_neg (by omega)]
        refine if_pos ?_
        rw [hbufBlocks, hdiv]
        omega
      · intro hc
        exact absurd hc (Nat.succ_ne_self _)
  · intro s hs b hb x hx
    obtain ⟨P, hP, hrest⟩ := h.created s hs b hb x hx
    refine ⟨P, ?_, hrest⟩
    have hlt : x.2 < w.placed.length := (List.getElem?_eq_some_iff.1 hP).1
    exact (getElem?_append_left hlt).trans hP

theorem Inv.issue (hidle : w.io = false) : w.issue.Inv wb ab := by
  refine { h with agg_eq := h.end_eq, placed := ?_ }
  intro j P hj
  have hP := h.placed j P hj
  refine { hP with last := ?_ }
  intro hc k hk hkl
  refine hP.last hc k hk ?_
  change wb + ab ≤ k at hkl
  rw [hidle]
  change wb ≤ k
  omega

theorem Inv.land (hbusy : w.io = true) (hk : w.Buffered k) : (w.land k).Inv wb ab := by
  rw [h.buffered] at hk
  refine { h with placed := ?_ }
  intro j P hj
  have hP := h.placed j P hj
  have hdisk : ∀ i, i ≠ k → (w.land k).disk i = w.disk i := fun i hi => Function.update_of_ne hi ..
  refine { hP with current := ?_, last := ?_ }
  · intro hc i hi
    have hcur := hP.current hc i hi
    split
    · next hiw =>
      rw [if_pos hiw] at hcur
      rw [hdisk i (by omega), hcur]
    · next hiw => rwa [if_neg hiw] at hcur
  · intro hc i hi hil
    change limit w.io wb ab ≤ i at hil
    have hil' := hil
    rw [hbusy, limit, if_pos rfl] at hil'
    rw [hdisk i (by omega)]
    exact hP.last hc i hi hil

theorem Inv.done (hbusy : w.io = true) : w.done.Inv (wb + ab) 0 := by
  have hdisk : ∀ k, w.done.disk k = if wb ≤ k ∧ k < wb + ab then w.buf (k - wb) else w.disk k := by
    intro k
    change (if w.Buffered k then _ else _) = _
    rw [writeBlock_of h.write_eq]
    simp only [h.buffered]
  have hagg : limit w.io wb ab = wb + ab := by rw [hbusy]; rfl
  refine { h with write_eq := h.end_eq, buf_eq := ?_, agg_eq := ?_, fits := ?_, placed := ?_ }
  · exact (Int.mul_zero _).symm
  · exact hagg ▸ h.agg_eq
  · change w.part.header.writePos + w.part.aggBufPos + 0 ≤ _
    rw [add_zero]
    exact h.fits
  · intro j P hj
    have hP := h.placed j P hj
    refine { hP with below := hP.below, current := ?_, last := ?_ }
    · intro hc k hk
      have hkb := hP.below hc k hk
      have hcur := hP.current hc k hk
      rw [if_pos hkb, hdisk]
      split at hcur
      · rw [if_neg (by omega), hcur]
      · rw [if_pos (by omega), hcur]
    · intro hc k hk hkl
      change wb + ab ≤ k at hkl
      rw [hdisk, if_neg (by omega)]
      exact hP.last hc k hk (hagg ▸ hkl)

/-- The wrap. In phase with the new cycle are the entries of the cycle before the last; no offset
is below the start, so they are all cleaned away. -/
theorem Inv.wrap (hidle : w.io = false) (hempty : w.part.aggBufPos = 0) (hrun : w.wrap = some w') : w'.Inv 0 0 := by
  obtain ⟨d, hd, rfl⟩ := map_eq_some_iff.1 hrun
  have hab : ab = 0 := by
    have := h.buf_eq
    simp only [inkBlockSize] at this
    omega
  subst hab
  let d0 : Part := { w.part with
    header := { w.part.header with
      writePos := w.part.start
      phase := !w.part.header.phase
      cycle := w.part.header.cycle + 1
      aggPos := w.part.start } }
  have hwf0 : d0.WF := h.wf
  obtain ⟨d', hd', hsame, hwf, hc⟩ := dirCleanPart_spec hwf0.laid
  obtain rfl : d' = d := some.inj (hd'.symm.trans hd)
  have hcycle : d'.header.cycle = w.part.header.cycle + 1 := by rw [hsame]
  have hgeo : d'.geo = w.part.geo := hsame.geo
  have hkept : ∀ s < w.part.geo.segments, ∀ b < w.part.geo.buckets, ∀ c ∈ d'.contents s b,
      contentValid d0 c = true ∧ c ∈ w.part.contents s b := by
    intro s hs b hb c hcm
    rw [hc s hs b hb, Multiset.mem_filter] at hcm
    exact ⟨hcm.2, hcm.1⟩
  refine ⟨hwf, ?_, ?_, ?_, ?_, ?_, ?_, ?_, ?_, ?_, ?_⟩
  · rw [hsame]; exact h.room
  · rw [hsame]; exact h.small
  · rw [hsame]; exact (add_zero _).symm
  · rw [hsame]; exact hempty
  · rw [hsame]; simp [limit, hidle, d0]
  · rw [hsame]
    have hfits := h.fits
    rw [h.write_eq] at hfits
    have : (0 : Int) ≤ inkBlockSize * wb := by positivity
    change w.part.start + w.part.aggBufPos ≤ w.part.skip + w.part.len
    omega
  · rw [hsame]
    change (!w.part.header.phase) = decide ((w.part.header.cycle + 1) % 2 = 1)
    rw [h.phase, parity_succ]
  · intro j P hj
    have hP := h.placed j P hj
    have hno : P.cycle < d'.header.cycle := hcycle ▸ Nat.lt_succ_of_le hP.cycle_le
    refine ⟨hno.le, hP.phase, hP.offset_pos, hP.size, fun hcyc => absurd hcyc hno.ne,
      fun hcyc => absurd hcyc hno.ne, ?_⟩
    · intro hcyc k hk _
      change P.cycle + 1 = d'.header.cycle at hcyc
      have hcur := hP.current (by omega) k hk
      rwa [if_pos (show k < wb from hP.below (by omega) k hk)] at hcur
  · intro s hs b hb
    rw [hgeo] at hs hb
    have hmap : ((w.entries s b).filter fun x => x.1 ∈ d'.contents s b).map Prod.fst =
        ((w.entries s b).map Prod.fst).filter (· ∈ d'.contents s b) := by
      rw [Multiset.filter_map]
      rfl
    rw [hmap, h.contents s hs b hb]
    have hmem : ∀ c ∈ w.part.contents s b, (c ∈ d'.contents s b ↔ contentValid d0 c = true) := by
      intro c hcm
      rw [hc s hs b hb, Multiset.mem_filter]
      exact and_iff_right hcm
    rw [Multiset.filter_congr hmem, hc s hs b hb]
    rfl
  · intro s hs b hb x hx
    rw [hgeo] at hs hb
    obtain ⟨hx, hxm⟩ := mem_filter.1 hx
    obtain ⟨P, hP, hcyc, hoff, hph, hsz⟩ := h.created s hs b hb x hx
    have hPok := h.placed _ P hP
    refine ⟨P, hP, .inr ?_, hoff, hph, hsz⟩
    change P.cycle + 1 = d'.header.cycle
    rcases hcyc with hcyc | hcyc
    · omega
    · -- an entry of the cycle before is in phase now, and would have to lie before the start
      have hvalid := (hkept s hs b hb x.1 hxm).1
      have hphase : d0.header.phase = x.1.phase := by
        change (!w.part.header.phase) = _
        rw [hph, hPok.phase, h.phase, ← hcyc, parity_succ, Bool.not_not]
      rw [contentValid, if_pos hphase] at hvalid
      have hzero : (d0.header.writePos + d0.aggBufPos - d0.start).tdiv inkBlockSize = 0 := by
        rw [hempty, add_zero, sub_self]
        rfl
      have := hPok.offset_pos
      have hlt := of_decide_eq_true hvalid
      omega

end Wrap

theorem mem_withNew (h : x ∈ w.withNew new s b) :
    x ∈ w.entries s b ∨ ∃ key e j, new = some (key, e, j) ∧ x = (e.under (key.word 2), j) := by
  unfold withNew at h
  split at h
  · split at h
    · rcases mem_cons.1 h with rfl | h
      · exact .inr ⟨_, _, _, rfl, rfl⟩
      · exact .inl h
    · exact .inl h
  · exact .inl h

theorem NewEntry.recent {key : CacheKey} {e : Dir} (h : w.NewEntry op (some (key, e, j))) : w.Recent j e := by
  cases op with
  | insert =>
    obtain ⟨i, hi, heq⟩ := h
    cases heq
    exact hi
  | overwrite =>
    obtain ⟨i, hi, heq⟩ := h
    cases heq
    exact hi
  | initSegment | moveHeader => exact h.elim
  | _ => cases h

theorem Inv.dirOp (h : w.Inv wb ab) {entries : Nat → Nat → Multiset (Content × Nat)} (hok : op.Admissible w.part)
    (hnew : w.NewEntry op new) (hrun : w.part.apply fuel op = some d)
    (hfrom : ∀ s b, entries s b ≤ w.withNew new s b) (hsame : ∀ s < d.geo.segments, ∀ b < d.geo.buckets,
      (entries s b).map Prod.fst = d.contents s b) : World.Inv { w with part := d, entries := entries } wb ab := by
  have hwf := (h.wf.step ⟨op, fuel, hok, hrun⟩).1
  have hhdr : w.part.SameHeader d := by
    refine apply_sameHeader ?_ h.wf hrun
    rintro p x a b rfl
    exact hnew
  have hcycle : d.header.cycle = w.part.header.cycle := by rw [hhdr]
  have hgeo := hhdr.geo
  refine ⟨hwf, ?_, ?_, ?_, ?_, ?_, ?_, ?_, ?_, hsame, ?_⟩
  · rw [hhdr]; exact h.room
  · rw [hhdr]; exact h.small
  · rw [hhdr]; exact h.write_eq
  · rw [hhdr]; exact h.buf_eq
  · rw [hhdr]; exact h.agg_eq
  · rw [hhdr]; exact h.fits
  · rw [hhdr]; exact h.phase
  · intro j P hj
    have hP := h.placed j P hj
    exact ⟨hcycle ▸ hP.cycle_le, hP.phase, hP.offset_pos, hP.size,
      fun hc => hP.below (hc.trans hcycle), fun hc => hP.current (hc.trans hcycle),
      fun hc => hP.last (hc.trans hcycle)⟩
  · intro s hs b hb x hx
    have hcreated : w.CreatedFor x.2 x.1 := by
      have hx' := mem_of_le (hfrom s b) hx
      rw [hgeo] at hs hb
      rcases mem_withNew hx' with hx' | ⟨key, e, j, rfl, rfl⟩
      · exact h.created s hs b hb x hx'
      · obtain ⟨P, hP, hcyc, hoff, hph, hsz, hbig⟩ := hnew.recent
        exact ⟨P, hP, hcyc, hoff, hph, hsz, hbig⟩
    obtain ⟨P, hP, hcyc, hrest⟩ := hcreated
    exact ⟨P, hP, by rwa [hcycle], hrest⟩

theorem Inv.step (h : w.Inv wb ab) (hstep : Step w w') : ∃ wb' ab', w'.Inv wb' ab' := by
  cases hstep with
  | place c ready idle fits => exact ⟨_, _, h.place ready idle fits⟩
  | issue idle _ => exact ⟨_, _, h.issue idle⟩
  | land k busy hk => exact ⟨_, _, h.land busy hk⟩
  | done busy => exact ⟨_, _, h.done busy⟩
  | wrap _ idle empty _ run => exact ⟨_, _, h.wrap idle empty run⟩
  | dirOp op fuel new d entries ok hnew run from_old same => exact ⟨_, _, h.dirOp ok hnew run from_old same⟩

/-- A partition after `part_clear_init`, with whatever the blocks held before. -/
def init (d : Part) (disk : Nat → Option Nat) : World where
  part := d.clearInit
  io := false
  disk := disk
  buf := fun _ => none
  placed := []
  entries := fun _ _ => 0

theorem init_inv (hroom : d.skip + inkBlockSize ≤ d.start) (hsmall : d.len ≤ maxPartSize)
    (hlen : d.start ≤ d.skip + d.len) (hbuf : d.aggBufPos = 0) (disk : Nat → Option Nat) : (init d disk).Inv 0 0 := by
  obtain ⟨hwf, hempty, freelist, dir, heq⟩ := d.clearInit_spec
  have hgeo : d.clearInit.geo = d.geo := by rw [heq]
  refine ⟨hwf, ?_, ?_, ?_, ?_, ?_, ?_, ?_, by simp [init], ?_, by simp [init]⟩
  · change d.clearInit.skip + inkBlockSize ≤ d.clearInit.start
    rwa [heq]
  · change d.clearInit.len ≤ maxPartSize
    rwa [heq]
  · change d.clearInit.header.writePos = d.clearInit.start + inkBlockSize * (0 : Nat)
    simp [heq]
  · change d.clearInit.aggBufPos = _
    simp [heq, hbuf]
  · change d.clearInit.header.aggPos = d.clearInit.start + _
    simp [heq, limit, init]
  · change d.clearInit.header.writePos + d.clearInit.aggBufPos ≤ d.clearInit.skip + d.clearInit.len
    rw [heq]
    simpa [hbuf] using hlen
  · change d.clearInit.header.phase = decide (d.clearInit.header.cycle % 2 = 1)
    simp [heq]
  · intro s hs b hb
    change s < d.clearInit.geo.segments at hs
    change b < d.clearInit.geo.buckets at hb
    rw [hgeo] at hs hb
    exact (hempty s hs b hb).symm

/-! ### Soundness of `dir_valid` -/

/-- Block `k` lies in what an entry designates: `part_offset` on, for its approximate size. -/
def Designates (d : Part) (c : Content) (k : Nat) : Prop :=
  d.start + c.offset * inkBlockSize - inkBlockSize ≤ d.start + (k : Int) * inkBlockSize ∧
    d.start + (k : Int) * inkBlockSize <
      d.start + c.offset * inkBlockSize - inkBlockSize + (c.size + 1 : Nat) * dirBlockSize c.big

/-- Block `k` holds a block of copy `j`: on disk, where no issued write will overwrite it, or in
the aggregation buffer. -/
def Holds (w : World) (j k : Nat) : Prop :=
  (w.disk k = some j ∧ ¬ (w.io = true ∧ w.Buffered k)) ∨
    (w.Buffered k ∧ w.buf (k - w.part.writeBlock) = some j)

theorem Designates.covers {c : Content} (hk : Designates d c k)
    (hc : c.offset = dirOffset P.dir) (hs : c.size = dirSize P.dir) (hb : c.big = dirBig P.dir)
    (hpos : 0 < dirOffset P.dir) : P.Covers k := by
  obtain ⟨h1, h2⟩ := hk
  obtain ⟨m, hm⟩ : inkBlockSize ∣ dirApproxSize P.dir := by
    rw [dirApproxSize, dirBlockSize_eq]
    exact Dvd.dvd.mul_left (dvd_mul_right ..) _
  have happrox : ((c.size + 1 : Nat) : Int) * dirBlockSize c.big = inkBlockSize * m := by
    rw [hs, hb]
    exact_mod_cast hm
  rw [happrox, hc] at h2
  rw [Placed.Covers, Placed.base, hm, Nat.mul_div_cancel_left m (by decide)]
  simp only [inkBlockSize] at h1 h2
  omega

theorem Inv.valid_holds (h : w.Inv wb ab) (hs : s < w.part.geo.segments)
    (hb : b < w.part.geo.buckets) (hx : x ∈ w.entries s b)
    (hvalid : contentValid w.part x.1 = true) (hk : Designates w.part x.1 k) : w.Holds x.2 k := by
  obtain ⟨P, hP, hcyc, hoff, hph, hsz, hbig⟩ := h.created s hs b hb x hx
  have hPok := h.placed _ P hP
  have hcov : P.Covers k := hk.covers hoff hsz hbig hPok.offset_pos
  have hwb := writeBlock_of h.write_eq
  rw [Holds, h.buffered, hwb]
  rcases hcyc with hcyc | hcyc
  · -- a copy of this cycle: behind the write position on disk, else still in the buffer
    have hbelow := hPok.below hcyc k hcov
    have hcur := hPok.current hcyc k hcov
    split at hcur
    · exact .inl ⟨hcur, by omega⟩
    · exact .inr ⟨by omega, hcur⟩
  · -- a copy of the last cycle: out of phase, so at or after `agg_pos`
    have hphase : w.part.header.phase ≠ x.1.phase := by
      rw [hph, hPok.phase, h.phase, ← hcyc]
      rcases Nat.mod_two_eq_zero_or_one P.cycle with hp | hp <;> simp [Nat.add_mod, hp]
    rw [contentValid, if_neg hphase] at hvalid
    have hagg : (w.part.header.aggPos - w.part.start).tdiv inkBlockSize = (limit w.io wb ab : Int) := by
      rw [h.agg_eq, show w.part.start + (inkBlockSize : Int) * limit w.io wb ab - w.part.start =
        inkBlockSize * limit w.io wb ab by omega, Int.mul_tdiv_cancel_left _ (by decide)]
    have hge := of_decide_eq_true hvalid
    have hbase : P.base ≤ k := hcov.1
    have hlim : limit w.io wb ab ≤ k := by
      rw [Placed.base] at hbase
      omega
    refine .inl ⟨hPok.last hcyc k hcov hlim, fun ⟨hio, hbuf⟩ => ?_⟩
    rw [hio, limit, if_pos rfl] at hlim
    omega

theorem exists_map_eq_of_le {α β : Type*} [DecidableEq β] {f : α → β} {t : Multiset α} :
    ∀ {m : Multiset β}, m ≤ t.map f → ∃ t' ≤ t, t'.map f = m := by
  induction t using Multiset.induction with
  | empty =>
    intro m h
    exact ⟨0, le_rfl, (le_zero.1 h).symm⟩
  | cons a t ih =>
    intro m h
    rw [Multiset.map_cons] at h
    by_cases ha : f a ∈ m
    · obtain ⟨m', rfl⟩ := Multiset.exists_cons_of_mem ha
      obtain ⟨t', ht', rfl⟩ := ih ((cons_le_cons_iff _).1 h)
      exact ⟨a ::ₘ t', cons_le_cons a ht', map_cons ..⟩
    · obtain ⟨t', ht', rfl⟩ := ih ((le_cons_of_notMem ha).1 h)
      exact ⟨t', ht'.trans (le_cons_self ..), rfl⟩

theorem NewEntry.adds (h : w.NewEntry op new) (s b : Nat) :
    (w.withNew new s b).map Prod.fst = op.adds w.part s b + (w.entries s b).map Prod.fst := by
  cases op with
  | insert key e =>
    obtain ⟨j, -, rfl⟩ := h
    rw [withNew, Part.DirOp.adds]
    split_ifs <;> simp
  | overwrite key e old must =>
    obtain ⟨j, -, rfl⟩ := h
    rw [withNew, Part.DirOp.adds]
    split_ifs <;> simp
  | initSegment | moveHeader => exact h.elim
  | _ =>
    cases h
    exact (zero_add _).symm

theorem Inv.exists_step (h : w.Inv wb ab) (hok : op.Admissible w.part)
    (hnew : w.NewEntry op new) (hrun : w.part.apply fuel op = some d) :
    ∃ entries, Step w { w with part := d, entries := entries } := by
  have hgeo := (h.wf.step ⟨op, fuel, hok, hrun⟩).2
  have hpick : ∀ s b, ∃ m ≤ w.withNew new s b,
      s < w.part.geo.segments → b < w.part.geo.buckets → m.map Prod.fst = d.contents s b := by
    intro s b
    by_cases hsb : s < w.part.geo.segments ∧ b < w.part.geo.buckets
    · have hle := h.wf.apply_le hok hrun hsb.1 hsb.2
      rw [← h.contents s hsb.1 b hsb.2, ← hnew.adds] at hle
      obtain ⟨m, hm, hmap⟩ := exists_map_eq_of_le hle
      exact ⟨m, hm, fun _ _ => hmap⟩
    · exact ⟨0, zero_le _, fun hs hb => absurd ⟨hs, hb⟩ hsb⟩
  choose entries hle hmap using hpick
  refine ⟨entries, .dirOp w op fuel new d entries hok hnew hrun hle fun s hs b hb => ?_⟩
  rw [hgeo] at hs hb
  exact hmap s b hs hb

/-- **A valid entry designates blocks that still hold its document.** In every state of every run
from a cleared partition: the entries of the directory are those of `entries`, each of which is
known with the copy it was created for; when `dir_valid` holds of one, every block it designates
holds that copy, on disk and not about to be overwritten, or in the aggregation buffer. And every
directory operation of the code but a stray probe is a step of such a run. -/
theorem dirValid_sound {d : Part} (hroom : d.skip + inkBlockSize ≤ d.start)
    (hsmall : d.len ≤ maxPartSize) (hlen : d.start ≤ d.skip + d.len) (hbuf : d.aggBufPos = 0)
    (disk : Nat → Option Nat) (w : World) (hrun : ReflTransGen Step (init d disk) w) :
    (∀ s < w.part.geo.segments, ∀ b < w.part.geo.buckets, (w.entries s b).map Prod.fst = w.part.contents s b ∧
      ∀ x ∈ w.entries s b, w.CreatedFor x.2 x.1 ∧ (contentValid w.part x.1 = true →
        ∀ k, Designates w.part x.1 k → w.Holds x.2 k)) ∧
    ∀ op fuel new d', op.Admissible w.part → w.NewEntry op new → w.part.apply fuel op = some d' →
      ∃ entries, Step w { w with part := d', entries := entries } := by
  obtain ⟨wb, ab, h⟩ : ∃ wb ab, w.Inv wb ab := by
    induction hrun with
    | refl => exact ⟨0, 0, init_inv hroom hsmall hlen hbuf disk⟩
    | tail _ hstep ih =>
      obtain ⟨wb, ab, h⟩ := ih
      exact h.step hstep
  refine ⟨fun s hs b hb => ⟨h.contents s hs b hb, fun x hx => ⟨h.created s hs b hb x hx,
    fun hv k hk => h.valid_holds hs hb hx hv hk⟩⟩, fun op fuel new d' hok hnew hd => ?_⟩
  exact h.exists_step hok hnew hd

/-- `Part.tiny` after a document of 100 bytes has been copied. -/
def tinyCopied : World := (init Part.tiny fun _ => none).place (.write 100 dirClear false true)

def tinyEntry : Dir := aggCopy tiny.clearInit (.write 100 dirClear false true)

/-- One document is copied and entered in the directory; its block is in the buffer. -/
theorem dirValid_sound_tiny : ∃ w j c, ReflTransGen Step (init tiny fun _ => none) w ∧
    (c, j) ∈ w.entries 0 0 ∧ contentValid w.part c = true ∧ w.Holds j 0 := by
  have hplace : Step (init tiny fun _ => none) tinyCopied :=
    .place _ (.write 100 dirClear false true) (Nat.succ_pos 99) rfl (by decide)
  have hinsert := Step.dirOp tinyCopied (.insert ⟨0, 7⟩ tinyEntry) 1 _ _ _
    (show dirOffset tinyEntry ≠ 0 by decide) ⟨0, ⟨_, rfl, .inl rfl, rfl, rfl, rfl, rfl⟩, rfl⟩ rfl
    (fun _ _ => le_rfl) (by decide)
  have hrun := (ReflTransGen.single hplace).tail hinsert
  have hmem : (tinyEntry.under 7, 0) ∈ tinyCopied.withNew (some (⟨0, 7⟩, tinyEntry, 0)) 0 0 := by decide
  have hholds := (((dirValid_sound (by decide) (by decide) (by decide) rfl _ _ hrun).1 0 (by decide) 0
    (by decide)).2 _ hmem).2 (by decide) 0 (by constructor <;> decide)
  exact ⟨_, 0, tinyEntry.under 7, hrun, hmem, by decide, hholds⟩

/-! ### `aggWrite` is a run of steps -/

section AggWrite
variable {handle : World → AggVC → Option World}

theorem Step.placed_append (h : Step w w') : ∃ l, w'.placed = w.placed ++ l := by
  cases h with
  | place => exact ⟨_, rfl⟩
  | wrap _ _ _ _ run =>
    obtain ⟨d, -, rfl⟩ := map_eq_some_iff.1 run
    exact ⟨[], by simp⟩
  | _ => exact ⟨[], (append_nil _).symm⟩

theorem Ready.mono (h : w.Ready c) (hrun : ReflTransGen Step w w') : w'.Ready c := by
  induction hrun with
  | refl => exact h
  | tail _ hstep ih =>
    obtain ⟨l, hl⟩ := hstep.placed_append
    cases c with
    | write => exact ih
    | evacuate len e =>
      obtain ⟨hpos, P, hP, hrest⟩ := ih
      exact ⟨hpos, P, by rw [hl]; exact mem_append_left _ hP, hrest⟩

theorem copyLoop_steps (hhandle : ∀ w c w', handle w c = some w' → ReflTransGen Step w w' ∧ w'.io = w.io)
    (q : List AggVC) : ∀ {w w' : World} {q' : List AggVC}, (∀ c ∈ q, w.Ready c) → w.io = false →
      copyLoop handle q w = some (w', q') →
      ReflTransGen Step w w' ∧ w'.io = false ∧ ∀ c ∈ q', w'.Ready c := by
  induction q with
  | nil =>
    intro w w' q' _ hidle hrun
    cases hrun
    exact ⟨.refl, hidle, by simp⟩
  | cons c q ih =>
    intro w w' q' hready hidle hrun
    rw [copyLoop] at hrun
    by_cases hfits : w.Fits c
    · rw [if_pos hfits] at hrun
      have hplace : Step w (w.place c) := .place w c (hready c (by simp)) hidle hfits
      have hfirst : ∃ w1, ReflTransGen Step w w1 ∧ w1.io = false ∧ copyLoop handle q w1 = some (w', q') := by
        by_cases hevac : c.evacuator = true
        · rw [if_pos hevac] at hrun
          obtain ⟨w1, hw1, hrest⟩ := bind_eq_some_iff.1 hrun
          obtain ⟨hsteps, hio⟩ := hhandle _ _ _ hw1
          exact ⟨w1, .head hplace hsteps, hio.trans hidle, hrest⟩
        · rw [if_neg hevac] at hrun
          exact ⟨w.place c, .single hplace, hidle, hrun⟩
      obtain ⟨w1, hto, hidle1, hrest⟩ := hfirst
      obtain ⟨hsteps, hio, hready'⟩ := ih (fun c' hc' => (hready c' (by simp [hc'])).mono hto) hidle1 hrest
      exact ⟨hto.trans hsteps, hio, hready'⟩
    · rw [if_neg hfits] at hrun
      cases hrun
      exact ⟨.refl, hidle, hready⟩

theorem Inv.run (h : w.Inv wb ab) (hrun : ReflTransGen Step w w') : ∃ wb ab, w'.Inv wb ab := by
  induction hrun with
  | refl => exact ⟨wb, ab, h⟩
  | tail _ hstep ih =>
    obtain ⟨_, _, h'⟩ := ih
    exact h'.step hstep

/-- **`aggWrite`**, started when no write is in progress, does nothing but steps. -/
theorem aggWrite_steps (hhandle : ∀ w c w', handle w c = some w' → ReflTransGen Step w w' ∧ w'.io = w.io)
    (evacReady syncWaiting : Bool) (n : Nat) :
    ∀ {w w' : World} {q q' : List AggVC} {wb ab : Nat}, w.Inv wb ab → (∀ c ∈ q, w.Ready c) →
      w.io = false → aggWrite handle evacReady syncWaiting n q w = some (w', q') →
      ReflTransGen Step w w' := by
  induction n with
  | zero => intro w w' q q' wb ab _ _ _ h; cases h
  | succ n ih =>
    intro w w' q q' wb ab hinv hready hidle hrun
    obtain ⟨⟨w1, q1⟩, hcopy, hrest⟩ := bind_eq_some_iff.1 hrun
    obtain ⟨hsteps, hio, hready1⟩ := copyLoop_steps hhandle q hready hidle hcopy
    obtain ⟨wb1, ab1, hinv1⟩ := hinv.run hsteps
    dsimp only at hrest
    by_cases hbuf : w1.part.aggBufPos = 0
    · rw [if_pos hbuf] at hrest
      by_cases hq : q1.isEmpty = true
      · rw [if_pos hq] at hrest
        cases hrest
        exact hsteps
      · rw [if_neg hq] at hrest
        by_cases hstart : w1.part.header.writePos = w1.part.start
        · rw [if_pos hstart] at hrest
          cases hrest
          exact hsteps
        · rw [if_neg hstart] at hrest
          obtain ⟨w2, hwrap, hrest⟩ := bind_eq_some_iff.1 hrest
          have hstep : Step w1 w2 := .wrap w1 w2 hio hbuf hstart hwrap
          have hio2 : w2.io = false := by
            obtain ⟨d, -, rfl⟩ := map_eq_some_iff.1 hwrap
            exact hio
          refine (hsteps.tail hstep).trans ?_
          exact ih (hinv1.wrap hio hbuf hwrap) (fun c hc => (hready1 c hc).mono (.single hstep)) hio2 hrest
    · rw [if_neg hbuf] at hrest
      cases hrest
      have hpos : 0 < w1.part.aggBufPos := by
        have : (0 : Int) ≤ inkBlockSize * ab1 := by positivity
        have := hinv1.buf_eq
        omega
      unfold aggIssue
      split_ifs
      · exact hsteps
      · exact hsteps
      · exact hsteps.tail (.issue w1 hio hpos)

theorem aggWrite_steps_tiny : ReflTransGen Step (init tiny fun _ => none) tinyCopied.issue :=
  aggWrite_steps (fun w _ w' h => ⟨by cases h; exact .refl, by cases h; rfl⟩) true true 1
    (init_inv (by decide) (by decide) (by decide) rfl _) (q := [.write 100 dirClear false true])
    (by simp [Ready]) rfl (show aggWrite (fun w _ => some w) _ _ _ _ _ = some (_, []) from rfl)

end AggWrite

end World

end TrafficServer
