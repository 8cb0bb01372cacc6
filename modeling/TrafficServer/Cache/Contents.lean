import TrafficServer.Cache.RepInv

/-!
# The directory operations on well-formed segments

The specifications of `Delete` and `Insert`, restated for the abstraction: a well-formed segment
stands for one multiset of entries for each of its buckets (`contents`), and every operation is one
on those multisets.
-/

namespace TrafficServer

namespace Segment

open Layout Multiset

variable {buckets : Nat} {sg sg' : Segment} {b n : Nat} {valid : Dir → Bool} {v : Content → Bool}

/-- A segment with a layout, in which chains may hold empty entries. -/
def Laid (buckets : Nat) (sg : Segment) : Prop := ∃ L : Layout buckets sg, L.Full

variable {toPart dir overwrite : Dir}

theorem WF.laid (h : sg.WF buckets) : sg.Laid buckets := by
  obtain ⟨L, hfull, -⟩ := h
  exact ⟨L, hfull⟩

variable {L' : Layout buckets sg'} {L : Layout buckets sg}

theorem contents_of_only (h : L.Only b L') {b' : Nat} (hb' : b' < buckets) (hne : b' ≠ b) :
    sg'.contents buckets b' = sg.contents buckets b' := by
  rw [L'.contents_eq hb', L.contents_eq hb', h.live_eq hne]

def HasSlot (sg : Segment) (b : Nat) : Prop :=
  dirIsEmpty (sg.dir (dirBucket b)) = true ∨ (sg.rowSlot (dirBucket b)).isSome = true ∨
    sg.freelist ≠ 0

/-- What happened to the segment outside bucket `b`: nothing. -/
structure OnlyBucket (buckets : Nat) (sg : Segment) (b : Nat) (sg' : Segment) : Prop where
  wf : sg'.WF buckets
  other : ∀ b' < buckets, b' ≠ b → sg'.contents buckets b' = sg.contents buckets b'

theorem OnlyBucket.of_only (h : L.Only b L') (hp : L.Packed) (ht : L'.Tight b) : OnlyBucket buckets sg b sg' :=
  ⟨⟨L', h.packed hp ht⟩, fun _ hb' hne => contents_of_only h hb' hne⟩

section
variable (hsmall : dirDepth * buckets ≤ 65536) (hb : b < buckets)
include hsmall hb

theorem WF.dirInsert_slot (h : sg.WF buckets) (hv : ∀ d, valid d = v d.content)
    (hto : dirOffset toPart ≠ 0) (hslot : sg.HasSlot b) (tag n : Nat) :
    ∃ sg', sg.dirInsert valid buckets (dirBucket b) tag toPart (n + 1) = some sg' ∧
      OnlyBucket buckets sg b sg' ∧ sg'.contents buckets b = toPart.under tag ::ₘ sg.contents buckets b := by
  obtain ⟨L, hp⟩ := h
  have hslot' : dirOffset (sg.dir (dirBucket b)) = 0 ∨ L.free ≠ [] := by
    rcases hslot with he | hrow | hfl
    · exact .inl (by simpa [dirIsEmpty] using he)
    · obtain ⟨e, he⟩ := Option.isSome_iff_exists.1 hrow
      have hmem := L.rowSlot_mem_free hp hb he
      exact .inr fun h => by simp [h] at hmem
    · exact .inr (L.freelist_ne_zero_iff.1 hfl)
  obtain ⟨sg', hrun, L', honly, ht, hperm⟩ := L.dirInsert_of_slot hsmall hb hv hp hto hslot' n
  refine ⟨sg', hrun, .of_only honly hp ht, ?_⟩
  rw [L'.contents_eq hb, L.contents_eq hb]
  exact coe_eq_coe.2 hperm

variable {tag : Nat}

theorem WF.dirInsert (h : sg.WF buckets) (hv : ∀ d, valid d = v d.content) (hto : dirOffset toPart ≠ 0)
    (hrun : sg.dirInsert valid buckets (dirBucket b) tag toPart n = some sg') : sg'.WF buckets ∧
      (∃ rest ≤ sg.contents buckets b, sg'.contents buckets b = toPart.under tag ::ₘ rest) ∧
      ∀ b' < buckets, b' ≠ b → sg'.contents buckets b' ≤ sg.contents buckets b' := by
  obtain ⟨L, hp⟩ := h
  obtain ⟨L', hp', ⟨rest, hperm, hsub⟩, hother⟩ := dirInsert_spec hsmall hb hv hto n L hp hrun
  refine ⟨⟨L', hp'⟩, ⟨rest, ?_, ?_⟩, fun b' hb' hne => ?_⟩
  · rw [L.contents_eq hb]
    exact coe_le.2 hsub.subperm
  · rw [L'.contents_eq hb]
    exact coe_eq_coe.2 hperm
  · rw [L'.contents_eq hb', L.contents_eq hb']
    exact coe_le.2 (hother b' hb' hne).subperm

theorem WF.dirDelete (h : sg.WF buckets) (tag : Nat) (del : Dir) :
    ((∀ c ∈ sg.contents buckets b, ¬ (c.tag = dirMaskTag tag ∧ c.offset = dirOffset del)) ∧
      sg.dirDelete buckets (dirBucket b) tag del = some (sg, 0)) ∨
    ∃ sg' c, sg.dirDelete buckets (dirBucket b) tag del = some (sg', 1) ∧
      c.tag = dirMaskTag tag ∧ c.offset = dirOffset del ∧ OnlyBucket buckets sg b sg' ∧
      sg.contents buckets b = c ::ₘ sg'.contents buckets b := by
  obtain ⟨L, hp⟩ := h
  rcases L.dirDelete_spec tag hsmall hb (hp.2 b hb) del with
    ⟨hno, hrun⟩ | ⟨x, c, y, hlive, -, htag, hoff, sg', hrun, L', honly, ht, hlive'⟩
  · refine .inl ⟨?_, hrun⟩
    rw [L.contents_eq hb]
    exact hno
  · refine .inr ⟨sg', c, hrun, htag, hoff, .of_only honly hp ht, ?_⟩
    rw [L.contents_eq hb, L'.contents_eq hb, hlive, hlive']
    exact coe_eq_coe.2 List.perm_middle

omit hsmall in
theorem WF.dirOverwrite_match (h : sg.WF buckets) (valid : Dir → Bool) (hdir : dirOffset dir ≠ 0)
    (hmatch : ∃ c ∈ sg.contents buckets b, c.tag = dirMaskTag tag ∧ c.offset = dirOffset overwrite)
    (must : Bool) (n : Nat) :
    ∃ sg' c rest, sg.dirOverwrite valid buckets (dirBucket b) tag dir overwrite must (n + 1) = some (sg', 1) ∧
      c.tag = dirMaskTag tag ∧ c.offset = dirOffset overwrite ∧ OnlyBucket buckets sg b sg' ∧
      sg.contents buckets b = c ::ₘ rest ∧ sg'.contents buckets b = dir.under tag ::ₘ rest := by
  obtain ⟨L, hp⟩ := h
  rw [L.contents_eq hb] at hmatch ⊢
  obtain ⟨x, c, y, hlive, htag, hoff, sg', hrun, L', honly, ht, hlive'⟩ :=
    L.dirOverwrite_of_match hb (hp.2 b hb) hdir hmatch must n
  refine ⟨sg', c, (x ++ y : List Content), hrun, htag, hoff, .of_only honly hp ht, ?_, ?_⟩
  · rw [hlive]
    exact coe_eq_coe.2 List.perm_middle
  · rw [L'.contents_eq hb, hlive']
    exact coe_eq_coe.2 List.perm_middle

omit hsmall in
theorem WF.dirOverwrite_must (h : sg.WF buckets)
    (hno : ∀ c ∈ sg.contents buckets b, ¬ (c.tag = dirMaskTag tag ∧ c.offset = dirOffset overwrite)) (n : Nat) :
    sg.dirOverwrite valid buckets (dirBucket b) tag dir overwrite true (n + 1) = some (sg, 0) := by
  obtain ⟨L, -, htight⟩ := h
  rw [L.contents_eq hb] at hno
  exact L.dirOverwrite_must hb (htight b hb) hno n

section Valid
variable (h : sg.WF buckets) (hv : ∀ d, valid d = v d.content)
include h hv

theorem WF.dirOverwrite_insert
    (hno : ∀ c ∈ sg.contents buckets b, ¬ (c.tag = dirMaskTag tag ∧ c.offset = dirOffset overwrite))
    (n : Nat) : sg.dirOverwrite valid buckets (dirBucket b) tag dir overwrite false n =
      (sg.dirInsert valid buckets (dirBucket b) tag dir n).map (·, 0) := by
  obtain ⟨L, hp⟩ := h
  rw [L.contents_eq hb] at hno
  exact dirOverwriteLoop_eq_insert hsmall hb hv n L 1 hp hno

theorem WF.dirProbe (base tag : Nat) (lastCollision : Option Nat)
    (hfit : ¬ sg.Stray valid buckets base b (dirMaskTag tag) lastCollision) :
    ∃ sg' hit gone, sg.dirProbe valid buckets base (dirBucket b) tag lastCollision
        = some (sg', hit) ∧ OnlyBucket buckets sg b sg' ∧ sg.contents buckets b = sg'.contents buckets b + gone ∧
      (∀ c ∈ gone, c.tag = dirMaskTag tag ∧ v c = false) ∧ ∀ i ∈ hit, sg'.content i ∈ sg'.contents buckets b ∧
        (sg'.content i).tag = dirMaskTag tag ∧ v (sg'.content i) = true := by
  obtain ⟨L, hp⟩ := h
  obtain ⟨sg', hit, hrun, L', hprobed⟩ := L.dirProbe_spec hsmall hb hv (hp.2 b hb) base tag lastCollision
    fun c hc hmiss hne htag => Bool.of_not_eq_false fun hval =>
      hfit ⟨⟨c, hc, by rwa [L.bucketChain_eq hb]⟩, hne, htag, hval⟩
  obtain ⟨gone, hperm, hgone⟩ := hprobed.purged
  refine ⟨sg', hit, gone, hrun, .of_only hprobed.only hp hprobed.tight, ?_, hgone, ?_⟩
  · rw [L.contents_eq hb, L'.contents_eq hb]
    exact coe_eq_coe.2 hperm
  · rw [L'.contents_eq hb]
    exact hprobed.hit_mem

theorem WF.dirCleanBucket : ∃ sg', sg.dirCleanBucket valid buckets (dirBucket b) = some sg' ∧
      OnlyBucket buckets sg b sg' ∧ sg'.contents buckets b = (sg.contents buckets b).filter (v · = true) := by
  obtain ⟨L, hp⟩ := h
  obtain ⟨sg', hrun, L', honly, ht, hlive⟩ := L.dirCleanBucket_spec hsmall hv hb
  refine ⟨sg', hrun, .of_only honly hp ht.tight, ?_⟩
  rw [L'.contents_eq hb, L.contents_eq hb, hlive]
  simp

end Valid

end

section
variable (hsmall : dirDepth * buckets ≤ 65536)
include hsmall

theorem Laid.dirCleanSegment (h : sg.Laid buckets) (hv : ∀ d, valid d = v d.content) :
    ∃ sg', sg.dirCleanSegment valid buckets = some sg' ∧ sg'.WF buckets ∧
      ∀ b < buckets, sg'.contents buckets b = (sg.contents buckets b).filter (v · = true) := by
  obtain ⟨L, hfull⟩ := h
  obtain ⟨sg', hrun, L', hfull', hdone⟩ := L.dirCleanSegment_spec hsmall hv
  refine ⟨sg', hrun, ⟨L', hfull' hfull, fun b hb => (hdone b hb).1.tight⟩, fun b hb => ?_⟩
  rw [L'.contents_eq hb, L.contents_eq hb, (hdone b hb).2]
  simp

theorem WF.freelistClean (h : sg.WF buckets) (hv : ∀ d, valid d = v d.content) :
    ∃ sg', sg.freelistClean valid buckets = some sg' ∧ sg'.WF buckets ∧
      ∀ b < buckets, sg'.contents buckets b ≤ sg.contents buckets b := by
  obtain ⟨L, hfull, -⟩ := h
  obtain ⟨sg', hrun, L', hclean⟩ := L.freelistClean_spec hsmall hv
  refine ⟨sg', hrun, ⟨L', hclean.full hfull, hclean.tight⟩, fun b hb => ?_⟩
  rw [L'.contents_eq hb, L.contents_eq hb]
  exact coe_le.2 (hclean.live b hb).subperm

theorem freeRows_wf (hzero : ∀ i < dirDepth * buckets, sg.dir i = dirClear) :
    (sg.freeRows buckets).WF buckets ∧ ∀ b < buckets, (sg.freeRows buckets).contents buckets b = 0 := by
  obtain ⟨L, hfull, h⟩ := freeRows_spec hsmall hzero
  refine ⟨⟨L, hfull, fun b hb => (h b hb).1⟩, fun b hb => ?_⟩
  rw [L.contents_eq hb, (h b hb).2]
  rfl

theorem dirInitSegment_wf (sg : Segment) : (sg.dirInitSegment buckets).WF buckets ∧
    ∀ b < buckets, (sg.dirInitSegment buckets).contents buckets b = 0 :=
  freeRows_wf hsmall fun _ _ => rfl

end

theorem Laid.dim (h : sg.Laid buckets) (hd : Dimmed sg sg') : sg'.Laid buckets ∧
    ∀ b < buckets, sg'.contents buckets b ≤ sg.contents buckets b := by
  obtain ⟨L, hfull⟩ := h
  refine ⟨⟨L.dim hd, hfull⟩, fun b hb => ?_⟩
  rw [(L.dim hd).contents_eq hb, L.contents_eq hb]
  exact coe_le.2 (hd.live_sublist _).subperm

end Segment

end TrafficServer
