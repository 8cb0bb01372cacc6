import TrafficServer.Hdrs.MIMEHdrLinks
import TrafficServer.Hdrs.MIMEFieldValue
import TrafficServer.Hdrs.HdrCsvElements

/-!
# When the cooked values are those of the header

Under the invariant the chain of a name has the values of its live fields in slot order, so that
`recompute_cooked_stuff` cooks these (`Fresh`). The call at the end of a change to a field keeps the
cooked values fresh, because the change is to one name and the call recomputes what depends on it.
-/

namespace TrafficServer

open HdrToken

namespace MIMECooked

variable (values : List (Option Bytes))

theorem allValues_eq_some : ∃ l, HdrCsvIter.allValues 44 true values = some l :=
  (HdrCsvIter.allValues_spec values).imp fun _ h => h.1

theorem cookCacheControl_eq_some : ∃ cc, cookCacheControl values = some cc := by
  obtain ⟨l, hl⟩ := allValues_eq_some values
  rw [cookCacheControl, cacheControlLoop, hl]
  split <;> exact ⟨_, rfl⟩

theorem cookPragma_eq_some : ∃ p, cookPragma values = some p := by
  obtain ⟨l, hl⟩ := allValues_eq_some values
  rw [cookPragma, pragmaLoop, hl]
  split <;> exact ⟨_, rfl⟩

end MIMECooked

namespace MIMEHdr

def valuesOf (h : MIMEHdr) (nm : Bytes) : List (Option Bytes) :=
  (h.liveOf nm).map fun n => (h.slot n).value

def ccName : Bytes := lower (hdrtokenIndexToWks wksidxCacheControl)

def pragmaName : Bytes := lower (hdrtokenIndexToWks wksidxPragma)

theorem wksidxCacheControl_lt : wksidxCacheControl < hdrtokenNumWks := by decide +kernel

theorem wksidxPragma_lt : wksidxPragma < hdrtokenNumWks := by decide +kernel

theorem ccName_ne_pragmaName : ccName ≠ pragmaName := fun h =>
  absurd (lower_wks_inj wksidxCacheControl_lt wksidxPragma_lt h) (by decide)

/-- The cooked values are those of the live fields. -/
structure Fresh (h : MIMEHdr) : Prop where
  cacheControl : MIMECooked.cookCacheControl (h.valuesOf ccName) = some h.cookedStuff.cacheControl
  pragma : MIMECooked.cookPragma (h.valuesOf pragmaName) = some h.cookedStuff.pragmaNoCache

section Cook
variable {h g : MIMEHdr} {n i : Nat}

theorem Inv.chainValues (hi : Inv h) (hw : i < hdrtokenNumWks) :
    h.chainValues (.wks i) = some (h.valuesOf (lower (hdrtokenIndexToWks i))) := by
  rw [MIMEHdr.chainValues, hi.find_wks hw, firstOf,
    (hi.chain (lower (hdrtokenIndexToWks i))).follow (liveOf_length_le _)]
  rfl

theorem Inv.cookCacheControl (hi : Inv h) : h.cookCacheControl = MIMECooked.cookCacheControl (h.valuesOf ccName) := by
  rw [MIMEHdr.cookCacheControl, hi.chainValues wksidxCacheControl_lt, hi.find_wks wksidxCacheControl_lt]
  split
  · next hnone =>
    have hnil : h.liveOf ccName = [] := List.head?_eq_none_iff.mp hnone
    rw [valuesOf, hnil]
    rfl
  · rfl

theorem Inv.cookPragma (hi : Inv h) : h.cookPragma = MIMECooked.cookPragma (h.valuesOf pragmaName) := by
  rw [MIMEHdr.cookPragma, hi.chainValues wksidxPragma_lt, hi.find_wks wksidxPragma_lt]
  split
  · next hnone =>
    have hnil : h.liveOf pragmaName = [] := List.head?_eq_none_iff.mp hnone
    rw [valuesOf, hnil]
    rfl
  · rfl

theorem Inv.withCooked (hi : Inv h) (c : MIMECooked) : Inv { h with cookedStuff := c } :=
  ⟨hi.apart, hi.room, hi.wksIdx, hi.name, hi.cooked, hi.alone, hi.chain, hi.heads,
    hi.index.congr rfl rfl fun _ _ => rfl⟩

theorem Inv.recompute (hi : Inv h) (changing : Option (Option Nat)) :
    ∃ c, h.recomputeCookedStuff changing = some { h with cookedStuff := c } ∧
      (if changing = some (some wksidxPragma) then c.cacheControl = h.cookedStuff.cacheControl
        else MIMECooked.cookCacheControl (h.valuesOf ccName) = some c.cacheControl) ∧
      (if changing = some (some wksidxCacheControl) then c.pragmaNoCache = h.cookedStuff.pragmaNoCache
        else MIMECooked.cookPragma (h.valuesOf pragmaName) = some c.pragmaNoCache) := by
  obtain ⟨cc, hcc⟩ := MIMECooked.cookCacheControl_eq_some (h.valuesOf ccName)
  obtain ⟨p, hp⟩ := MIMECooked.cookPragma_eq_some (h.valuesOf pragmaName)
  rw [recomputeCookedStuff, hi.cookCacheControl, hi.cookPragma, hcc, hp]
  by_cases h1 : changing = some (some wksidxPragma)
  · have h2 : changing ≠ some (some wksidxCacheControl) := by
      rw [h1]
      decide
    refine ⟨⟨h.cookedStuff.cacheControl, p⟩, ?_, ?_, ?_⟩
    · simp only [h1, ne_eq, not_true_eq_false, if_false]
      rfl
    · rw [if_pos h1]
    · rw [if_neg h2]
  · by_cases h2 : changing = some (some wksidxCacheControl)
    · refine ⟨⟨cc, h.cookedStuff.pragmaNoCache⟩, ?_, ?_, ?_⟩
      · simp only [h2, ne_eq, not_true_eq_false, if_false]
        rfl
      · rw [if_neg h1]
      · rw [if_pos h2]
    · refine ⟨⟨cc, p⟩, ?_, ?_, ?_⟩
      · simp only [h1, h2, ne_eq, not_false_eq_true, if_true]
        rfl
      · rw [if_neg h1]
      · rw [if_neg h2]

/-- **The call at the end of a change.** Fresh values stay fresh if nothing changed for the other
names, and nothing at all where the call is not made. -/
theorem Inv.recook (hi : Inv g) (n : Nat) (b : Bool) : ∃ c, g.recook n b = some { g with cookedStuff := c } ∧
      ∀ h : MIMEHdr, Fresh h → g.cookedStuff = h.cookedStuff → (ccName ≠ lower (g.slot n).name ∨ b = false →
          MIMECooked.cookCacheControl (g.valuesOf ccName) = MIMECooked.cookCacheControl (h.valuesOf ccName)) →
        (pragmaName ≠ lower (g.slot n).name ∨ b = false → MIMECooked.cookPragma (g.valuesOf pragmaName) =
            MIMECooked.cookPragma (h.valuesOf pragmaName)) → Fresh { g with cookedStuff := c } := by
  have hcc := hi.wksIdx_iff (n := n) wksidxCacheControl_lt
  have hpr := hi.wksIdx_iff (n := n) wksidxPragma_lt
  rw [MIMEHdr.recook]
  split_ifs with hcond
  · obtain ⟨c, hc, hc1, hc2⟩ := hi.recompute (some (g.slot n).wksIdx)
    refine ⟨c, hc, fun h hf hstuff hval1 hval2 => ⟨?_, ?_⟩⟩
    · change MIMECooked.cookCacheControl (g.valuesOf ccName) = some c.cacheControl
      split at hc1
      · next hw =>
        have hname : ccName ≠ lower (g.slot n).name := fun he =>
          ccName_ne_pragmaName (he.trans (hpr.mp (Option.some.inj hw)))
        rw [hval1 (.inl hname), hc1, hstuff]
        exact hf.cacheControl
      · exact hc1
    · change MIMECooked.cookPragma (g.valuesOf pragmaName) = some c.pragmaNoCache
      split at hc2
      · next hw =>
        have hname : pragmaName ≠ lower (g.slot n).name := fun he =>
          ccName_ne_pragmaName (he.trans (hcc.mp (Option.some.inj hw))).symm
        rw [hval2 (.inl hname), hc2, hstuff]
        exact hf.pragma
      · exact hc2
  · refine ⟨g.cookedStuff, rfl, fun h hf hstuff hval1 hval2 => ?_⟩
    -- either the call is not made at all, or the field is of another name
    have hother (nm : Bytes) (hnm : nm = ccName ∨ nm = pragmaName) : nm ≠ lower (g.slot n).name ∨ b = false := by
      by_contra hcon
      simp only [not_or, ne_eq, not_not, Bool.not_eq_false] at hcon
      obtain ⟨hname, hb⟩ := hcon
      refine hcond ⟨hb, hi.cooked n ?_⟩
      rcases hnm with rfl | rfl
      · exact .inl (hcc.mpr hname.symm)
      · exact .inr (hpr.mpr hname.symm)
    refine ⟨?_, ?_⟩
    · change MIMECooked.cookCacheControl (g.valuesOf ccName) = some g.cookedStuff.cacheControl
      rw [hval1 (hother _ (.inl rfl)), hstuff]
      exact hf.cacheControl
    · change MIMECooked.cookPragma (g.valuesOf pragmaName) = some g.cookedStuff.pragmaNoCache
      rw [hval2 (hother _ (.inr rfl)), hstuff]
      exact hf.pragma

end Cook

end MIMEHdr

end TrafficServer
