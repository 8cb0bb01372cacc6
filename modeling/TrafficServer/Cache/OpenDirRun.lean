import Mathlib.Data.List.Nodup
import Mathlib.Data.Int.Order.Basic
import Mathlib.Logic.Relation
import TrafficServer.Cache.OpenDir

/-!
# The table of open writers refines its abstract form

`Inv` connects `OpenDir` and `WriterTable`: the entries of the buckets are those of the keys with
writers, and each has the writers and the limit of its key. A call changes one writer, one entry and
one key, and `Inv.change` says what has to be checked there for the invariant to go on.
-/

namespace TrafficServer

open Option List Function Relation

namespace OpenDir

variable {d d' : OpenDir} {t t' : WriterTable} {cont e : Nat} {key : CacheKey}

/-- The entry is that of the key. -/
structure Holds (d : OpenDir) (t : WriterTable) (key : CacheKey) (e : Nat) : Prop where
  writers : (d.entry e).writers = t.writers key
  ne_nil : t.writers key ≠ []
  num : (d.entry e).numWriters.toNat = (t.writers key).length
  max : ((d.entry e).maxWriters.toNat : Int) = t.limit key
  od : ∀ w ∈ t.writers key, (d.vc w).od = some e

structure Inv (d : OpenDir) (t : WriterTable) : Prop where
  bucket_nodup : ∀ b, (d.bucket b).Nodup
  fresh : ∀ b, ∀ e ∈ d.bucket b, e < d.nextEntry
  entry : ∀ b, ∀ e ∈ d.bucket b, ∃ key, bucketOf key = b ∧ d.Holds t key e
  live : ∀ key, t.writers key ≠ [] → ∃ e ∈ d.bucket (bucketOf key), d.Holds t key e
  mem_iff : ∀ w key, w ∈ t.writers key ↔ (d.vc w).firstKey = key ∧ (d.vc w).od ≠ none
  nodup : ∀ key, (t.writers key).Nodup
  bound : ∀ key, ((t.writers key).length : Int) ≤ max 1 (t.limit key)

variable {maxWriters : Int}

theorem Inv.headKey_eq (h : d.Inv t) (he : d.Holds t key e) : d.headKey e = some key := by
  obtain ⟨w, ws, hw⟩ := exists_cons_of_ne_nil he.ne_nil
  have hmem : w ∈ t.writers key := by simp [hw]
  rw [headKey, he.writers, hw, head?_cons, map_some, ((h.mem_iff w key).1 hmem).1]

theorem Holds.unique {e' : Nat} (he : d.Holds t key e) (he' : d.Holds t key e') : e = e' := by
  obtain ⟨w, hw⟩ := exists_mem_of_ne_nil _ he.ne_nil
  exact some.inj ((he.od w hw).symm.trans (he'.od w hw))

theorem Holds.less_iff (he : d.Holds t key e) : (d.entry e).numWriters < (d.entry e).maxWriters ↔
    ((d.entry e).numWriters.toNat : Int) < t.limit key := by
  rw [← he.max, BitVec.lt_def]
  exact Int.ofNat_lt.symm

theorem Inv.openRead_iff (h : d.Inv t) : d.openRead key = some e ↔ e ∈ d.bucket (bucketOf key) ∧ d.Holds t key e := by
  have hfound : ∀ e, d.openRead key = some e → e ∈ d.bucket (bucketOf key) ∧ d.Holds t key e := by
    intro e hf
    have hmem := mem_of_find?_eq_some hf
    have hkey : d.headKey e = some key := by simpa using find?_some hf
    obtain ⟨key', -, he⟩ := h.entry _ e hmem
    obtain rfl : key' = key := some.inj ((h.headKey_eq he).symm.trans hkey)
    exact ⟨hmem, he⟩
  refine ⟨hfound e, fun ⟨hmem, he⟩ => ?_⟩
  have hsome : (d.openRead key).isSome := find?_isSome.2 ⟨e, hmem, by simpa using h.headKey_eq he⟩
  obtain ⟨e', hf⟩ := isSome_iff_exists.1 hsome
  rw [(hfound e' hf).2.unique he] at hf
  exact hf

theorem Inv.openRead_none (h : d.Inv t) : d.openRead key = none ↔ t.writers key = [] := by
  constructor
  · intro hnone
    by_contra hne
    obtain ⟨e, hmem, he⟩ := h.live key hne
    rw [h.openRead_iff.2 ⟨hmem, he⟩] at hnone
    cases hnone
  · intro hnil
    by_contra hne
    obtain ⟨e, hf⟩ := ne_none_iff_exists'.1 hne
    exact (h.openRead_iff.1 hf).2.ne_nil hnil

/-! ### One writer, one entry, one key -/

/-- What a call changes: the writer `cont` of `key`, and the entry `e`, which is that of `key` and of no
other. -/
structure Changed (d : OpenDir) (t : WriterTable) (cont e : Nat) (key : CacheKey) (d' : OpenDir)
    (t' : WriterTable) : Prop where
  bucket : ∀ b, ∀ e' ≠ e, (e' ∈ d'.bucket b ↔ e' ∈ d.bucket b)
  old : ∀ b, e ∈ d.bucket b → d.Holds t key e
  held : t.writers key ≠ [] → d.Holds t key e
  entry : ∀ e' ≠ e, d'.entry e' = d.entry e'
  vc : ∀ w ≠ cont, d'.vc w = d.vc w
  firstKey : (d.vc cont).firstKey = key
  firstKey' : (d'.vc cont).firstKey = key
  writers : ∀ key' ≠ key, t'.writers key' = t.writers key'
  limit : ∀ key' ≠ key, t'.limit key' = t.limit key'
  mem : ∀ w ≠ cont, (w ∈ t'.writers key ↔ w ∈ t.writers key)

section
variable (h : d.Inv t)

include h

theorem Changed.holds (hc : Changed d t cont e key d' t') {key' : CacheKey} {e' : Nat}
    (hkey : key' ≠ key) (hne : e' ≠ e) (he : d.Holds t key' e') : d'.Holds t' key' e' := by
  refine ⟨?_, ?_, ?_, ?_, fun w hw => ?_⟩
  · rw [hc.entry e' hne, hc.writers key' hkey, he.writers]
  · rw [hc.writers key' hkey]
    exact he.ne_nil
  · rw [hc.entry e' hne, hc.writers key' hkey, he.num]
  · rw [hc.entry e' hne, hc.limit key' hkey, he.max]
  · rw [hc.writers key' hkey] at hw
    have hcont : w ≠ cont := fun heq => hkey (((h.mem_iff w key').1 hw).1.symm.trans (heq ▸ hc.firstKey))
    rw [hc.vc w hcont, he.od w hw]

/-- **The invariant after a call**: it is enough to look at the key and its entry. -/
theorem Inv.change (hc : Changed d t cont e key d' t')
    (hnodup : ∀ b, (d'.bucket b).Nodup) (hfresh : ∀ b, ∀ e ∈ d'.bucket b, e < d'.nextEntry)
    (hself : ∀ b, e ∈ d'.bucket b ↔ b = bucketOf key ∧ t'.writers key ≠ [])
    (hholds : t'.writers key ≠ [] → d'.Holds t' key e)
    (hcont : cont ∈ t'.writers key ↔ (d'.vc cont).od ≠ none) (hkey : (t'.writers key).Nodup)
    (hbound : ((t'.writers key).length : Int) ≤ max 1 (t'.limit key)) : d'.Inv t' := by
  refine ⟨hnodup, hfresh, fun b e' he' => ?_, fun key' hne => ?_, fun w key' => ?_, fun key' => ?_, fun key' => ?_⟩
  · by_cases heq : e' = e
    · rw [heq] at he' ⊢
      obtain ⟨hb, hne⟩ := (hself b).1 he'
      exact ⟨key, hb.symm, hholds hne⟩
    · have hold := (hc.bucket b e' heq).1 he'
      obtain ⟨key', hb, hk⟩ := h.entry b e' hold
      refine ⟨key', hb, hc.holds h (fun hkk => heq ?_) heq hk⟩
      rw [hkk] at hk
      exact hk.unique (hc.held hk.ne_nil)
  · by_cases hkk : key' = key
    · rw [hkk] at hne ⊢
      exact ⟨e, (hself _).2 ⟨rfl, hne⟩, hholds hne⟩
    · rw [hc.writers key' hkk] at hne
      obtain ⟨e', hmem, hk⟩ := h.live key' hne
      have heq : e' ≠ e := fun heq => by
        rw [heq] at hmem hk
        have := (h.headKey_eq hk).symm.trans (h.headKey_eq (hc.old _ hmem))
        exact hkk (some.inj this)
      exact ⟨e', (hc.bucket _ e' heq).2 hmem, hc.holds h hkk heq hk⟩
  · by_cases hw : w = cont
    · rw [hw, hc.firstKey']
      by_cases hkk : key' = key
      · rw [hkk, hcont]
        exact (and_iff_right rfl).symm
      · rw [hc.writers key' hkk, h.mem_iff, hc.firstKey]
        exact ⟨fun h => absurd h.1.symm hkk, fun h => absurd h.1.symm hkk⟩
    · rw [hc.vc w hw, ← h.mem_iff]
      by_cases hkk : key' = key
      · rw [hkk]
        exact hc.mem w hw
      · rw [hc.writers key' hkk]
  · by_cases hkk : key' = key
    · rw [hkk]
      exact hkey
    · rw [hc.writers key' hkk]
      exact h.nodup key'
  · by_cases hkk : key' = key
    · rw [hkk]
      exact hbound
    · rw [hc.writers key' hkk, hc.limit key' hkk]
      exact h.bound key'

theorem Inv.congr (hbucket : d'.bucket = d.bucket) (hnext : d'.nextEntry = d.nextEntry)
    (hwriters : ∀ e, (d'.entry e).writers = (d.entry e).writers)
    (hnum : ∀ e, (d'.entry e).numWriters = (d.entry e).numWriters)
    (hmax : ∀ e, (d'.entry e).maxWriters = (d.entry e).maxWriters) (hod : ∀ w, (d'.vc w).od = (d.vc w).od)
    (hkey : ∀ w, (d.vc w).od ≠ none → (d'.vc w).firstKey = (d.vc w).firstKey) : d'.Inv t := by
  have hholds : ∀ key e, d.Holds t key e → d'.Holds t key e := fun key e he =>
    ⟨(hwriters e).trans he.writers, he.ne_nil, by rw [hnum, he.num], by rw [hmax, he.max],
      fun w hw => (hod w).trans (he.od w hw)⟩
  refine ⟨fun b => ?_, fun b e he => ?_, fun b e he => ?_, fun key hne => ?_, fun w key => ?_, h.nodup, h.bound⟩
  · rw [hbucket]
    exact h.bucket_nodup b
  · rw [hbucket] at he
    rw [hnext]
    exact h.fresh b e he
  · rw [hbucket] at he
    obtain ⟨key, hb, hk⟩ := h.entry b e he
    exact ⟨key, hb, hholds key e hk⟩
  · obtain ⟨e, hmem, hk⟩ := h.live key hne
    exact ⟨e, by rw [hbucket]; exact hmem, hholds key e hk⟩
  · rw [hod, h.mem_iff]
    exact and_congr_left fun hopen => by rw [hkey w hopen]

theorem Inv.setFirstKey (hod : (d.vc cont).od = none) (key : CacheKey) : (d.setFirstKey cont key).Inv t := by
  refine h.congr rfl rfl (fun _ => rfl) (fun _ => rfl) (fun _ => rfl) (fun w => ?_) fun w hw => ?_
  · change (update d.vc cont _ w).od = _
    by_cases heq : w = cont
    · rw [heq, update_self]
    · rw [update_of_ne heq]
  · have hne : w ≠ cont := fun heq => hw (heq ▸ hod)
    change (update d.vc cont _ w).firstKey = _
    rw [update_of_ne hne]

theorem Inv.wait (e reader : Nat) : (d.wait e reader).Inv t := by
  have hentry : ∀ e', (d.wait e reader).entry e' = d.entry e' ∨
      (d.wait e reader).entry e' = { d.entry e' with readers := reader :: (d.entry e').readers } := by
    intro e'
    change update d.entry e _ e' = _ ∨ update d.entry e _ e' = _
    by_cases heq : e' = e
    · rw [heq, update_self]
      exact .inr rfl
    · rw [update_of_ne heq]
      exact .inl rfl
  refine h.congr rfl rfl (fun e' => ?_) (fun e' => ?_) (fun e' => ?_) (fun _ => rfl) fun _ _ => rfl
  all_goals
    rcases hentry e' with heq | heq
    all_goals rw [heq]

/-! ### Opening -/

theorem Inv.pushWriter (hmem : e ∈ d.bucket (bucketOf key)) (he : d.Holds t key e)
    (hkey : (d.vc cont).firstKey = key) (hod : (d.vc cont).od = none)
    (hless : (d.entry e).numWriters < (d.entry e).maxWriters) (hwriters : t'.writers key = cont :: t.writers key)
    (hother : ∀ key' ≠ key, t'.writers key' = t.writers key') (hlimit : t'.limit = t.limit) :
    (d.pushWriter cont e).Inv t' := by
  have hnot : cont ∉ t.writers key := fun hin => ((h.mem_iff cont key).1 hin).2 hod
  have hentry : (d.pushWriter cont e).entry e = ⟨cont :: (d.entry e).writers, (d.entry e).readers,
      (d.entry e).numWriters + 1, (d.entry e).maxWriters⟩ := update_self ..
  have hvc : ∀ w ≠ cont, (d.pushWriter cont e).vc w = d.vc w := fun w hw => update_of_ne hw ..
  have hvc' : (d.pushWriter cont e).vc cont = ⟨(d.vc cont).firstKey, some e⟩ := update_self ..
  have hlt : (t.writers key).length < (d.entry e).maxWriters.toNat := he.num ▸ hless
  have hne : t'.writers key ≠ [] := hwriters ▸ cons_ne_nil _ _
  have hc : Changed d t cont e key (d.pushWriter cont e) t' := by
    refine ⟨fun _ _ _ => Iff.rfl, fun _ _ => he, fun _ => he,
      fun e' hne => update_of_ne hne .., hvc, hkey, by rw [hvc', hkey], hother,
      fun _ _ => by rw [hlimit], fun w hw => ?_⟩
    rw [hwriters, mem_cons]
    exact or_iff_right hw
  refine h.change hc h.bucket_nodup h.fresh (fun b => ?_) (fun _ => ⟨?_, hne, ?_, ?_, fun w hw => ?_⟩) ?_ ?_ ?_
  · refine ⟨fun hb => ⟨?_, hne⟩, fun ⟨hb, _⟩ => hb ▸ hmem⟩
    obtain ⟨key', rfl, hk⟩ := h.entry b e hb
    rw [some.inj ((h.headKey_eq hk).symm.trans (h.headKey_eq he))]
  · rw [hentry, hwriters, he.writers]
  · -- the count is below a 16-bit number, so it does not wrap
    have hnum : ((d.entry e).numWriters + 1).toNat = (t.writers key).length + 1 := by
      rw [← he.num]
      bv_omega
    rw [hentry, hwriters, hnum, length_cons]
  · rw [hentry, hlimit]
    exact he.max
  · by_cases heq : w = cont
    · rw [heq, hvc']
    · rw [hvc w heq]
      rw [hwriters] at hw
      exact he.od w ((mem_cons.1 hw).resolve_left heq)
  · rw [hwriters, hvc']
    simp
  · rw [hwriters]
    exact nodup_cons.2 ⟨hnot, h.nodup key⟩
  · have := he.max
    rw [hwriters, length_cons, hlimit]
    omega

theorem Inv.pushEntry (hnil : t.writers key = []) (hkey : (d.vc cont).firstKey = key)
    (hmin : 0 ≤ maxWriters) (hmax : maxWriters < 65536) (hwriters : t'.writers key = [cont])
    (hother : ∀ key' ≠ key, t'.writers key' = t.writers key') (hlimit : t'.limit key = maxWriters)
    (hlimits : ∀ key' ≠ key, t'.limit key' = t.limit key') : (d.pushEntry cont maxWriters).Inv t' := by
  have hnew : ∀ b, d.nextEntry ∉ d.bucket b := fun b hb => lt_irrefl _ (h.fresh b _ hb)
  have hentry : (d.pushEntry cont maxWriters).entry d.nextEntry =
      ⟨[cont], [], 1, BitVec.ofInt 16 maxWriters⟩ := update_self ..
  have hvc : ∀ w ≠ cont, (d.pushEntry cont maxWriters).vc w = d.vc w := fun w hw => update_of_ne hw ..
  have hvc' : (d.pushEntry cont maxWriters).vc cont = ⟨(d.vc cont).firstKey, some d.nextEntry⟩ := update_self ..
  have hbucket : ∀ b, (d.pushEntry cont maxWriters).bucket b =
      if b = bucketOf key then d.nextEntry :: d.bucket (bucketOf key) else d.bucket b := by
    rw [← hkey]
    exact fun b => update_apply ..
  have hne : t'.writers key ≠ [] := hwriters ▸ cons_ne_nil _ _
  have hc : Changed d t cont d.nextEntry key (d.pushEntry cont maxWriters) t' := by
    refine ⟨fun b e' hne => ?_, fun b hb => absurd hb (hnew b), fun hne => absurd hnil hne,
      fun e' hne => update_of_ne hne .., hvc, hkey, by rw [hvc', hkey], hother, hlimits,
      fun w hw => ?_⟩
    · rw [hbucket]
      split_ifs with hb
      · rw [hb, mem_cons]
        exact or_iff_right hne
      · rfl
    · rw [hwriters, hnil, mem_singleton]
      exact ⟨fun heq => absurd heq hw, fun h => by cases h⟩
  refine h.change hc (fun b => ?_) (fun b e he => ?_)
    (fun b => ?_) (fun _ => ⟨?_, hne, ?_, ?_, fun w hw => ?_⟩) ?_ ?_ ?_
  · rw [hbucket]
    split_ifs
    · exact nodup_cons.2 ⟨hnew _, h.bucket_nodup _⟩
    · exact h.bucket_nodup b
  · change e < d.nextEntry + 1
    rw [hbucket] at he
    split_ifs at he
    · rcases mem_cons.1 he with rfl | he
      · exact Nat.lt_succ_self _
      · exact Nat.lt_succ_of_lt (h.fresh _ e he)
    · exact Nat.lt_succ_of_lt (h.fresh b e he)
  · rw [hbucket]
    split_ifs with hb
    · exact ⟨fun _ => ⟨hb, hne⟩, fun _ => mem_cons_self⟩
    · exact ⟨fun h => absurd h (hnew b), fun h => absurd h.1 hb⟩
  · rw [hentry, hwriters]
  · rw [hentry, hwriters]
    rfl
  · rw [hentry, hlimit, BitVec.toNat_ofInt]
    omega
  · rw [hwriters, mem_singleton] at hw
    rw [hw, hvc']
  · rw [hwriters, hvc']
    simp
  · rw [hwriters]
    exact nodup_singleton cont
  · rw [hwriters]
    exact le_max_left ..

theorem Inv.openWrite (hkey : (d.vc cont).firstKey = key) (hod : (d.vc cont).od = none) (allowIfWriters : Bool)
    (hmin : 0 ≤ maxWriters) (hmax : maxWriters < 65536) : (d.openWrite cont allowIfWriters maxWriters).1.Inv
      (t.openWrite cont key allowIfWriters maxWriters).1 ∧ (d.openWrite cont allowIfWriters maxWriters).2 =
      (t.openWrite cont key allowIfWriters maxWriters).2 := by
  rw [OpenDir.openWrite, WriterTable.openWrite, hkey]
  cases hf : d.openRead key with
  | none =>
    have hnil := h.openRead_none.1 hf
    rw [if_pos hnil]
    exact ⟨h.pushEntry hnil hkey hmin hmax (update_self ..) (fun key' hne => update_of_ne hne ..) (update_self ..)
      (fun key' hne => update_of_ne hne ..), rfl⟩
  | some e =>
    obtain ⟨hmem, he⟩ := h.openRead_iff.1 hf
    have hless := he.less_iff
    rw [he.num] at hless
    rw [if_neg he.ne_nil]
    dsimp only
    by_cases hallow : allowIfWriters = true ∧ ((t.writers key).length : Int) < t.limit key
    · rw [if_pos hallow, if_pos ⟨hallow.1, hless.2 hallow.2⟩]
      exact ⟨h.pushWriter hmem he hkey hod (hless.2 hallow.2) (update_self ..)
        (fun key' hne => update_of_ne hne ..) rfl, rfl⟩
    · rw [if_neg hallow, if_neg fun hc => hallow ⟨hc.1, hless.1 hc.2⟩]
      exact ⟨h, rfl⟩

/-! ### Closing -/

theorem Inv.holds_od (hod : (d.vc cont).od = some e) :
    cont ∈ t.writers (d.vc cont).firstKey ∧ e ∈ d.bucket (bucketOf (d.vc cont).firstKey) ∧
      d.Holds t (d.vc cont).firstKey e := by
  have hmem : cont ∈ t.writers (d.vc cont).firstKey := (h.mem_iff cont _).2 ⟨rfl, by rw [hod]; exact some_ne_none e⟩
  obtain ⟨e', hb, he⟩ := h.live _ (ne_nil_of_mem hmem)
  obtain rfl : e = e' := some.inj (hod.symm.trans (he.od cont hmem))
  exact ⟨hmem, hb, he⟩

theorem Inv.closed (hod : (d.vc cont).od = some e) (hkey : (d.vc cont).firstKey = key)
    (hentry : d'.entry = (d.popWriter cont e).entry) (hnext : d'.nextEntry = d.nextEntry)
    (hvc : d'.vc = (d.clearOd cont).vc) (hbucket : ∀ b, d'.bucket b =
      if b = bucketOf key ∧ (t.writers key).erase cont = [] then (d.bucket b).erase e else d.bucket b) :
    d'.Inv (t.closeWrite cont) := by
  obtain ⟨hmem, hb, he⟩ := h.holds_od hod
  rw [hkey] at hmem hb he
  have hwriters : (t.closeWrite cont).writers key = (t.writers key).erase cont := rfl
  have hother : ∀ key' ≠ key, (t.closeWrite cont).writers key' = t.writers key' := fun key' hne =>
    erase_of_not_mem fun hin => hne (((h.mem_iff cont key').1 hin).1.symm.trans hkey)
  have hself : d'.entry e = ⟨(d.entry e).writers.erase cont, (d.entry e).readers,
      (d.entry e).numWriters - 1, (d.entry e).maxWriters⟩ := by
    rw [hentry]
    exact update_self ..
  have hentry' : ∀ e' ≠ e, d'.entry e' = d.entry e' := fun e' hne => by
    rw [hentry]
    exact update_of_ne hne ..
  have hcont : d'.vc cont = ⟨(d.vc cont).firstKey, none⟩ := by
    rw [hvc]
    exact update_self ..
  have hvc' : ∀ w ≠ cont, d'.vc w = d.vc w := fun w hne => by
    rw [hvc]
    exact update_of_ne hne ..
  have hlength := length_erase_of_mem hmem
  have hpos := length_pos_of_mem hmem
  have hnot : cont ∉ (t.writers key).erase cont := fun hin => ((h.nodup key).mem_erase_iff.1 hin).1 rfl
  have hsub : ∀ b, (d'.bucket b).Sublist (d.bucket b) := fun b => by
    rw [hbucket]
    split
    · exact erase_sublist
    · exact List.Sublist.refl _
  have honly : ∀ b, e ∈ d.bucket b → b = bucketOf key := fun b hin => by
    obtain ⟨key', rfl, hk⟩ := h.entry b e hin
    rw [some.inj ((h.headKey_eq hk).symm.trans (h.headKey_eq he))]
  have hc : Changed d t cont e key d' (t.closeWrite cont) := by
    refine ⟨fun b e' hne => ?_, fun _ _ => he, fun _ => he, hentry', hvc', hkey,
      by rw [hcont, hkey], hother, fun _ _ => rfl, fun w hw => mem_erase_of_ne hw⟩
    rw [hbucket]
    split
    · exact mem_erase_of_ne hne
    · exact Iff.rfl
  refine h.change hc (fun b => (h.bucket_nodup b).sublist (hsub b)) (fun b e' he' => ?_)
    (fun b => ?_) (fun hne => ⟨?_, hne, ?_, ?_, fun w hw => ?_⟩) ?_ ?_ ?_
  · rw [hnext]
    exact h.fresh b e' ((hsub b).mem he')
  · rw [hbucket, hwriters]
    split
    · next hlast =>
      refine ⟨fun hin => ?_, fun hin => absurd hlast.2 hin.2⟩
      exact absurd rfl (((h.bucket_nodup b).mem_erase_iff.1 hin).1)
    · next hlast => exact ⟨fun hin => ⟨honly b hin, fun hnil => hlast ⟨honly b hin, hnil⟩⟩, fun hin => hin.1 ▸ hb⟩
  · rw [hself, hwriters, he.writers]
  · have hnum : ((d.entry e).numWriters - 1).toNat = (t.writers key).length - 1 := by
      have := he.num
      bv_omega
    rw [hself, hwriters, hlength, hnum]
  · rw [hself]
    exact he.max
  · rw [hwriters] at hw
    have hne : w ≠ cont := fun heq => hnot (heq ▸ hw)
    rw [hvc' w hne]
    exact he.od w (mem_of_mem_erase hw)
  · rw [hwriters, hcont]
    exact ⟨fun hin => absurd hin hnot, fun hne => absurd rfl hne⟩
  · exact (h.nodup key).erase cont
  · rw [hwriters, hlength]
    have := h.bound key
    change _ ≤ max 1 (t.limit key)
    omega

theorem Inv.closeWrite (hod : (d.vc cont).od ≠ none) (lock : Nat → ReaderLock) :
    ∃ d', d.closeWrite cont lock = some d' ∧ d'.Inv (t.closeWrite cont) := by
  obtain ⟨e, he⟩ := ne_none_iff_exists'.1 hod
  have hwriters : ((d.popWriter cont e).entry e).writers = (t.writers (d.vc cont).firstKey).erase cont := by
    rw [← (h.holds_od he).2.2.writers]
    change (update d.entry e _ e).writers = _
    rw [update_self]
  rw [OpenDir.closeWrite, he, map_some]
  dsimp only
  rw [hwriters]
  refine ⟨_, rfl, ?_⟩
  split
  · next hlast =>
    refine h.closed he rfl rfl rfl rfl fun b => ?_
    by_cases hb : b = bucketOf (d.vc cont).firstKey
    · rw [if_pos ⟨hb, hlast⟩, hb]
      exact update_self ..
    · rw [if_neg fun h => hb h.1]
      exact update_of_ne hb ..
  · next hlast => exact h.closed he rfl rfl rfl rfl fun b => (if_neg fun h => hlast h.2).symm

end

end OpenDir

/-! ### Runs -/

/-- A `CacheVC` that opens is not open yet, one that closes is, a reader waits for an entry that is
there, and `max_writers` is in the range of an `inku16`. -/
def OpenDirOp.Fits (d : OpenDir) : OpenDirOp → Prop
  | .openWrite cont _ _ maxWriters =>
    (d.vc cont).od = none ∧ 0 ≤ maxWriters ∧ maxWriters < 65536
  | .closeWrite cont _ => (d.vc cont).od ≠ none
  | .wait key _ => d.openRead key ≠ none

namespace OpenDir

variable {d d' : OpenDir} {t : WriterTable} {op : OpenDirOp}

def Step (s s' : OpenDir × WriterTable) : Prop :=
  ∃ op : OpenDirOp, op.Fits s.1 ∧ s.1.apply op = some s'.1 ∧ s'.2 = s.2.apply op

theorem Inv.apply (h : d.Inv t) (hop : op.Fits d) : ∃ d', d.apply op = some d' ∧ d'.Inv (t.apply op) := by
  cases op with
  | openWrite cont key allowIfWriters maxWriters =>
    obtain ⟨hod, hmin, hmax⟩ := hop
    have hvc : (d.setFirstKey cont key).vc cont = ⟨key, (d.vc cont).od⟩ := update_self ..
    exact ⟨_, rfl, ((h.setFirstKey hod key).openWrite (by rw [hvc]) (by rw [hvc, hod]) allowIfWriters hmin hmax).1⟩
  | closeWrite cont lock => exact h.closeWrite hop lock
  | wait key reader =>
    obtain ⟨e, he⟩ := ne_none_iff_exists'.1 hop
    exact ⟨d.wait e reader, by rw [apply, he, map_some], h.wait e reader⟩

theorem inv_empty : empty.Inv .empty where
  bucket_nodup _ := nodup_nil
  fresh _ _ h := by cases h
  entry _ _ h := by cases h
  live _ h := absurd rfl h
  mem_iff _ _ := ⟨nofun, fun h => absurd rfl h.2⟩
  nodup _ := nodup_nil
  bound _ := by simp [WriterTable.empty]

theorem Inv.run (hrun : ReflTransGen Step (empty, .empty) (d, t)) : d.Inv t := by
  suffices h : ∀ s, ReflTransGen Step (empty, .empty) s → s.1.Inv s.2 from h _ hrun
  intro s hrun
  induction hrun with
  | refl => exact inv_empty
  | tail _ hstep ih =>
    obtain ⟨op, hop, happly, ht⟩ := hstep
    obtain ⟨d', happly', hinv⟩ := ih.apply hop
    obtain rfl := some.inj (happly'.symm.trans happly)
    rw [ht]
    exact hinv

/-- What holds of the table beside its abstract form. -/
structure Ok (d : OpenDir) (t : WriterTable) : Prop where
  bucket_nodup : ∀ b, (d.bucket b).Nodup
  own_bucket : ∀ b, ∀ e ∈ d.bucket b, ∀ w ∈ (d.entry e).writers, bucketOf (d.vc w).firstKey = b
  one_key : ∀ b, ∀ e ∈ d.bucket b, ∀ w ∈ (d.entry e).writers, d.headKey e = some (d.vc w).firstKey
  one_entry : ∀ b b', ∀ e ∈ d.bucket b, ∀ e' ∈ d.bucket b', d.headKey e = d.headKey e' → e = e'
  writers_ne_nil : ∀ b, ∀ e ∈ d.bucket b, (d.entry e).writers ≠ []
  num : ∀ b, ∀ e ∈ d.bucket b, (d.entry e).numWriters.toNat = (d.entry e).writers.length
  bound : ∀ b, ∀ e ∈ d.bucket b, ∀ key, d.headKey e = some key →
    ((d.entry e).numWriters.toNat : Int) ≤ max 1 (t.limit key)
  open_write : ∀ cont allowIfWriters maxWriters,
    ((d.openWrite cont allowIfWriters maxWriters).2 = 1 ↔
      d.openRead (d.vc cont).firstKey = none ∨ allowIfWriters = true ∧
        ∃ e, d.openRead (d.vc cont).firstKey = some e ∧
          ((d.entry e).numWriters.toNat : Int) < t.limit (d.vc cont).firstKey) ∧
    ((d.openWrite cont allowIfWriters maxWriters).2 ≠ 1 →
      d.openWrite cont allowIfWriters maxWriters = (d, 0))
  open_read : ∀ key e, d.openRead key = some e ↔ ∃ w, (d.vc w).firstKey = key ∧ (d.vc w).od = some e
  opened : ∀ w key, w ∈ t.writers key ↔ (d.vc w).firstKey = key ∧ (d.vc w).od ≠ none

theorem Inv.ok (h : d.Inv t) : d.Ok t := by
  have hkey : ∀ b, ∀ e ∈ d.bucket b, ∃ key, bucketOf key = b ∧ d.Holds t key e ∧
      ∀ w ∈ (d.entry e).writers, (d.vc w).firstKey = key := fun b e hb => by
    obtain ⟨key, hbucket, he⟩ := h.entry b e hb
    exact ⟨key, hbucket, he, fun w hw => ((h.mem_iff w key).1 (he.writers ▸ hw)).1⟩
  refine ⟨h.bucket_nodup, fun b e hb w hw => ?_, fun b e hb w hw => ?_, fun b b' e hb e' hb' heq => ?_,
    fun b e hb => ?_, fun b e hb => ?_, fun b e hb key hhead => ?_, fun cont allow max => ?_,
    fun key e => ?_, h.mem_iff⟩
  · obtain ⟨key, hbucket, -, hall⟩ := hkey b e hb
    rw [hall w hw, hbucket]
  · obtain ⟨key, -, he, hall⟩ := hkey b e hb
    rw [hall w hw, h.headKey_eq he]
  · obtain ⟨key, -, he, -⟩ := hkey b e hb
    obtain ⟨key', -, he', -⟩ := hkey b' e' hb'
    rw [h.headKey_eq he, h.headKey_eq he'] at heq
    exact he.unique (some.inj heq ▸ he')
  · obtain ⟨key, -, he, -⟩ := hkey b e hb
    exact he.writers ▸ he.ne_nil
  · obtain ⟨key, -, he, -⟩ := hkey b e hb
    rw [he.num, he.writers]
  · obtain ⟨key', -, he, -⟩ := hkey b e hb
    obtain rfl := some.inj ((h.headKey_eq he).symm.trans hhead)
    rw [he.num]
    exact h.bound key'
  · rw [OpenDir.openWrite]
    cases hf : d.openRead (d.vc cont).firstKey with
    | none => simp
    | some e =>
      obtain ⟨-, he⟩ := h.openRead_iff.1 hf
      have hless := he.less_iff
      dsimp only
      split
      · next hallow => simp [hallow.1, hless.1 hallow.2]
      · next hallow =>
        rw [hless] at hallow
        simpa using hallow
  · rw [h.openRead_iff]
    constructor
    · rintro ⟨-, he⟩
      obtain ⟨w, hw⟩ := exists_mem_of_ne_nil _ he.ne_nil
      exact ⟨w, ((h.mem_iff w key).1 hw).1, he.od w hw⟩
    · rintro ⟨w, rfl, hod⟩
      exact (h.holds_od hod).2

/-- **While `max_writers` is in the range of an `inku16`**, the table does what its abstract form does:
one entry for each key with writers, in its bucket and with all of them, their number within the limit
that the first has set. Every further call returns, and `open_write` with the result of the abstract
table. -/
theorem open_dir_refines (d : OpenDir) (t : WriterTable) (hrun : ReflTransGen Step (empty, .empty) (d, t)) :
    d.Ok t ∧ (∀ op : OpenDirOp, op.Fits d → ∃ d', d.apply op = some d' ∧ d'.Ok (t.apply op)) ∧
      ∀ cont key allowIfWriters maxWriters, (OpenDirOp.openWrite cont key allowIfWriters maxWriters).Fits d →
        ((d.setFirstKey cont key).openWrite cont allowIfWriters maxWriters).2 =
          (t.openWrite cont key allowIfWriters maxWriters).2 := by
  have h := Inv.run hrun
  refine ⟨h.ok, fun op hop => ?_, fun cont key allowIfWriters maxWriters hop => ?_⟩
  · obtain ⟨d', happly, hinv⟩ := h.apply hop
    exact ⟨d', happly, hinv.ok⟩
  · obtain ⟨hod, hmin, hmax⟩ := hop
    have hvc : (d.setFirstKey cont key).vc cont = ⟨key, (d.vc cont).od⟩ := update_self ..
    exact ((h.setFirstKey hod key).openWrite (by rw [hvc]) (by rw [hvc, hod]) allowIfWriters hmin hmax).2

/-- A second writer opens the document, and the first one closes it. -/
theorem open_dir_refines_two : ∃ d t, ReflTransGen Step (empty, .empty) (d, t) ∧
    t.writers ⟨5, 0⟩ = [1] ∧ d.Ok t := by
  have h1 := ReflTransGen.single (r := Step) (a := (empty, .empty)) (b := (_, _))
    ⟨.openWrite 0 ⟨5, 0⟩ true 2, ⟨rfl, by decide, by decide⟩, rfl, rfl⟩
  have h2 := h1.tail (c := (_, _)) ⟨.openWrite 1 ⟨5, 0⟩ true 2, ⟨rfl, by decide, by decide⟩, rfl, rfl⟩
  have h3 := h2.tail (c := (_, _)) ⟨.closeWrite 0 fun _ => .taken, by unfold OpenDirOp.Fits; decide, rfl, rfl⟩
  exact ⟨_, _, h3, rfl, (open_dir_refines _ _ h3).1⟩

/-- A first writer with the limit 65536 leaves no room for a second one, and with the limit -1 there is
room for one. -/
theorem open_dir_limit_truncated : (((empty.openWrite 0 true 65536).1.openWrite 1 true 65536).2 = 0 ∧
      ((empty.openWrite 0 true 65536).1.entry 0).numWriters.toNat = 1) ∧
    (((empty.openWrite 0 true (-1)).1.openWrite 1 true (-1)).2 = 1 ∧
      (((empty.openWrite 0 true (-1)).1.openWrite 1 true (-1)).1.entry 0).numWriters.toNat = 2) := by
  decide

end OpenDir

end TrafficServer
