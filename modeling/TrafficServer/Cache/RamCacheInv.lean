import Mathlib.Algebra.BigOperators.Group.List.Basic
import TrafficServer.Cache.RamCache

/-!
# The invariant of the RAM cache

The queue has the entries of all buckets, each in the bucket of its key and no two under one key, and
`cur_bytes` is what they take (`Inv`). Taking one entry out and putting one in keep this as long as
the counter, an `int`, can hold the sum; then eviction ends with the sum within the limit.
-/

namespace TrafficServer

open List Function Option

namespace RamCache

variable {c c' : RamCache} {e : Nat} {key : CacheKey} {data : BufferData}

def total (c : RamCache) : Nat := (c.lru.map fun e => (c.entry e).data.blockSize).sum

structure Inv (c : RamCache) : Prop where
  lru_nodup : c.lru.Nodup
  bucket_nodup : ∀ i, (c.bucket i).Nodup
  mem_bucket : ∀ i e, e ∈ c.bucket i ↔ e ∈ c.lru ∧ c.bucketOf (c.entry e).key = i
  one_key : ∀ e ∈ c.lru, ∀ e' ∈ c.lru, (c.entry e).key = (c.entry e').key → e = e'
  cur : c.curBytes = c.total
  fresh : ∀ e ∈ c.lru, e < c.nextEntry
  small : c.total < 2 ^ 31
  off : c.partitionSize = 0 → c.lru = []

def unlink (c : RamCache) (e : Nat) : RamCache :=
  ({ c with lru := c.lru.erase e } : RamCache).removeEntry e

theorem total_erase (he : e ∈ c.lru) :
    ((c.lru.erase e).map fun e => (c.entry e).data.blockSize).sum + (c.entry e).data.blockSize = c.total := by
  rw [total, ((perm_cons_erase he).map _).sum_eq, map_cons, sum_cons, add_comm]

theorem Inv.unlink (h : c.Inv) (he : e ∈ c.lru) : (c.unlink e).Inv ∧
    (c.unlink e).total + (c.entry e).data.blockSize = c.total := by
  have htotal : (c.unlink e).total + (c.entry e).data.blockSize = c.total := total_erase he
  have hsub : ∀ e', e' ∈ (c.unlink e).lru → e' ∈ c.lru := fun e' h' => mem_of_mem_erase h'
  have hcur : (c.unlink e).curBytes = (c.unlink e).total := by
    change CInt.toInt32 (c.curBytes - (c.entry e).data.blockSize) = _
    have := h.small
    rw [h.cur, CInt.toInt32_of_mem (by omega) (by omega)]
    omega
  refine ⟨⟨h.lru_nodup.erase e, fun i => ?_, fun i e' => ?_, ?_, hcur, ?_, ?_, fun h0 => ?_⟩, htotal⟩
  · change (update c.bucket (c.bucketOf (c.entry e).key) ((c.bucket (c.bucketOf (c.entry e).key)).erase e) i).Nodup
    by_cases hi : i = c.bucketOf (c.entry e).key
    · rw [hi, update_self]
      exact (h.bucket_nodup _).erase e
    · rw [update_of_ne hi]
      exact h.bucket_nodup i
  · have hlru : e' ∈ (c.unlink e).lru ↔ e' ≠ e ∧ e' ∈ c.lru := h.lru_nodup.mem_erase_iff
    change e' ∈ update c.bucket (c.bucketOf (c.entry e).key)
      ((c.bucket (c.bucketOf (c.entry e).key)).erase e) i ↔ e' ∈ (c.unlink e).lru ∧ c.bucketOf (c.entry e').key = i
    rw [hlru]
    by_cases hi : i = c.bucketOf (c.entry e).key
    · subst hi
      rw [update_self, (h.bucket_nodup _).mem_erase_iff, h.mem_bucket, and_assoc]
    · rw [update_of_ne hi, h.mem_bucket]
      refine ⟨fun ⟨h1, h2⟩ => ⟨⟨fun heq => hi ?_, h1⟩, h2⟩, fun ⟨⟨_, h1⟩, h2⟩ => ⟨h1, h2⟩⟩
      rw [← h2, heq]
  · exact fun e1 h1 e2 h2 hk => h.one_key e1 (hsub e1 h1) e2 (hsub e2 h2) hk
  · exact fun e' h' => h.fresh e' (hsub e' h')
  · have := h.small
    omega
  · rw [h.off h0] at he
    cases he

theorem Inv.pushEntry (h : c.Inv) (hon : c.partitionSize ≠ 0) (hnew : ∀ e ∈ c.lru, (c.entry e).key ≠ key)
    (hsmall : c.total + data.blockSize < 2 ^ 31) (a1 a2 : BitVec 32) : (c.pushEntry key data a1 a2).Inv ∧
      (c.pushEntry key data a1 a2).total = c.total + data.blockSize := by
  have hnot : c.nextEntry ∉ c.lru := fun hm => absurd (h.fresh _ hm) (lt_irrefl _)
  have hold : ∀ e ∈ c.lru, (c.pushEntry key data a1 a2).entry e = c.entry e := by
    intro e he
    have hne : e ≠ c.nextEntry := fun heq => hnot (heq ▸ he)
    exact update_of_ne hne ..
  have hself : (c.pushEntry key data a1 a2).entry c.nextEntry = ⟨key, a1, a2, data⟩ := update_self ..
  have hlru : (c.pushEntry key data a1 a2).lru = c.lru ++ [c.nextEntry] := rfl
  have htotal : (c.pushEntry key data a1 a2).total = c.total + data.blockSize := by
    rw [total, hlru, map_append, sum_append, map_congr_left fun e he => by rw [hold e he],
      map_singleton, sum_singleton, hself]
    rfl
  have hcur : (c.pushEntry key data a1 a2).curBytes = (c.pushEntry key data a1 a2).total := by
    change CInt.toInt32 (c.curBytes + data.blockSize) = _
    rw [htotal, h.cur, CInt.toInt32_of_mem (by omega) (by omega)]
    push_cast
    rfl
  refine ⟨⟨?_, fun i => ?_, fun i e => ?_, ?_, hcur, ?_, by omega, fun h0 => absurd h0 hon⟩, htotal⟩
  · exact nodup_append.2 ⟨h.lru_nodup, nodup_singleton _, fun a ha b hb =>
      by rw [mem_singleton.1 hb]; exact fun heq => hnot (heq ▸ ha)⟩
  · change (update c.bucket (c.bucketOf key) (c.nextEntry :: c.bucket (c.bucketOf key)) i).Nodup
    by_cases hi : i = c.bucketOf key
    · rw [hi, update_self, nodup_cons, h.mem_bucket]
      exact ⟨fun hm => hnot hm.1, h.bucket_nodup _⟩
    · rw [update_of_ne hi]
      exact h.bucket_nodup i
  · change e ∈ update c.bucket (c.bucketOf key) (c.nextEntry :: c.bucket (c.bucketOf key)) i ↔
      e ∈ c.lru ++ [c.nextEntry] ∧ c.bucketOf ((c.pushEntry key data a1 a2).entry e).key = i
    rw [mem_append, mem_singleton]
    by_cases he : e = c.nextEntry
    · rw [he, hself]
      by_cases hi : i = c.bucketOf key
      · simp [hi]
      · rw [update_of_ne hi, h.mem_bucket]
        exact ⟨fun hm => absurd hm.1 hnot, fun hm => absurd hm.2.symm hi⟩
    · have hsame : e ∈ c.lru ∧ c.bucketOf ((c.pushEntry key data a1 a2).entry e).key = i ↔
          e ∈ c.lru ∧ c.bucketOf (c.entry e).key = i := and_congr_right fun hm => by rw [hold e hm]
      rw [or_iff_left he, hsame, ← h.mem_bucket]
      by_cases hi : i = c.bucketOf key
      · rw [hi, update_self, mem_cons, or_iff_right he]
      · rw [update_of_ne hi]
  · intro e1 h1 e2 h2 hk
    rw [hlru, mem_append, mem_singleton] at h1 h2
    rcases h1 with h1 | rfl <;> rcases h2 with h2 | rfl
    · rw [hold e1 h1, hold e2 h2] at hk
      exact h.one_key e1 h1 e2 h2 hk
    · rw [hold e1 h1, hself] at hk
      exact absurd hk (hnew e1 h1)
    · rw [hold e2 h2, hself] at hk
      exact absurd hk.symm (hnew e2 h2)
    · rfl
  · intro e he
    rw [hlru, mem_append, mem_singleton] at he
    rcases he with he | rfl
    · exact (h.fresh e he).trans (Nat.lt_succ_self _)
    · exact Nat.lt_succ_self _

/-- The entries that are left of `c` in `c'`. -/
structure Kept (c c' : RamCache) : Prop where
  entry : c'.entry = c.entry
  lru : ∀ e ∈ c'.lru, e ∈ c.lru
  bytes : c'.bytes = c.bytes
  partitionSize : c'.partitionSize = c.partitionSize
  nextEntry : c'.nextEntry = c.nextEntry

theorem Kept.refl (c : RamCache) : Kept c c := ⟨rfl, fun _ h => h, rfl, rfl, rfl⟩

theorem Kept.trans {c'' : RamCache} (h : Kept c c') (h' : Kept c' c'') : Kept c c'' :=
  ⟨h'.entry.trans h.entry, fun e he => h.lru e (h'.lru e he), h'.bytes.trans h.bytes,
    h'.partitionSize.trans h.partitionSize, h'.nextEntry.trans h.nextEntry⟩

theorem Kept.unlink (c : RamCache) (e : Nat) : Kept c (c.unlink e) :=
  ⟨rfl, fun _ h => mem_of_mem_erase h, rfl, rfl, rfl⟩

theorem Inv.putLoop (h : c.Inv) (key : CacheKey) (a1 a2 : BitVec 32) (es : List Nat)
    (hmem : ∀ e ∈ es, e ∈ c.lru) (hnodup : es.Nodup) :
    (putLoop key a1 a2 es c).1.Inv ∧ Kept c (putLoop key a1 a2 es c).1 ∧
    (putLoop key a1 a2 es c).1.total ≤ c.total ∧ ((putLoop key a1 a2 es c).2 = false →
      ∀ e ∈ es, e ∈ (putLoop key a1 a2 es c).1.lru → (c.entry e).key ≠ key) := by
  induction es generalizing c with
  | nil => exact ⟨h, .refl _, le_rfl, fun _ _ he => absurd he not_mem_nil⟩
  | cons e es ih =>
    rw [nodup_cons] at hnodup
    have he := hmem e mem_cons_self
    have hes : ∀ e' ∈ es, e' ∈ c.lru := fun e' h' => hmem e' (mem_cons_of_mem _ h')
    rw [putLoop]
    by_cases hkey : (c.entry e).key = key
    · rw [if_pos hkey]
      by_cases haux : (c.entry e).auxkey1 = a1 ∧ (c.entry e).auxkey2 = a2
      · rw [if_pos haux]
        exact ⟨h, .refl c, le_rfl, fun h => by cases h⟩
      · -- an entry under other auxkeys goes
        rw [if_neg haux]
        obtain ⟨hinv, htotal⟩ := h.unlink he
        have hes' : ∀ e' ∈ es, e' ∈ (c.unlink e).lru := fun e' h' =>
          (h.lru_nodup.mem_erase_iff).2 ⟨fun heq => hnodup.1 (heq ▸ h'), hes e' h'⟩
        obtain ⟨h1, h2, h3, h4⟩ := ih hinv hes' hnodup.2
        refine ⟨h1, (Kept.unlink c e).trans h2, h3.trans (by omega), fun hf e' he' hm => ?_⟩
        rcases mem_cons.1 he' with rfl | he'
        · have := h2.lru _ hm
          exact absurd this (h.lru_nodup.not_mem_erase)
        · exact h4 hf e' he' hm
    · rw [if_neg hkey]
      obtain ⟨h1, h2, h3, h4⟩ := ih h hes hnodup.2
      refine ⟨h1, h2, h3, fun hf e' he' hm => ?_⟩
      rcases mem_cons.1 he' with rfl | he'
      · exact hkey
      · exact h4 hf e' he' hm

theorem Inv.evict (hbytes : 0 ≤ c.bytes) (h : c.Inv) :
    ∃ c', evict c.lru c = some c' ∧ c'.Inv ∧ Kept c c' ∧ (c'.total : Int) ≤ c'.bytes := by
  generalize hl : c.lru = l
  induction l generalizing c with
  | nil =>
    have hzero : c.total = 0 := by rw [total, hl]; rfl
    have hcur := h.cur
    refine ⟨c, if_neg (by omega), h, .refl c, by omega⟩
  | cons e l ih =>
    rw [evict]
    by_cases hover : c.curBytes > c.bytes
    · rw [if_pos hover]
      have he : e ∈ c.lru := by simp [hl]
      have hun : ({ c with lru := l } : RamCache).removeEntry e = c.unlink e := by
        rw [RamCache.unlink, hl, erase_cons_head]
      have hl' : (c.unlink e).lru = l := by
        change c.lru.erase e = l
        rw [hl, erase_cons_head]
      obtain ⟨c', h1, h2, h3, h4⟩ := ih (c := c.unlink e) hbytes (h.unlink he).1 hl'
      rw [hun]
      exact ⟨c', h1, h2, (Kept.unlink c e).trans h3, h4⟩
    · have hcur := h.cur
      exact ⟨c, if_neg hover, h, .refl c, by omega⟩

/-- What is in the cache after a call: entries of before, unchanged, and perhaps a new one. -/
structure Stored (c : RamCache) (new : RamCacheEntry → Prop) (c' : RamCache) : Prop where
  inv : c'.Inv
  bound : (c'.total : Int) ≤ c'.bytes
  bytes : c'.bytes = c.bytes
  entries : ∀ e ∈ c'.lru, (e ∈ c.lru ∧ c'.entry e = c.entry e) ∨
    (e ∉ c.lru ∧ new (c'.entry e))

theorem Inv.putEntry (h : c.Inv) (hon : c.partitionSize ≠ 0) (hbytes : 0 ≤ c.bytes)
    (hbound : (c.total : Int) ≤ c.bytes) (hfit : c.total + data.blockSize < 2 ^ 31)
    (key : CacheKey) (a1 a2 : BitVec 32) :
    ∃ c', c.putEntry key data a1 a2 = some (c', 1) ∧ c.Stored (· = ⟨key, a1, a2, data⟩) c' := by
  obtain ⟨h2, hk2, ht2, hnone⟩ := h.putLoop key a1 a2
    (c.bucket (c.bucketOf key)) (fun e he => ((h.mem_bucket _ e).1 he).1) (h.bucket_nodup _)
  rw [RamCache.putEntry]
  obtain ⟨⟨c2, present⟩, hc2⟩ : ∃ r, r = RamCache.putLoop key a1 a2 (c.bucket (c.bucketOf key)) c := ⟨_, rfl⟩
  rw [← hc2] at h2 hk2 ht2 hnone ⊢
  dsimp only at h2 hk2 ht2 hnone ⊢
  cases present with
  | true =>
    refine ⟨c2, rfl, h2, ?_, hk2.bytes, fun e he => .inl ⟨hk2.lru e he, by rw [hk2.entry]⟩⟩
    rw [hk2.bytes]
    omega
  | false =>
    -- no entry is left under the key, since all of them are in its bucket
    have hnew : ∀ e ∈ c2.lru, (c2.entry e).key ≠ key := by
      intro e he hkey
      rw [hk2.entry] at hkey
      have hin : e ∈ c.bucket (c.bucketOf key) := (h.mem_bucket _ e).2 ⟨hk2.lru e he, by rw [hkey]⟩
      exact hnone rfl e hin he hkey
    have hsmall : c2.total + data.blockSize < 2 ^ 31 := by omega
    obtain ⟨h3, -⟩ := h2.pushEntry (hk2.partitionSize.trans_ne hon) hnew hsmall a1 a2
    have hpos : 0 ≤ (c2.pushEntry key data a1 a2).bytes := by
      change 0 ≤ c2.bytes
      rw [hk2.bytes]
      exact hbytes
    obtain ⟨c', hrun, h4, hk4, hb4⟩ := h3.evict hpos
    refine ⟨c', ?_, h4, hb4, hk4.bytes.trans hk2.bytes, fun e he => ?_⟩
    · rw [if_neg (by decide), hrun]
      rfl
    · have he3 : e ∈ c2.lru ++ [c2.nextEntry] := hk4.lru e he
      rw [hk4.entry]
      rcases mem_append.1 he3 with he2 | he2
      · have hne : e ≠ c2.nextEntry := (h2.fresh e he2).ne
        refine .inl ⟨hk2.lru e he2, ?_⟩
        rw [← hk2.entry]
        exact update_of_ne hne ..
      · rw [mem_singleton.1 he2]
        refine .inr ⟨fun hold => ?_, update_self ..⟩
        have := h.fresh _ hold
        rw [hk2.nextEntry] at this
        exact lt_irrefl _ this

theorem Inv.put (h : c.Inv) (hbytes : 0 ≤ c.bytes) (hbound : (c.total : Int) ≤ c.bytes)
    (hfit : c.partitionSize ≠ 0 → c.total + data.blockSize < 2 ^ 31) (key : CacheKey) (a1 a2 : BitVec 32) :
    ∃ c' r, c.put key data a1 a2 = some (c', r) ∧ c.Stored (· = ⟨key, a1, a2, data⟩) c' := by
  have hseen : (c.setSeen key).Inv :=
    ⟨h.lru_nodup, h.bucket_nodup, h.mem_bucket, h.one_key, h.cur, h.fresh, h.small, h.off⟩
  rw [RamCache.put]
  by_cases hoff : c.partitionSize = 0
  · exact ⟨c, 0, if_pos hoff, h, hbound, rfl, fun e he => .inl ⟨he, rfl⟩⟩
  rw [if_neg hoff]
  dsimp only
  split
  · exact ⟨c.setSeen key, 0, rfl, hseen, hbound, rfl, fun e he => .inl ⟨he, rfl⟩⟩
  · obtain ⟨c', hrun, hstored⟩ := hseen.putEntry hoff hbytes hbound (hfit hoff) key a1 a2
    exact ⟨c', 1, hrun, hstored.inv, hstored.bound, hstored.bytes, hstored.entries⟩

theorem isEntry_iff {a1 a2 : BitVec 32} : c.isEntry key a1 a2 e = true ↔
    (c.entry e).key = key ∧ (c.entry e).auxkey1 = a1 ∧ (c.entry e).auxkey2 = a2 := by
  simp [isEntry]

theorem Inv.find_iff (h : c.Inv) (key : CacheKey) (a1 a2 : BitVec 32) (e : Nat) :
    (c.bucket (c.bucketOf key)).find? (c.isEntry key a1 a2) = some e ↔ e ∈ c.lru ∧ c.isEntry key a1 a2 e = true := by
  have hin : ∀ e, e ∈ c.bucket (c.bucketOf key) ∧ c.isEntry key a1 a2 e = true ↔
      e ∈ c.lru ∧ c.isEntry key a1 a2 e = true := fun e => by
    rw [h.mem_bucket]
    refine and_congr_left fun hm => and_iff_left ?_
    rw [(isEntry_iff.1 hm).1]
  constructor
  · exact fun hf => (hin e).1 ⟨mem_of_find?_eq_some hf, find?_some hf⟩
  · intro hm
    obtain ⟨e', hf⟩ := isSome_iff_exists.1 (find?_isSome.2 ⟨e, ((hin e).2 hm).1, hm.2⟩)
    have hm' := (hin e').1 ⟨mem_of_find?_eq_some hf, find?_some hf⟩
    rw [hf, h.one_key e' hm'.1 e hm.1 ((isEntry_iff.1 hm'.2).1.trans (isEntry_iff.1 hm.2).1.symm)]

theorem Inv.get (h : c.Inv) (hbound : (c.total : Int) ≤ c.bytes) (key : CacheKey)
    (a1 a2 : BitVec 32) : c.Stored (fun _ => False) (c.get key a1 a2).1 := by
  have hself : c.Stored (fun _ => False) c := ⟨h, hbound, rfl, fun e he => .inl ⟨he, rfl⟩⟩
  rw [RamCache.get]
  split
  · exact hself
  · split
    · next e hf =>
      -- the entry found moves to the tail of the queue
      have he := ((h.find_iff key a1 a2 e).1 hf).1
      have hperm : (c.lru.erase e ++ [e]).Perm c.lru :=
        perm_append_singleton e (c.lru.erase e) |>.trans (perm_cons_erase he).symm
      have htotal : ({ c with lru := c.lru.erase e ++ [e] } : RamCache).total = c.total := (hperm.map _).sum_eq
      refine ⟨⟨hperm.nodup_iff.2 h.lru_nodup, h.bucket_nodup, fun i e' => ?_, ?_, ?_, ?_, ?_,
        fun h0 => ?_⟩, ?_, rfl, ?_⟩
      · exact (h.mem_bucket i e').trans (and_congr_left fun _ => hperm.mem_iff.symm)
      · exact fun e1 h1 e2 h2 => h.one_key e1 (hperm.mem_iff.1 h1) e2 (hperm.mem_iff.1 h2)
      · rw [htotal]
        exact h.cur
      · exact fun e' h' => h.fresh e' (hperm.mem_iff.1 h')
      · rw [htotal]
        exact h.small
      · rw [h.off h0] at he
        cases he
      · rw [htotal]
        exact hbound
      · exact fun e' h' => .inl ⟨hperm.mem_iff.1 h', rfl⟩
    · exact hself

theorem Inv.get_iff (h : c.Inv) (key : CacheKey) (a1 a2 : BitVec 32) (data : BufferData) :
    (c.get key a1 a2).2 = some data ↔ ∃ e ∈ c.lru, c.entry e = ⟨key, a1, a2, data⟩ := by
  have hentry : ∀ e, c.entry e = ⟨key, a1, a2, data⟩ ↔
      c.isEntry key a1 a2 e = true ∧ (c.entry e).data = data := fun e => by
    rw [isEntry_iff]
    obtain ⟨k, b1, b2, d⟩ := c.entry e
    simp [and_assoc]
  rw [RamCache.get]
  split_ifs with hoff
  · rw [h.off hoff]
    simp
  · cases hf : (c.bucket (c.bucketOf key)).find? (c.isEntry key a1 a2) with
    | none =>
      refine ⟨nofun, fun ⟨e, he, heq⟩ => ?_⟩
      exact absurd ((h.find_iff key a1 a2 e).2 ⟨he, ((hentry e).1 heq).1⟩) (by simp [hf])
    | some e =>
      have he := (h.find_iff key a1 a2 e).1 hf
      constructor
      · exact fun hd => ⟨e, he.1, (hentry e).2 ⟨he.2, some.inj hd⟩⟩
      · rintro ⟨e', he', heq⟩
        have hm := (hentry e').1 heq
        have := (h.find_iff key a1 a2 e').2 ⟨he', hm.1⟩
        obtain rfl : e = e' := some.inj (hf.symm.trans this)
        exact congrArg some hm.2

theorem Inv.fixup (h : c.Inv) (key : CacheKey) (o1 o2 n1 n2 : BitVec 32) :
    (c.fixup key o1 o2 n1 n2).1.Inv ∧ (c.fixup key o1 o2 n1 n2).1.total = c.total ∧
    (c.fixup key o1 o2 n1 n2).1.bytes = c.bytes ∧ (c.fixup key o1 o2 n1 n2).1.lru = c.lru ∧
    ∀ e ∈ c.lru, (c.fixup key o1 o2 n1 n2).1.entry e =
      if c.isEntry key o1 o2 e then { c.entry e with auxkey1 := n1, auxkey2 := n2 } else c.entry e := by
  rw [RamCache.fixup]
  split_ifs with hoff
  · refine ⟨h, rfl, rfl, rfl, fun e he => ?_⟩
    rw [h.off hoff] at he
    cases he
  · cases hf : (c.bucket (c.bucketOf key)).find? (c.isEntry key o1 o2) with
    | none =>
      refine ⟨h, rfl, rfl, rfl, fun e he => (if_neg fun hm => ?_).symm⟩
      exact absurd ((h.find_iff key o1 o2 e).2 ⟨he, hm⟩) (by simp [hf])
    | some e =>
      have he := (h.find_iff key o1 o2 e).1 hf
      generalize hfe : update c.entry e { c.entry e with auxkey1 := n1, auxkey2 := n2 } = f
      dsimp only
      rw [hfe]
      have hsame : ∀ e', (f e').key = (c.entry e').key ∧ (f e').data = (c.entry e').data := fun e' => by
        rw [← hfe]
        by_cases heq : e' = e
        · rw [heq, update_self]
          exact ⟨rfl, rfl⟩
        · rw [update_of_ne heq]
          exact ⟨rfl, rfl⟩
      have htotal : ({ c with entry := f } : RamCache).total = c.total := by simp only [total, hsame]
      refine ⟨⟨h.lru_nodup, h.bucket_nodup, fun i e' => ?_, fun e1 h1 e2 h2 hk => ?_, ?_, h.fresh, ?_,
        h.off⟩, htotal, rfl, rfl, fun e' he' => ?_⟩
      · change _ ↔ e' ∈ c.lru ∧ c.bucketOf (f e').key = i
        rw [(hsame e').1]
        exact h.mem_bucket i e'
      · refine h.one_key e1 h1 e2 h2 ?_
        rw [← (hsame e1).1, ← (hsame e2).1]
        exact hk
      · rw [htotal]
        exact h.cur
      · rw [htotal]
        exact h.small
      · rw [← hfe]
        by_cases heq : e' = e
        · rw [heq, update_self, if_pos he.2]
        · rw [update_of_ne heq, if_neg fun hm => heq ?_]
          have := (h.find_iff key o1 o2 e').2 ⟨he', hm⟩
          exact some.inj (this.symm.trans hf)

end RamCache

/-! ### Runs -/

def RamOp.Fits (c : RamCache) : RamOp → Prop
  | .put _ data _ _ => c.partitionSize ≠ 0 → c.total + data.blockSize < 2 ^ 31
  | .get .. | .fixup .. => True

/-- What the calls make of the auxkeys of an entry under the key. -/
def RamOp.rename (key : CacheKey) (aux : BitVec 32 × BitVec 32) : RamOp → BitVec 32 × BitVec 32
  | .fixup key' o₁ o₂ n₁ n₂ => if key' = key ∧ aux = (o₁, o₂) then (n₁, n₂) else aux
  | .put .. | .get .. => aux

namespace RamCache

variable {c₀ c c' : RamCache} {op : RamOp} {log : List RamOp} {e : Nat} {key : CacheKey}
  {data : BufferData}

/-- The calls `log`, each of them fitting, lead from `c₀` to a state. -/
inductive Run (c₀ : RamCache) : List RamOp → RamCache → Prop
  | nil : Run c₀ [] c₀
  | snoc {log : List RamOp} {c c' : RamCache} {op : RamOp} : Run c₀ log c → op.Fits c →
      c.apply op = some c' → Run c₀ (log ++ [op]) c'

/-- The entry was made by a `put` of the run: it has the key and the data of that call, and its
auxkeys as the calls since then have renamed them. -/
def Traced (c₀ : RamCache) (log : List RamOp) (c : RamCache) (e : Nat) : Prop :=
  ∃ before after c₁ c₂ a₁ a₂,
    log = before ++ .put (c.entry e).key (c.entry e).data a₁ a₂ :: after ∧
    Run c₀ before c₁ ∧ c₁.apply (.put (c.entry e).key (c.entry e).data a₁ a₂) = some c₂ ∧
    e ∉ c₁.lru ∧ e ∈ c₂.lru ∧ c₂.entry e = ⟨(c.entry e).key, a₁, a₂, (c.entry e).data⟩ ∧
    ((c.entry e).auxkey1, (c.entry e).auxkey2) =
      after.foldl (RamOp.rename (c.entry e).key) (a₁, a₂)

/-- What holds after the calls `log`. -/
structure Ok (c₀ : RamCache) (log : List RamOp) (c : RamCache) : Prop where
  lru_nodup : c.lru.Nodup
  bucket_nodup : ∀ i, (c.bucket i).Nodup
  mem_bucket : ∀ i e, e ∈ c.bucket i ↔ e ∈ c.lru ∧ c.bucketOf (c.entry e).key = i
  one_key : ∀ e ∈ c.lru, ∀ e' ∈ c.lru, (c.entry e).key = (c.entry e').key → e = e'
  cur : c.curBytes = c.total
  bound : (c.total : Int) ≤ c.bytes
  get_iff : ∀ key a₁ a₂ data,
    (c.get key a₁ a₂).2 = some data ↔ ∃ e ∈ c.lru, c.entry e = ⟨key, a₁, a₂, data⟩
  traced : ∀ e ∈ c.lru, Traced c₀ log c e

/-- What one call does to the entries. -/
structure Applied (c : RamCache) (op : RamOp) (c' : RamCache) : Prop where
  inv : c'.Inv
  bound : (c'.total : Int) ≤ c'.bytes
  bytes : c'.bytes = c.bytes
  entries : ∀ e ∈ c'.lru,
    (e ∈ c.lru ∧ (c'.entry e).key = (c.entry e).key ∧ (c'.entry e).data = (c.entry e).data ∧
      ((c'.entry e).auxkey1, (c'.entry e).auxkey2) =
        op.rename (c.entry e).key ((c.entry e).auxkey1, (c.entry e).auxkey2)) ∨
    (e ∉ c.lru ∧
      op = .put (c'.entry e).key (c'.entry e).data (c'.entry e).auxkey1 (c'.entry e).auxkey2)

theorem Inv.apply (h : c.Inv) (hbytes : 0 ≤ c.bytes) (hbound : (c.total : Int) ≤ c.bytes)
    (hop : op.Fits c) : ∃ c', c.apply op = some c' ∧ c.Applied op c' := by
  cases op with
  | put key data a1 a2 =>
    obtain ⟨c', r, hrun, hs⟩ := h.put hbytes hbound hop key a1 a2
    refine ⟨c', by rw [apply, hrun]; rfl, hs.inv, hs.bound, hs.bytes, fun e he => ?_⟩
    rcases hs.entries e he with ⟨hold, heq⟩ | ⟨hnew, heq⟩
    · exact .inl ⟨hold, by rw [heq], by rw [heq], by rw [heq]; rfl⟩
    · exact .inr ⟨hnew, by rw [heq]⟩
  | get key a1 a2 =>
    have hs := h.get hbound key a1 a2
    refine ⟨_, rfl, hs.inv, hs.bound, hs.bytes, fun e he => ?_⟩
    rcases hs.entries e he with ⟨hold, heq⟩ | ⟨-, hfalse⟩
    · exact .inl ⟨hold, by rw [heq], by rw [heq], by rw [heq]; rfl⟩
    · exact hfalse.elim
  | fixup key o1 o2 n1 n2 =>
    obtain ⟨hinv, htotal, hb, hlru, hentry⟩ := h.fixup key o1 o2 n1 n2
    refine ⟨_, rfl, hinv, by rw [htotal, hb]; exact hbound, hb, fun e he => .inl ?_⟩
    rw [hlru] at he
    refine ⟨he, ?_⟩
    rw [hentry e he, RamOp.rename]
    by_cases hm : c.isEntry key o1 o2 e = true
    · obtain ⟨h1, h2, h3⟩ := isEntry_iff.1 hm
      rw [if_pos hm, if_pos ⟨h1.symm, by rw [h2, h3]⟩]
      exact ⟨rfl, rfl, rfl⟩
    · rw [if_neg hm, if_neg fun ⟨h1, h2⟩ => hm (isEntry_iff.2 ⟨h1.symm, Prod.mk.inj h2⟩)]
      exact ⟨rfl, rfl, rfl⟩

theorem Traced.snoc (hrun : Run c₀ log c) (happly : c.apply op = some c') (h : c.Applied op c')
    (htraced : ∀ e ∈ c.lru, Traced c₀ log c e) (he : e ∈ c'.lru) : Traced c₀ (log ++ [op]) c' e := by
  rcases h.entries e he with ⟨hold, hkey, hdata, haux⟩ | ⟨hnew, hput⟩
  · obtain ⟨before, after, c1, c2, a1, a2, hlog, hrun1, hput, hout, hin, hentry, hren⟩ := htraced e hold
    refine ⟨before, after ++ [op], c1, c2, a1, a2, ?_, hrun1, ?_, hout, hin, ?_, ?_⟩
    · rw [hkey, hdata, hlog, append_assoc, cons_append]
    · rw [hkey, hdata]
      exact hput
    · rw [hkey, hdata]
      exact hentry
    · rw [haux, hkey, foldl_append, ← hren]
      rfl
  · refine ⟨log, [], c, c', _, _, by rw [← hput], hrun, by rw [← hput]; exact happly, hnew, he, rfl, rfl⟩

theorem inv_init (abytes : Int) (aobjects : Nat) : (init abytes aobjects).Inv where
  lru_nodup := nodup_nil
  bucket_nodup _ := nodup_nil
  mem_bucket _ _ := by simp [init]
  one_key _ h := by cases h
  cur := rfl
  fresh _ h := by cases h
  small := Nat.two_pow_pos 31
  off _ := rfl

theorem Run.inv {abytes : Int} {aobjects : Nat} (hbytes : 0 ≤ abytes)
    (hrun : Run (init abytes aobjects) log c) : c.Inv ∧ 0 ≤ c.bytes ∧ (c.total : Int) ≤ c.bytes ∧
      ∀ e ∈ c.lru, Traced (init abytes aobjects) log c e := by
  induction hrun with
  | nil =>
    have : 0 ≤ (init abytes aobjects).bytes := by
      change 0 ≤ if aobjects = 0 then 0 else abytes
      split
      · exact le_rfl
      · exact hbytes
    exact ⟨inv_init abytes aobjects, this, this, nofun⟩
  | snoc hrun hop happly ih =>
    obtain ⟨hinv, hb, hbound, htraced⟩ := ih
    obtain ⟨c', happly', h⟩ := hinv.apply hb hbound hop
    obtain rfl := some.inj (happly.symm.trans happly')
    exact ⟨h.inv, h.bytes ▸ hb, h.bound, fun e he => Traced.snoc hrun happly h htraced he⟩

/-- **While the counter can hold the sum of the sizes**, the queue and the buckets have the same
entries, at most one for a key, `cur_bytes` is their sum and within the limit, `get` finds exactly
the entries that are there, each as its `put` made it and later calls of `fixup` have renamed it, and
no call takes an entry from an empty queue. -/
theorem ram_cache_consistent (abytes : Int) (aobjects : Nat) (hbytes : 0 ≤ abytes) (log : List RamOp)
    (c : RamCache) (hrun : Run (init abytes aobjects) log c) :
    Ok (init abytes aobjects) log c ∧ ∀ op : RamOp, op.Fits c → ∃ c', c.apply op = some c' := by
  obtain ⟨hinv, hb, hbound, htraced⟩ := hrun.inv hbytes
  refine ⟨⟨hinv.lru_nodup, hinv.bucket_nodup, hinv.mem_bucket, hinv.one_key, hinv.cur, hbound,
    hinv.get_iff, htraced⟩, fun op hop => ?_⟩
  obtain ⟨c', happly, -⟩ := hinv.apply hb hbound hop
  exact ⟨c', happly⟩

/-- The third `put` takes the place of the first. -/
theorem ram_cache_consistent_puts : ∃ c : RamCache, c.lru = [1, 2] ∧ c.curBytes = 65536 ∧
    Ok (init 65536 2) [.put ⟨1, 0⟩ ⟨0, 32768⟩ 0 0, .put ⟨2, 0⟩ ⟨1, 32768⟩ 0 0, .put ⟨3, 0⟩ ⟨2, 32768⟩ 0 0] c := by
  have h1 := @Run.snoc (init 65536 2) _ _ _ (.put ⟨1, 0⟩ ⟨0, 32768⟩ 0 0) .nil (fun _ => by decide) rfl
  have h2 := @Run.snoc _ _ _ _ (.put ⟨2, 0⟩ ⟨1, 32768⟩ 0 0) h1 (fun _ => by decide) rfl
  have h3 := @Run.snoc _ _ _ _ (.put ⟨3, 0⟩ ⟨2, 32768⟩ 0 0) h2 (fun _ => by decide) rfl
  exact ⟨_, by decide, by decide, (ram_cache_consistent 65536 2 (by decide) _ _ h3).1⟩

/-- With a limit of 4 GB the second buffer of 1 GB takes the counter to `-2 ^ 31`. -/
theorem ram_cache_counter_wraps : ∃ c : RamCache, ((init (2 ^ 32) 2).apply (.put ⟨1, 0⟩ ⟨0, 2 ^ 30⟩ 0 0)).bind
      (·.apply (.put ⟨2, 0⟩ ⟨1, 2 ^ 30⟩ 0 0)) = some c ∧ c.total = 2 ^ 31 ∧ c.curBytes = -2 ^ 31 :=
  ⟨_, rfl, by decide, by decide⟩

end RamCache

end TrafficServer
