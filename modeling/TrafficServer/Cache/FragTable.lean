import Mathlib.Algebra.Group.Nat.Defs
import Mathlib.Algebra.Group.Action.Defs
import Mathlib.Algebra.Order.BigOperators.Group.List
import Mathlib.Algebra.Order.Ring.Nat
import Mathlib.Data.List.Induction

/-!
# The fragment table of a write

A document larger than one fragment is written fragment by fragment. When a fragment other than the
first is on disk, `openWriteWriteDone` appends its start offset to the table `frag`: first in the
four entries inside the `CacheVC`, then in heap blocks that double each time the index is a power of
two.

The index never leaves its block, since the capacity is a power of two and the block is replaced
as soon as the index reaches it. But the copy into a new block takes one entry too few: the entry
before the index is lost, and what `xmalloc` left in its place is read as an offset. So the invariant
of a run says for every entry either that it is exact or that it was lost (`Lost`).
-/

namespace TrafficServer.Frag

open Option List

/-! ### The code -/

def integralFrags : Nat := 4

def powerOf2Loop : Nat → Nat → Bool
  | 0, _ => true
  | bits + 1, x =>
    if x = 0 then true
    else if x % 2 = 1 then x / 2 = 0
    else powerOf2Loop bits (x / 2)

def powerOf2 (x : Nat) : Bool := powerOf2Loop 32 x

/-- What `frag` points at: nothing, `integral_frags`, or a block from `xmalloc`. -/
inductive FragPtr where
  | null
  | integral
  | heap (block : List UInt64)
  deriving DecidableEq

/-- The fields of a writing `CacheVC` that the table depends on. -/
structure WriteVC where
  fragment : Nat
  writePos : UInt64
  integral : List UInt64
  frag : FragPtr
  deriving DecidableEq

def WriteVC.entries (vc : WriteVC) : List UInt64 :=
  match vc.frag with
  | .null => []
  | .integral => vc.integral
  | .heap block => block

/-- What memory holds when it is handed out, by the number of the completion and by the entry. -/
abbrev Fresh := Nat → Nat → UInt64

def xmalloc (fresh : Fresh) (c n : Nat) : List UInt64 := (List.range n).map (fresh c)

def copyEntries (block source : List UInt64) (n : Nat) : Option (List UInt64) :=
  if n ≤ source.length ∧ n ≤ block.length then some (source.take n ++ block.drop n) else none

def storeOffset (vc : WriteVC) (i : Nat) (v : UInt64) : Option WriteVC :=
  if i < vc.entries.length then
    match vc.frag with
    | .null => none
    | .integral => some { vc with integral := vc.integral.set i v }
    | .heap block => some { vc with frag := .heap (block.set i v) }
  else none

def growTable (fresh : Fresh) (vc : WriteVC) : Option WriteVC :=
  match vc.frag with
  | .null => some { vc with frag := .integral }
  | _ =>
    if integralFrags ≤ vc.fragment - 1 ∧ powerOf2 (vc.fragment - 1) then
      (copyEntries (xmalloc fresh vc.fragment ((vc.fragment - 1) * 2)) vc.entries
        (vc.fragment - 2)).map fun block => { vc with frag := .heap block }
    else some vc

/-- The entry of the fragment that was just written; the first fragment has none. -/
def storeStart (fresh : Fresh) (vc : WriteVC) : Option WriteVC :=
  if vc.fragment = 0 then some vc
  else (growTable fresh vc).bind fun vc => storeOffset vc (vc.fragment - 1) vc.writePos

/-- One completed write, the table part. `none` is an access outside a block or an overflow of the
`int` that counts the fragments. -/
def openWriteWriteDone (fresh : Fresh) (vc : WriteVC) (writeLen : UInt32) : Option WriteVC :=
  (storeStart fresh vc).bind fun vc =>
    if vc.fragment + 1 < 2 ^ 31 then
      some { vc with
        fragment := vc.fragment + 1
        writePos := vc.writePos + writeLen.toUInt64 }
    else none

def newWrite (fresh : Fresh) : WriteVC :=
  { fragment := 0, writePos := 0, integral := xmalloc fresh 0 integralFrags, frag := .null }

def completions (fresh : Fresh) (ws : List UInt32) : Option WriteVC :=
  ws.foldlM (openWriteWriteDone fresh) (newWrite fresh)

/-! ### What the table is for -/

/-- The start of fragment `j`: the bytes in the fragments before it. -/
def startOf (ws : List UInt32) (j : Nat) : Nat := ((ws.take j).map UInt32.toNat).sum

/-- After the writes `ws` the table holds the start of every fragment but the first, and no access
left its block. -/
def TableExact (fresh : Fresh) (ws : List UInt32) : Prop :=
  ∃ vc, completions fresh ws = some vc ∧
    ∀ i, i + 1 < ws.length → ∃ v, vc.entries[i]? = some v ∧ v.toNat = startOf ws (i + 1)

/-! ### Powers of two -/

theorem powerOf2Loop_iff (bits : Nat) : ∀ x < 2 ^ bits, powerOf2Loop bits x = true ↔ x = 0 ∨ ∃ k, x = 2 ^ k := by
  induction bits with
  | zero =>
    intro x hx
    simp only [powerOf2Loop, true_iff]
    omega
  | succ bits ih =>
    intro x hx
    rw [powerOf2Loop]
    by_cases h0 : x = 0
    · simp [h0]
    by_cases hodd : x % 2 = 1
    · simp only [h0, hodd, if_true, if_false, decide_eq_true_eq, false_or]
      constructor
      · exact fun h => ⟨0, by omega⟩
      · rintro ⟨_ | k, rfl⟩
        · rfl
        · omega
    · rw [if_neg h0, if_neg hodd, ih _ (by omega)]
      constructor
      · rintro (h | ⟨k, hk⟩)
        · omega
        · exact .inr ⟨k + 1, by omega⟩
      · rintro (h | ⟨_ | k, rfl⟩)
        · omega
        · omega
        · exact .inr ⟨k, by omega⟩

theorem powerOf2_iff {x : Nat} (h0 : 0 < x) (hx : x < 2 ^ 32) : powerOf2 x = true ↔ ∃ k, x = 2 ^ k := by
  rw [powerOf2, powerOf2Loop_iff 32 x hx]
  exact or_iff_right h0.ne'

/-! ### The starts of fragments -/

variable {ws : List UInt32}

theorem startOf_append {j : Nat} (h : j ≤ ws.length) (w : UInt32) : startOf (ws ++ [w]) j = startOf ws j := by
  rw [startOf, take_append_of_le_length h, startOf]

theorem startOf_length (ws : List UInt32) (w : UInt32) :
    startOf (ws ++ [w]) (ws.length + 1) = startOf ws ws.length + w.toNat := by
  simp [startOf]

theorem startOf_le (ws : List UInt32) (j : Nat) : startOf ws j ≤ ws.length * 2 ^ 32 := by
  rw [startOf]
  have hb : ∀ x ∈ (ws.take j).map UInt32.toNat, x ≤ 2 ^ 32 := by
    intro x hx
    obtain ⟨w, -, rfl⟩ := mem_map.1 hx
    exact w.toNat_lt.le
  have hsum := sum_le_card_nsmul _ _ hb
  rw [length_map, length_take, smul_eq_mul] at hsum
  exact hsum.trans (Nat.mul_le_mul_right _ (Nat.min_le_right _ _))

theorem toNat_startOf (h : ws.length < 2 ^ 31) (j : Nat) : (UInt64.ofNat (startOf ws j)).toNat = startOf ws j := by
  have := startOf_le ws j
  rw [UInt64.toNat_ofNat', Nat.mod_eq_of_lt]
  omega

/-! ### The invariant of a run -/

/-- After `c` completions entry `i` is one that the copy into a new block left out: the block was
replaced when entry `i + 1` was stored. -/
def Lost (c i : Nat) : Prop := integralFrags ≤ i + 1 ∧ powerOf2 (i + 1) = true ∧ i + 2 < c
deriving Decidable

def entryOf (fresh : Fresh) (ws : List UInt32) (i : Nat) : UInt64 :=
  if Lost ws.length i then fresh (i + 2) i else UInt64.ofNat (startOf ws (i + 1))

/-- The `CacheVC` after the writes `ws`. -/
structure After (fresh : Fresh) (ws : List UInt32) (vc : WriteVC) : Prop where
  fragment : vc.fragment = ws.length
  writePos : vc.writePos = UInt64.ofNat (startOf ws ws.length)
  integral : vc.integral.length = integralFrags
  null : vc.frag = .null ↔ ws.length ≤ 1
  capacity : 2 ≤ ws.length → ∃ k, 2 ≤ k ∧ vc.entries.length = 2 ^ k ∧ ws.length ≤ 2 ^ k + 1
  entries : ∀ i, i + 1 < ws.length → vc.entries[i]? = some (entryOf fresh ws i)

theorem newWrite_after (fresh : Fresh) : After fresh [] (newWrite fresh) where
  fragment := rfl
  writePos := rfl
  integral := by simp [newWrite, xmalloc]
  null := by simp [newWrite]
  capacity h := by simp at h
  entries i h := by simp at h

variable {fresh : Fresh} {vc vc' : WriteVC} {ws : List UInt32} {i : Nat}

theorem storeOffset_of_lt (v : UInt64) (h : i < vc.entries.length) :
    ∃ vc', storeOffset vc i v = some vc' ∧ vc'.entries = vc.entries.set i v ∧
      vc'.fragment = vc.fragment ∧ vc'.writePos = vc.writePos ∧
      vc'.integral.length = vc.integral.length ∧ (vc'.frag = .null ↔ vc.frag = .null) := by
  obtain ⟨n, pos, integral, frag⟩ := vc
  cases frag with
  | null => simp [WriteVC.entries] at h
  | integral => exact ⟨_, if_pos h, by simp [WriteVC.entries]⟩
  | heap block => exact ⟨_, if_pos h, by simp [WriteVC.entries]⟩

/-- The table grown for one more entry: the entries stay, except the one that the copy leaves
out. -/
structure Grown (fresh : Fresh) (ws : List UInt32) (vc vc' : WriteVC) : Prop where
  fragment : vc'.fragment = vc.fragment
  writePos : vc'.writePos = vc.writePos
  integral : vc'.integral = vc.integral
  frag : vc'.frag ≠ .null
  capacity : ∃ k, 2 ≤ k ∧ vc'.entries.length = 2 ^ k ∧ ws.length ≤ 2 ^ k
  entries : ∀ i, i + 1 < ws.length → vc'.entries[i]? =
    some (if integralFrags ≤ i + 1 ∧ powerOf2 (i + 1) = true ∧ i + 2 = ws.length then
      fresh (i + 2) i else entryOf fresh ws i)

theorem xmalloc_length (fresh : Fresh) (c n : Nat) : (xmalloc fresh c n).length = n := by simp [xmalloc]

theorem growTable_of_null (h : After fresh ws vc) (hlen : ws.length = 1) :
    ∃ vc', growTable fresh vc = some vc' ∧ Grown fresh ws vc vc' := by
  have hnull := h.null.2 hlen.le
  refine ⟨{ vc with frag := .integral }, by rw [growTable, hnull], rfl, rfl, rfl, ?_, ?_, ?_⟩
  · exact FragPtr.noConfusion
  · exact ⟨2, le_rfl, h.integral, by omega⟩
  · intro i hi
    omega

theorem growTable_eq (h : vc.frag ≠ .null) : growTable fresh vc =
    if integralFrags ≤ vc.fragment - 1 ∧ powerOf2 (vc.fragment - 1) then
      (copyEntries (xmalloc fresh vc.fragment ((vc.fragment - 1) * 2)) vc.entries
        (vc.fragment - 2)).map fun block => { vc with frag := .heap block } else some vc := by
  rw [growTable]
  split
  · next hn => exact absurd hn h
  · rfl

theorem growTable_of_room (h : After fresh ws vc) (hlen : 2 ≤ ws.length) (hcount : ws.length < 2 ^ 31)
    (hroom : ¬(integralFrags ≤ ws.length - 1 ∧ powerOf2 (ws.length - 1) = true)) :
    ∃ vc', growTable fresh vc = some vc' ∧ Grown fresh ws vc vc' := by
  have hptr : vc.frag ≠ .null := fun hn => by have := h.null.1 hn; omega
  obtain ⟨k, hk, hcap, hle⟩ := h.capacity hlen
  have hfour : 2 ^ 2 ≤ 2 ^ k := Nat.pow_le_pow_right (by decide) hk
  refine ⟨vc, by rw [growTable_eq hptr, h.fragment, if_neg hroom], rfl, rfl, rfl, hptr, ?_, ?_⟩
  · refine ⟨k, hk, hcap, ?_⟩
    -- the index at the end of the block would be a power of two
    by_contra hfull
    have heq : ws.length - 1 = 2 ^ k := by omega
    refine hroom ⟨by rw [heq]; exact hfour, (powerOf2_iff (by omega) (by omega)).2 ⟨k, heq⟩⟩
  · intro i hi
    rw [if_neg, h.entries i hi]
    rintro ⟨h4, hpow, hlast⟩
    exact hroom (by rw [show ws.length - 1 = i + 1 by omega]; exact ⟨h4, hpow⟩)

theorem copyEntries_xmalloc (fresh : Fresh) {source : List UInt64} {c : Nat} (hc : 2 ≤ c)
    (hfit : c - 2 < source.length) :
    ∃ block, copyEntries (xmalloc fresh c ((c - 1) * 2)) source (c - 2) = some block ∧
      block.length = (c - 1) * 2 ∧ block[c - 2]? = some (fresh c (c - 2)) ∧ ∀ i < c - 2, block[i]? = source[i]? := by
  refine ⟨_, if_pos ⟨hfit.le, by rw [xmalloc_length]; omega⟩, ?_, ?_, ?_⟩
  · rw [length_append, length_take, length_drop, xmalloc_length]
    omega
  · have htake : (source.take (c - 2)).length = c - 2 := by
      rw [length_take]
      omega
    rw [getElem?_append_right htake.le, htake, Nat.sub_self, getElem?_drop, xmalloc,
      getElem?_map, getElem?_range (by omega)]
    rfl
  · intro i hi
    rw [getElem?_append_left (by rw [length_take]; omega), getElem?_take_of_lt hi]

theorem growTable_of_full (h : After fresh ws vc) (hlen : 2 ≤ ws.length) (hcount : ws.length < 2 ^ 31)
    (hfull : integralFrags ≤ ws.length - 1 ∧ powerOf2 (ws.length - 1) = true) :
    ∃ vc', growTable fresh vc = some vc' ∧ Grown fresh ws vc vc' := by
  have hptr : vc.frag ≠ .null := fun hn => by have := h.null.1 hn; omega
  have hfit : ws.length - 2 < vc.entries.length := by
    obtain ⟨hi, -⟩ := List.getElem?_eq_some_iff.1 (h.entries (ws.length - 2) (by omega))
    exact hi
  obtain ⟨block, hcopy, hblock, hlost, hkept⟩ := copyEntries_xmalloc fresh hlen hfit
  obtain ⟨j, hj⟩ := (powerOf2_iff (by omega) (by omega)).1 hfull.2
  refine ⟨{ vc with frag := .heap block }, by
    rw [growTable_eq hptr, h.fragment, if_pos hfull, hcopy, map_some, ← h.fragment],
    rfl, rfl, rfl, FragPtr.noConfusion, ⟨j + 1, ?_, ?_, by omega⟩, ?_⟩
  · by_contra hj1
    have hsmall := Nat.pow_le_pow_right (show 0 < 2 by decide) (show j ≤ 1 by omega)
    have h4 := hfull.1
    simp only [integralFrags] at h4
    omega
  · change block.length = _
    omega
  · intro i hi
    change block[i]? = _
    by_cases hlast : i + 2 = ws.length
    · have hi1 : i + 1 = ws.length - 1 := by omega
      rw [if_pos ⟨hi1 ▸ hfull.1, hi1 ▸ hfull.2, hlast⟩, show i = ws.length - 2 by omega, hlost,
        show ws.length - 2 + 2 = ws.length by omega]
    · rw [if_neg fun h => hlast h.2.2, hkept i (by omega), h.entries i hi]

theorem growTable_spec (h : After fresh ws vc) (hlen : 1 ≤ ws.length) (hcount : ws.length < 2 ^ 31) :
    ∃ vc', growTable fresh vc = some vc' ∧ Grown fresh ws vc vc' := by
  by_cases hone : ws.length = 1
  · exact growTable_of_null h hone
  · by_cases hfull : integralFrags ≤ ws.length - 1 ∧ powerOf2 (ws.length - 1) = true
    · exact growTable_of_full h (by omega) hcount hfull
    · exact growTable_of_room h (by omega) hcount hfull

theorem entryOf_append (fresh : Fresh) (ws : List UInt32) (w : UInt32) (hi : i + 1 < ws.length) :
    entryOf fresh (ws ++ [w]) i = if integralFrags ≤ i + 1 ∧ powerOf2 (i + 1) = true ∧ i + 2 = ws.length then
        fresh (i + 2) i else entryOf fresh ws i := by
  have hlost : Lost (ws ++ [w]).length i ↔ (integralFrags ≤ i + 1 ∧ powerOf2 (i + 1) = true ∧ i + 2 = ws.length) ∨
        Lost ws.length i := by
    simp only [Lost, length_append, length_singleton]
    constructor
    · rintro ⟨h4, hpow, hlt⟩
      rcases lt_or_ge (i + 2) ws.length with h | h
      · exact .inr ⟨h4, hpow, h⟩
      · exact .inl ⟨h4, hpow, by omega⟩
    · rintro (⟨h4, hpow, heq⟩ | ⟨h4, hpow, hlt⟩)
      · exact ⟨h4, hpow, by omega⟩
      · exact ⟨h4, hpow, by omega⟩
  rw [entryOf, entryOf, startOf_append (by omega)]
  split
  · next h =>
    rcases hlost.1 h with h | h
    · rw [if_pos h]
    · simp only [if_pos h, ite_self]
  · next h => rw [if_neg fun h' => h (hlost.2 (.inl h')), if_neg fun h' => h (hlost.2 (.inr h'))]

theorem startOf_add (ws : List UInt32) (w : UInt32) : UInt64.ofNat (startOf ws ws.length) + w.toUInt64 =
      UInt64.ofNat (startOf (ws ++ [w]) (ws ++ [w]).length) := by
  rw [length_append, length_singleton, startOf_length, UInt64.ofNat_add]
  congr 1
  apply UInt64.toNat_inj.1
  have := w.toNat_lt
  rw [UInt32.toNat_toUInt64, UInt64.toNat_ofNat', Nat.mod_eq_of_lt (by omega)]

/-- The table once it has the entry of the fragment that follows the writes `ws`. -/
structure Stored (fresh : Fresh) (ws : List UInt32) (vs : WriteVC) : Prop where
  fragment : vs.fragment = ws.length
  writePos : vs.writePos = UInt64.ofNat (startOf ws ws.length)
  integral : vs.integral.length = integralFrags
  null : vs.frag = .null ↔ ws.length = 0
  capacity : 1 ≤ ws.length → ∃ k, 2 ≤ k ∧ vs.entries.length = 2 ^ k ∧ ws.length ≤ 2 ^ k
  entries : ∀ w, ∀ i < ws.length, vs.entries[i]? = some (entryOf fresh (ws ++ [w]) i)

theorem storeStart_spec (h : After fresh ws vc) (hcount : ws.length < 2 ^ 31) :
    ∃ vs, storeStart fresh vc = some vs ∧ Stored fresh ws vs := by
  by_cases h0 : ws.length = 0
  · refine ⟨vc, if_pos (h.fragment.trans h0), h.fragment, h.writePos, h.integral, ?_, ?_, ?_⟩
    · exact iff_of_true (h.null.2 (by omega)) h0
    · omega
    · omega
  obtain ⟨vg, hgrow, hg⟩ := growTable_spec h (by omega) hcount
  obtain ⟨k, hk, hcap, hle⟩ := hg.capacity
  have hfrag : vg.fragment = ws.length := hg.fragment.trans h.fragment
  have hpos : vg.writePos = UInt64.ofNat (startOf ws ws.length) := hg.writePos.trans h.writePos
  obtain ⟨vs, hstore, hent, hsf, hsp, hsi, hsn⟩ :=
    storeOffset_of_lt vg.writePos (show vg.fragment - 1 < vg.entries.length by omega)
  refine ⟨vs, ?_, hsf.trans hfrag, hsp.trans hpos, ?_, ?_, ?_, ?_⟩
  · rw [storeStart, if_neg (by rw [h.fragment]; exact h0), hgrow, bind_some, hstore]
  · rw [hsi, hg.integral, h.integral]
  · exact iff_of_false (fun hn => hg.frag (hsn.1 hn)) h0
  · exact fun _ => ⟨k, hk, by rw [hent, length_set, hcap], hle⟩
  · intro w i hi
    rw [hent, hfrag, getElem?_set]
    by_cases hlast : ws.length - 1 = i
    · have hnew : ¬ Lost (ws ++ [w]).length i := fun hl => by
        have := hl.2.2
        simp only [length_append, length_singleton] at this
        omega
      rw [if_pos hlast, if_pos (by omega), entryOf, if_neg hnew, startOf_append (by omega),
        show i + 1 = ws.length by omega, hpos]
    · rw [if_neg hlast, hg.entries i (by omega), entryOf_append fresh ws w (by omega)]

/-- **One completion.** The next entry is stored in the table, and the counters move on. -/
theorem openWriteWriteDone_spec (h : After fresh ws vc) (w : UInt32) (hcount : ws.length + 1 < 2 ^ 31) :
    ∃ vc', openWriteWriteDone fresh vc w = some vc' ∧ After fresh (ws ++ [w]) vc' := by
  obtain ⟨vs, hstore, hs⟩ := storeStart_spec h (by omega)
  have hlen : (ws ++ [w]).length = ws.length + 1 := by simp
  refine ⟨{ vs with fragment := vs.fragment + 1, writePos := vs.writePos + w.toUInt64 }, ?_, ?_⟩
  · rw [openWriteWriteDone, hstore, bind_some, if_pos (by rw [hs.fragment]; exact hcount)]
  · constructor
    · rw [hlen, ← hs.fragment]
    · rw [← startOf_add, ← hs.writePos]
    · exact hs.integral
    · rw [hlen]
      exact hs.null.trans (by omega)
    · rw [hlen]
      intro h2
      obtain ⟨k, hk, hcap, hle⟩ := hs.capacity (by omega)
      exact ⟨k, hk, hcap, by omega⟩
    · rw [hlen]
      exact fun i hi => hs.entries w i (by omega)

theorem completions_append (fresh : Fresh) (ws : List UInt32) (w : UInt32) : completions fresh (ws ++ [w]) =
      (completions fresh ws).bind fun vc => openWriteWriteDone fresh vc w := by
  simp [completions, foldlM_append, foldlM_cons, foldlM_nil]

theorem completions_after (fresh : Fresh) (ws : List UInt32) :
    ws.length < 2 ^ 31 → ∃ vc, completions fresh ws = some vc ∧ After fresh ws vc := by
  induction ws using List.reverseRecOn with
  | nil => exact fun _ => ⟨_, rfl, newWrite_after fresh⟩
  | append_singleton ws w ih =>
    intro hlen
    rw [length_append, length_singleton] at hlen
    obtain ⟨vc, hrun, h⟩ := ih (by omega)
    obtain ⟨vc', hstep, h'⟩ := openWriteWriteDone_spec h w hlen
    exact ⟨vc', by rw [completions_append, hrun, bind_some, hstep], h'⟩

theorem completions_overflow (fresh : Fresh) (ws : List UInt32) :
    2 ^ 31 ≤ ws.length → completions fresh ws = none := by
  induction ws using List.reverseRecOn with
  | nil => exact fun h => absurd h (by decide)
  | append_singleton ws w ih =>
    intro hlen
    rw [length_append, length_singleton] at hlen
    rw [completions_append]
    rcases lt_or_ge ws.length (2 ^ 31) with hlt | hge
    · obtain ⟨vc, hrun, h⟩ := completions_after fresh ws hlt
      obtain ⟨vs, hstore, hs⟩ := storeStart_spec h hlt
      rw [hrun, bind_some, openWriteWriteDone, hstore, bind_some, if_neg (by rw [hs.fragment]; omega)]
    · rw [ih hge, bind_none]

/-! ### When the table is exact -/

theorem lost_iff {c i : Nat} (hc : c < 2 ^ 31) : Lost c i ↔ ∃ k, 2 ≤ k ∧ i + 1 = 2 ^ k ∧ 2 ^ k + 1 < c := by
  constructor
  · rintro ⟨h4, hpow, hlt⟩
    obtain ⟨k, hk⟩ := (powerOf2_iff (by omega) (by omega)).1 hpow
    refine ⟨k, ?_, hk, by omega⟩
    by_contra hk1
    have hsmall := Nat.pow_le_pow_right (show 0 < 2 by decide) (show k ≤ 1 by omega)
    simp only [integralFrags] at h4
    omega
  · rintro ⟨k, hk, hi, hlt⟩
    have hfour : 2 ^ 2 ≤ 2 ^ k := Nat.pow_le_pow_right (by decide) hk
    exact ⟨by rw [hi]; exact hfour, (powerOf2_iff (by omega) (by omega)).2 ⟨k, hi⟩, by omega⟩

/-- **The table of a write.** No access leaves its block as long as an `int` can count the
fragments, and after the writes the table is exact if and only if each entry that a copy into a new
block left out happens to be in the new memory already. -/
theorem tableExact_iff (fresh : Fresh) (ws : List UInt32) : TableExact fresh ws ↔ ws.length < 2 ^ 31 ∧
      ∀ k, 2 ≤ k → 2 ^ k + 1 < ws.length → (fresh (2 ^ k + 1) (2 ^ k - 1)).toNat = startOf ws (2 ^ k) := by
  constructor
  · rintro ⟨vc, hrun, hexact⟩
    have hcount : ws.length < 2 ^ 31 := by
      by_contra hlen
      rw [completions_overflow fresh ws (by omega)] at hrun
      cases hrun
    refine ⟨hcount, fun k hk hlt => ?_⟩
    obtain ⟨vc', hrun', h⟩ := completions_after fresh ws hcount
    cases hrun.symm.trans hrun'
    have hpos : 0 < 2 ^ k := Nat.two_pow_pos k
    have hi : 2 ^ k - 1 + 1 = 2 ^ k := by omega
    obtain ⟨v, hv, hval⟩ := hexact (2 ^ k - 1) (by omega)
    rw [h.entries _ (by omega), entryOf, if_pos ((lost_iff hcount).2 ⟨k, hk, hi, hlt⟩),
      show 2 ^ k - 1 + 2 = 2 ^ k + 1 by omega] at hv
    rw [some.inj hv, hval, hi]
  · rintro ⟨hcount, hfresh⟩
    obtain ⟨vc, hrun, h⟩ := completions_after fresh ws hcount
    refine ⟨vc, hrun, fun i hi => ⟨_, h.entries i hi, ?_⟩⟩
    rw [entryOf]
    split
    · next hl =>
      obtain ⟨k, hk, hik, hlt⟩ := (lost_iff hcount).1 hl
      rw [hik, ← hfresh k hk hlt, ← hik]
      rfl
    · exact toNat_startOf hcount _

/-- Six fragments of one byte in memory that was zero: the entry of the fifth fragment is 0. -/
theorem sixFragments_not_exact : ¬TableExact (fun _ _ => 0) [1, 1, 1, 1, 1, 1] := by
  rintro ⟨vc, hrun, hexact⟩
  have hvc : completions (fun _ _ => 0) [1, 1, 1, 1, 1, 1] = some
      { fragment := 6, writePos := 6, integral := [1, 2, 3, 4],
        frag := .heap [1, 2, 3, 0, 5, 0, 0, 0] } := by decide +kernel
  cases hrun.symm.trans hvc
  obtain ⟨v, hv, hval⟩ := hexact 3 (by decide)
  cases hv
  exact absurd hval (by decide)

end TrafficServer.Frag
