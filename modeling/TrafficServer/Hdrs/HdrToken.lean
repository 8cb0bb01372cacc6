import TrafficServer.Hdrs.ParseRules
import Mathlib.Data.List.Nodup
import Mathlib.Data.BitVec
import Mathlib.Data.FinEnum

/-!
# Well-known strings

The table of well-known strings, with the slot id, the presence mask and the cooking mask that
`hdrtoken_init` and `mime_init_cache_control_cooking_masks` give them, and the function that finds a
string in it. A string matches a well-known one if they differ in case only; the automaton and the
hash table in front of it are taken at this meaning.
-/

namespace TrafficServer

open Option List

def strBytes (s : String) : Bytes := s.toByteArray.data.toList

def inkTolower (c : UInt8) : UInt8 := if 65 ≤ c ∧ c ≤ 90 then c + 32 else c

def lower (s : Bytes) : Bytes := s.map inkTolower

theorem inkTolower_cases (c : UInt8) :
    (65 ≤ c ∧ c ≤ 90 ∧ inkTolower c = c + 32) ∨ (¬(65 ≤ c ∧ c ≤ 90) ∧ inkTolower c = c) := by
  by_cases h : 65 ≤ c ∧ c ≤ 90
  · exact .inl ⟨h.1, h.2, if_pos h⟩
  · exact .inr ⟨h, if_neg h⟩

@[simp] theorem inkTolower_inkTolower (c : UInt8) : inkTolower (inkTolower c) = inkTolower c := by
  obtain ⟨h1, h2, h⟩ | ⟨-, h⟩ := inkTolower_cases c
  · rw [h]
    exact if_neg (by grind)
  · rw [h, h]

@[simp] theorem lower_lower (s : Bytes) : lower (lower s) = lower s := by simp [lower]

variable {k : Nat}

namespace HdrToken

/-- A well-known string with its slot id and the bits of its masks. -/
structure Wks where
  str : String
  slotid : Option Nat
  mask : Option Nat
  ccMask : Option Nat

/-- The directives of `Cache-Control` are found up to their case, so that `public` is the field name
`Public`. -/
def hdrtokenStrs : List Wks := [
  ⟨"Accept", some 0, some 0, none⟩, ⟨"Accept-Charset", some 1, some 1, none⟩,
  ⟨"Accept-Encoding", some 2, some 2, none⟩, ⟨"Accept-Language", some 3, some 3, none⟩,
  ⟨"Accept-Ranges", none, some 4, none⟩, ⟨"Age", some 4, some 5, none⟩,
  ⟨"Allow", none, some 6, none⟩, ⟨"Approved", none, none, none⟩,
  ⟨"Authorization", some 5, some 7, none⟩, ⟨"Bytes", none, some 8, none⟩,
  ⟨"Cache-Control", some 6, some 9, none⟩, ⟨"Client-ip", some 7, some 10, none⟩,
  ⟨"Connection", some 8, some 11, none⟩, ⟨"Content-Base", none, none, none⟩,
  ⟨"Content-Encoding", some 9, some 12, none⟩, ⟨"Content-Language", some 10, some 13, none⟩,
  ⟨"Content-Length", some 11, some 14, none⟩, ⟨"Content-Location", none, some 15, none⟩,
  ⟨"Content-MD5", none, some 16, none⟩, ⟨"Content-Range", none, some 17, none⟩,
  ⟨"Content-Type", some 12, some 18, none⟩, ⟨"Control", none, none, none⟩,
  ⟨"Cookie", some 13, some 19, none⟩, ⟨"Date", some 14, some 20, none⟩,
  ⟨"Distribution", none, none, none⟩, ⟨"Etag", none, some 21, none⟩, ⟨"Expect", none, none, none⟩,
  ⟨"Expires", some 15, some 22, none⟩, ⟨"Followup-To", none, none, none⟩,
  ⟨"From", none, some 23, none⟩, ⟨"Host", none, some 24, none⟩,
  ⟨"If-Match", some 16, some 25, none⟩, ⟨"If-Modified-Since", some 17, some 26, none⟩,
  ⟨"If-None-Match", some 18, some 27, none⟩, ⟨"If-Range", some 19, some 28, none⟩,
  ⟨"If-Unmodified-Since", some 20, some 29, none⟩, ⟨"Keep-Alive", none, some 30, none⟩,
  ⟨"Keywords", none, some 31, none⟩, ⟨"Last-Modified", some 21, some 32, none⟩,
  ⟨"Lines", none, some 33, none⟩, ⟨"Location", none, some 34, none⟩,
  ⟨"Max-Forwards", none, some 35, none⟩, ⟨"Message-ID", none, none, none⟩,
  ⟨"MIME-Version", none, none, none⟩, ⟨"Newsgroups", none, none, none⟩,
  ⟨"Organization", none, none, none⟩, ⟨"Path", none, some 36, none⟩,
  ⟨"Pragma", some 22, some 37, none⟩, ⟨"Proxy-Authenticate", none, some 38, none⟩,
  ⟨"Proxy-Authorization", none, some 39, none⟩, ⟨"Proxy-Connection", some 23, some 40, none⟩,
  ⟨"Public", none, some 41, some 7⟩, ⟨"Range", some 24, some 42, none⟩,
  ⟨"References", none, none, none⟩, ⟨"Referer", none, some 43, none⟩,
  ⟨"Reply-To", none, none, none⟩, ⟨"Retry-After", none, none, none⟩, ⟨"Sender", none, none, none⟩,
  ⟨"Server", none, some 44, none⟩, ⟨"Set-Cookie", some 25, some 45, none⟩,
  ⟨"Subject", none, some 46, none⟩, ⟨"Summary", none, some 47, none⟩,
  ⟨"TE", some 26, some 48, none⟩, ⟨"Transfer-Encoding", some 27, some 49, none⟩,
  ⟨"Upgrade", none, some 50, none⟩, ⟨"User-Agent", some 28, some 51, none⟩,
  ⟨"Vary", some 29, some 52, none⟩, ⟨"Via", some 30, some 53, none⟩,
  ⟨"Warning", none, some 54, none⟩, ⟨"Www-Authenticate", some 31, some 55, none⟩,
  ⟨"Xref", none, some 61, none⟩, ⟨"@DataInfo", none, some 62, none⟩,
  ⟨"compress", none, none, none⟩, ⟨"deflate", none, none, none⟩, ⟨"gzip", none, none, none⟩,
  ⟨"identity", none, none, none⟩, ⟨"max-age", none, none, some 0⟩,
  ⟨"max-stale", none, none, some 4⟩, ⟨"min-fresh", none, none, some 5⟩,
  ⟨"must-revalidate", none, none, some 9⟩, ⟨"no-cache", none, none, some 1⟩,
  ⟨"no-store", none, none, some 2⟩, ⟨"no-transform", none, none, some 3⟩,
  ⟨"only-if-cached", none, none, some 6⟩, ⟨"private", none, none, some 8⟩,
  ⟨"proxy-revalidate", none, none, some 10⟩, ⟨"s-maxage", none, none, some 11⟩,
  ⟨"need-revalidate-once", none, none, some 12⟩, ⟨"none", none, none, none⟩,
  ⟨"chunked", none, none, none⟩, ⟨"close", none, none, none⟩, ⟨"*", none, none, none⟩,
  ⟨"file", none, none, none⟩, ⟨"ftp", none, none, none⟩, ⟨"gopher", none, none, none⟩,
  ⟨"http", none, none, none⟩, ⟨"https", none, none, none⟩, ⟨"mailto", none, none, none⟩,
  ⟨"news", none, none, none⟩, ⟨"nntp", none, none, none⟩, ⟨"prospero", none, none, none⟩,
  ⟨"telnet", none, none, none⟩, ⟨"tunnel", none, none, none⟩, ⟨"wais", none, none, none⟩,
  ⟨"pnm", none, none, none⟩, ⟨"rtsp", none, none, none⟩, ⟨"rtspu", none, none, none⟩,
  ⟨"mms", none, none, none⟩, ⟨"mmsu", none, none, none⟩, ⟨"mmst", none, none, none⟩,
  ⟨"CONNECT", none, none, none⟩, ⟨"DELETE", none, none, none⟩, ⟨"GET", none, none, none⟩,
  ⟨"HEAD", none, none, none⟩, ⟨"ICP_QUERY", none, none, none⟩, ⟨"OPTIONS", none, none, none⟩,
  ⟨"POST", none, none, none⟩, ⟨"PURGE", none, none, none⟩, ⟨"PUT", none, none, none⟩,
  ⟨"TRACE", none, none, none⟩, ⟨"PUSH", none, none, none⟩, ⟨"X-ID", none, none, none⟩,
  ⟨"X-Forwarded-For", none, none, none⟩]

def hdrtokenNumWks : Nat := hdrtokenStrs.length

def hdrtokenIndexToWks (i : Nat) : Bytes :=
  (hdrtokenStrs[i]?.map fun w => strBytes w.str).getD []

def hdrtokenTokenize (s : Bytes) : Option Nat :=
  hdrtokenStrs.findIdx? fun w => lower (strBytes w.str) = lower s

def hdrtokenIndexToSlotid (i : Nat) : Option Nat := hdrtokenStrs[i]?.bind (·.slotid)

def bitMask (n : Nat) : Option Nat → BitVec n
  | some b => 1#n <<< b
  | none => 0

def maskBit (i : Nat) : Option Nat := hdrtokenStrs[i]?.bind (·.mask)

def hdrtokenIndexToMask (i : Nat) : BitVec 64 := bitMask 64 (maskBit i)

def ccMask (i : Nat) : BitVec 32 := bitMask 32 (hdrtokenStrs[i]?.bind (·.ccMask))

/-! ### The table -/

def code (s : Bytes) : Nat := s.foldl (fun n c => n * 256 + c.toNat) 0

theorem strs_table : ((hdrtokenStrs.map fun w => lower (strBytes w.str)).map code).Nodup ∧
      (hdrtokenStrs.filterMap (·.slotid)).Nodup ∧ (hdrtokenStrs.filterMap (·.mask)).Nodup ∧
      ∀ w ∈ hdrtokenStrs, (∀ s ∈ w.slotid, s < 32 ∧ w.mask.isSome) ∧ (∀ b ∈ w.mask, b < 64) ∧
        0 ∉ strBytes w.str ∧ (strBytes w.str).length < 65536 := by
  decide +kernel

theorem lower_strs_nodup : (hdrtokenStrs.map fun w => lower (strBytes w.str)).Nodup := strs_table.1.of_map code

theorem slotids_nodup : (hdrtokenStrs.filterMap (·.slotid)).Nodup := strs_table.2.1

theorem masks_nodup : (hdrtokenStrs.filterMap (·.mask)).Nodup := strs_table.2.2.1

theorem slotids_lt : ∀ w ∈ hdrtokenStrs, ∀ s ∈ w.slotid, s < 32 ∧ w.mask.isSome :=
  fun w hw => (strs_table.2.2.2 w hw).1

theorem masks_lt : ∀ w ∈ hdrtokenStrs, ∀ b ∈ w.mask, b < 64 := fun w hw => (strs_table.2.2.2 w hw).2.1

theorem strs_plain : ∀ w ∈ hdrtokenStrs, 0 ∉ strBytes w.str ∧ (strBytes w.str).length < 65536 :=
  fun w hw => (strs_table.2.2.2 w hw).2.2

section Table
variable {i j : Nat} {s : Bytes}

theorem hdrtokenIndexToWks_eq (h : i < hdrtokenNumWks) :
    hdrtokenIndexToWks i = strBytes (hdrtokenStrs.get ⟨i, h⟩).str := by
  rw [hdrtokenIndexToWks, getElem?_eq_getElem h]
  rfl

theorem lower_wks_inj (hi : i < hdrtokenNumWks) (hj : j < hdrtokenNumWks)
    (h : lower (hdrtokenIndexToWks i) = lower (hdrtokenIndexToWks j)) : i = j := by
  rw [hdrtokenIndexToWks_eq hi, hdrtokenIndexToWks_eq hj] at h
  have hn := pairwise_iff_getElem.mp (pairwise_map.mp lower_strs_nodup)
  by_contra hne
  rcases lt_or_gt_of_ne hne with hlt | hlt
  · exact hn i j hi hj hlt h
  · exact hn j i hj hi hlt h.symm

theorem hdrtokenTokenize_eq_some :
    hdrtokenTokenize s = some i ↔ i < hdrtokenNumWks ∧ lower (hdrtokenIndexToWks i) = lower s := by
  rw [hdrtokenTokenize, findIdx?_eq_some_iff_getElem]
  constructor
  · rintro ⟨hi, heq, -⟩
    refine ⟨hi, ?_⟩
    rw [hdrtokenIndexToWks_eq hi]
    exact of_decide_eq_true heq
  · rintro ⟨hi, heq⟩
    rw [hdrtokenIndexToWks_eq hi] at heq
    refine ⟨hi, decide_eq_true heq, fun j hj => ?_⟩
    simp only [decide_eq_true_eq]
    intro hjs
    have hjn : j < hdrtokenNumWks := lt_trans hj hi
    refine absurd (lower_wks_inj hjn hi ?_) hj.ne
    rw [hdrtokenIndexToWks_eq hjn, hdrtokenIndexToWks_eq hi]
    exact hjs.trans heq.symm

theorem hdrtokenTokenize_wks (hi : i < hdrtokenNumWks) : hdrtokenTokenize (hdrtokenIndexToWks i) = some i :=
  hdrtokenTokenize_eq_some.mpr ⟨hi, rfl⟩

theorem hdrtokenTokenize_congr {t : Bytes} (h : lower s = lower t) :
    hdrtokenTokenize s = hdrtokenTokenize t := by
  rw [hdrtokenTokenize, hdrtokenTokenize, h]

theorem column_inj {β : Type} {f : Wks → Option β} (h : (hdrtokenStrs.filterMap f).Nodup) {b : β}
    (hi : hdrtokenStrs[i]?.bind f = some b) (hj : hdrtokenStrs[j]?.bind f = some b) : i = j := by
  have hn := pairwise_iff_getElem.mp (pairwise_filterMap.mp h)
  obtain ⟨w, hw, hb⟩ := bind_eq_some_iff.mp hi
  obtain ⟨w', hw', hb'⟩ := bind_eq_some_iff.mp hj
  obtain ⟨hil, rfl⟩ := List.getElem?_eq_some_iff.mp hw
  obtain ⟨hjl, rfl⟩ := List.getElem?_eq_some_iff.mp hw'
  by_contra hne
  rcases lt_or_gt_of_ne hne with hlt | hlt
  · exact hn i j hil hjl hlt b hb b hb' rfl
  · exact hn j i hjl hil hlt b hb' b hb rfl

theorem slotid_inj (hi : hdrtokenIndexToSlotid i = some k) (hj : hdrtokenIndexToSlotid j = some k) : i = j :=
  column_inj slotids_nodup hi hj

theorem maskBit_inj (hi : maskBit i = some k) (hj : maskBit j = some k) : i = j := column_inj masks_nodup hi hj

theorem maskBit_lt (hi : maskBit i = some k) : k < 64 := by
  obtain ⟨w, hw, hb⟩ := bind_eq_some_iff.mp hi
  exact masks_lt w (mem_of_getElem? hw) k hb

theorem slotid_lt (hi : hdrtokenIndexToSlotid i = some k) : k < 32 := by
  obtain ⟨w, hw, hb⟩ := bind_eq_some_iff.mp hi
  exact (slotids_lt w (mem_of_getElem? hw) k hb).1

theorem maskBit_of_slotid (hi : hdrtokenIndexToSlotid i = some k) : ∃ b, maskBit i = some b := by
  obtain ⟨w, hw, hb⟩ := bind_eq_some_iff.mp hi
  obtain ⟨b, hm⟩ := isSome_iff_exists.mp (slotids_lt w (mem_of_getElem? hw) k hb).2
  exact ⟨b, bind_eq_some_iff.mpr ⟨w, hw, hm⟩⟩

theorem hdrtokenIndexToWks_plain (hi : i < hdrtokenNumWks) :
    0 ∉ hdrtokenIndexToWks i ∧ (hdrtokenIndexToWks i).length < 65536 := by
  rw [hdrtokenIndexToWks_eq hi]
  exact strs_plain _ (get_mem _ _)

theorem getLsbD_bitMask {n b : Nat} (h : b < n) (k : Nat) : (bitMask n (some b)).getLsbD k = decide (k = b) := by
  rw [bitMask, BitVec.getLsbD_shiftLeft]
  simp only [BitVec.getLsbD_one]
  grind

end Table

end HdrToken

end TrafficServer
