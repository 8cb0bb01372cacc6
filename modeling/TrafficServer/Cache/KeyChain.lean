import Mathlib.Data.Fintype.EquivFin
import Mathlib.Data.Nat.Digits.Defs
import TrafficServer.Cache.Read

/-!
# The keys of the fragments, forwards and backwards

`prev_CacheKey` undoes `next_CacheKey` byte by byte: the byte that the one has added is the byte that
the other takes away. There are finitely many keys, so each of the two undoes the other. In place, the
first loop runs upwards and reads the byte that it has stored last, the second runs downwards and reads
only bytes that it has not stored yet.
-/

namespace TrafficServer

open List Function

def cacheKeyPrevTable : List Nat :=
  [57, 55, 119, 141, 158, 152, 218, 165, 18, 178, 89, 172, 16, 68, 34, 146, 153, 233, 114, 48, 229, 0, 187,
    154, 19, 180, 148, 230, 240, 140, 78, 143, 123, 130, 219, 128, 101, 102, 215, 26, 243, 127, 239, 94,
    223, 118, 22, 39, 194, 168, 157, 3, 173, 1, 248, 67, 28, 46, 156, 175, 162, 38, 33, 81, 179, 47, 9, 159,
    27, 126, 200, 56, 234, 111, 73, 251, 206, 197, 99, 24, 14, 71, 245, 44, 109, 252, 80, 79, 62, 129, 37,
    150, 192, 77, 224, 17, 236, 246, 131, 254, 195, 32, 83, 198, 23, 226, 85, 88, 35, 186, 42, 176, 188,
    228, 134, 8, 51, 244, 86, 93, 36, 250, 110, 137, 231, 45, 5, 225, 221, 181, 49, 214, 40, 199, 160, 82,
    91, 125, 166, 169, 103, 97, 30, 124, 29, 117, 222, 76, 50, 237, 253, 7, 112, 227, 171, 10, 151, 113,
    210, 232, 92, 95, 20, 87, 145, 161, 43, 2, 60, 193, 54, 120, 25, 122, 11, 100, 204, 61, 142, 132, 138,
    191, 211, 66, 59, 106, 207, 216, 15, 53, 184, 170, 144, 196, 139, 74, 107, 105, 255, 41, 208, 21, 242,
    98, 205, 75, 96, 202, 209, 247, 189, 72, 69, 238, 133, 13, 167, 31, 235, 116, 201, 190, 213, 203, 104,
    115, 12, 212, 52, 63, 149, 135, 183, 84, 147, 163, 249, 65, 217, 174, 70, 6, 64, 90, 155, 177, 185, 182,
    108, 121, 164, 136, 58, 220, 241, 4]

/-- The loop of `prev_CacheKey`, which takes away from each byte the one before it. -/
def prevBytes : Nat → List Nat → List Nat
  | _, [] => []
  | prev, k :: ks => (256 + cacheKeyPrevTable.getD k 0 - prev) % 256 :: prevBytes k ks

def prevCacheKey (k : CacheKey) : CacheKey := .ofBytes (prevBytes 0 k.bytes)

def nextBytesInPlace (b : List Nat) : List Nat :=
  (List.range 15).foldl (fun b i => b.set (i + 1) (cacheKeyNextTable.getD ((b.getD i 0 + b.getD (i + 1) 0) % 256) 0))
    (b.set 0 (cacheKeyNextTable.getD (b.getD 0 0) 0))

/-- The steps of `prev_CacheKey(&key, &key)`, from the last byte to the first. -/
def prevBytesInPlace (b : List Nat) : List Nat :=
  let b := (List.range 15).foldr (fun i b =>
    b.set (i + 1) ((256 + cacheKeyPrevTable.getD (b.getD (i + 1) 0) 0 - b.getD i 0) % 256)) b
  b.set 0 (cacheKeyPrevTable.getD (b.getD 0 0) 0)

theorem tables_inverse : ∀ n < 256, cacheKeyNextTable.getD n 0 < 256 ∧ cacheKeyPrevTable.getD n 0 < 256 ∧
    cacheKeyPrevTable.getD (cacheKeyNextTable.getD n 0) 0 = n := by
  decide +kernel

/-! ### Bytes -/

variable {ks : List Nat} {prev : Nat}

theorem prevBytes_nextBytes (hprev : prev < 256) (hks : ∀ k ∈ ks, k < 256) :
    prevBytes prev (nextBytes prev ks) = ks := by
  induction ks generalizing prev with
  | nil => rfl
  | cons k ks ih =>
    obtain ⟨hk, hks⟩ := forall_mem_cons.mp hks
    obtain ⟨hlt, -, hinv⟩ := tables_inverse _ (Nat.mod_lt (prev + k) (by decide))
    rw [nextBytes, prevBytes, ih hlt hks, hinv]
    congr 1
    omega

theorem nextBytes_bytes : (nextBytes prev ks).length = ks.length ∧ ∀ b ∈ nextBytes prev ks, b < 256 := by
  induction ks generalizing prev with
  | nil => exact ⟨rfl, forall_mem_nil _⟩
  | cons k ks ih =>
    refine ⟨congrArg Nat.succ ih.1, forall_mem_cons.mpr ⟨?_, ih.2⟩⟩
    exact (tables_inverse _ (Nat.mod_lt _ (by decide))).1

/-! ### Keys -/

namespace CacheKey

theorem bytes_ofNat {bs : List Nat} (hlen : bs.length = 8) (h : ∀ b ∈ bs, b < 256) :
    (List.range 8).map (fun i => (BitVec.ofNat 64 (bs.foldr (fun b n => b + 256 * n) 0) >>> (8 * i)).toNat % 256) =
      bs := by
  have hfold : bs.foldr (fun b n => b + 256 * n) 0 = Nat.ofDigits 256 bs := (Nat.ofDigits_eq_foldr ..).symm
  have hlt : Nat.ofDigits 256 bs < 2 ^ 64 := by
    have := Nat.ofDigits_lt_base_pow_length (b := 256) (by decide) h
    rwa [hlen] at this
  refine ext_getElem (by simp [hlen]) fun i hi hi' => ?_
  have hdrop := Nat.ofDigits_div_pow_eq_ofDigits_drop i (show 0 < 256 by decide) bs h
  rw [getElem_map, getElem_range, BitVec.toNat_ushiftRight, BitVec.toNat_ofNat, hfold, Nat.mod_eq_of_lt hlt,
    Nat.shiftRight_eq_div_pow, pow_mul, show 2 ^ 8 = 256 from rfl, hdrop, drop_eq_getElem_cons hi', Nat.ofDigits_cons,
    Nat.add_mul_mod_self_left]
  exact Nat.mod_eq_of_lt (h _ (getElem_mem hi'))

theorem ofNat_bytes (w : BitVec 64) : BitVec.ofNat 64 (((List.range 8).map fun i => (w >>> (8 * i)).toNat % 256).foldr
    (fun b n => b + 256 * n) 0) = w := by
  apply BitVec.eq_of_toNat_eq
  simp [List.range, List.range.loop, Nat.shiftRight_eq_div_pow]
  omega

variable {bs : List Nat}

theorem bytes_ofBytes (hlen : bs.length = 16) (h : ∀ b ∈ bs, b < 256) : (ofBytes bs).bytes = bs := by
  rw [bytes, ofBytes, bytes_ofNat (by simp [hlen]) fun b hb => h b (mem_of_mem_take hb),
    bytes_ofNat (by simp [hlen]) fun b hb => h b (mem_of_mem_drop hb), take_append_drop]

theorem ofBytes_bytes (k : CacheKey) : ofBytes k.bytes = k := by
  obtain ⟨b0, b1⟩ := k
  exact congrArg₂ CacheKey.mk (ofNat_bytes b0) (ofNat_bytes b1)

theorem bytes_lt (k : CacheKey) : ∀ b ∈ k.bytes, b < 256 := by
  intro b hb
  rw [bytes, mem_append, mem_map, mem_map] at hb
  obtain ⟨i, -, rfl⟩ | ⟨i, -, rfl⟩ := hb <;> exact Nat.mod_lt _ (by decide)

theorem prev_next : LeftInverse prevCacheKey nextCacheKey := by
  intro k
  rw [prevCacheKey, nextCacheKey, bytes_ofBytes (nextBytes_bytes.1.trans rfl) nextBytes_bytes.2,
    prevBytes_nextBytes (by decide) k.bytes_lt, ofBytes_bytes]

instance : Finite CacheKey := by
  refine Finite.of_injective (fun k : CacheKey => (k.b0.toFin, k.b1.toFin)) fun ⟨_, _⟩ ⟨_, _⟩ h => ?_
  obtain ⟨h0, h1⟩ := Prod.mk.inj h
  exact congrArg₂ CacheKey.mk (BitVec.toFin_inj.mp h0) (BitVec.toFin_inj.mp h1)

theorem next_prev : LeftInverse nextCacheKey prevCacheKey :=
  prev_next.rightInverse_of_surjective (Finite.surjective_of_injective prev_next.injective)

theorem inPlace_eq {a0 a1 a2 a3 a4 a5 a6 a7 a8 a9 a10 a11 a12 a13 a14 a15 : Nat} (h : a0 < 256)
    (hbs : bs = [a0, a1, a2, a3, a4, a5, a6, a7, a8, a9, a10, a11, a12, a13, a14, a15]) :
    nextBytesInPlace bs = nextBytes 0 bs ∧ prevBytesInPlace bs = prevBytes 0 bs := by
  have h0 : cacheKeyPrevTable.getD a0 0 = (256 + cacheKeyPrevTable.getD a0 0 - 0) % 256 := by
    have := (tables_inverse a0 h).2.1
    omega
  subst hbs
  constructor
  · simp only [nextBytesInPlace, nextBytes, List.range, List.range.loop, foldl_cons, foldl_nil, set_cons_succ,
      set_cons_zero, getD_cons_succ, getD_cons_zero, Nat.zero_add, Nat.mod_eq_of_lt h]
  · simp only [prevBytesInPlace, prevBytes, List.range, List.range.loop, foldr_cons, foldr_nil, set_cons_succ,
      set_cons_zero, getD_cons_succ, getD_cons_zero, ← h0]

/-- **The keys of the fragments can be walked forwards and backwards.** -/
theorem next_prev_CacheKey : (∀ n, LeftInverse prevCacheKey^[n] nextCacheKey^[n]) ∧
    (∀ n, LeftInverse nextCacheKey^[n] prevCacheKey^[n]) ∧
    ∀ k : CacheKey, ofBytes (nextBytesInPlace k.bytes) = nextCacheKey k ∧
      ofBytes (prevBytesInPlace k.bytes) = prevCacheKey k := by
  refine ⟨LeftInverse.iterate prev_next, LeftInverse.iterate next_prev, fun k => ?_⟩
  obtain ⟨hnext, hprev⟩ : nextBytesInPlace k.bytes = _ ∧ prevBytesInPlace k.bytes = _ :=
    inPlace_eq (Nat.mod_lt _ (by decide)) rfl
  exact ⟨congrArg ofBytes hnext, congrArg ofBytes hprev⟩

end CacheKey

end TrafficServer
