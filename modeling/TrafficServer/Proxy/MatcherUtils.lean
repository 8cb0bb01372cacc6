import TrafficServer.Hdrs.MIMECooked

/-!
# Values of configuration lines

The tokenizer, the conversions of numbers, durations and address ranges, and the parsed form of a line
of a configuration file. Strings are lists of bytes without a NUL. What the C library does to a string
of an address is a parameter (`inetAddr`, in host order, with all bits set for an error). An address is kept
in an `ip_addr_t`, an `unsigned long` of 64 bits. A value without a token makes the source hand a null
pointer to the library, which does not return; that outcome is `nullToken`.
-/

namespace TrafficServer

open List CInt MIMECooked

def caseEq (s : Bytes) (t : String) : Bool := lower s = lower (strBytes t)

namespace MatcherUtils

def isSpace (c : UInt8) : Bool := c == 32 || (9 ≤ c && c ≤ 13)

/-- The tokens of `Tokenizer::Initialize`, without empty ones; `word` is the current one. -/
def tokens (delimit : Bytes) : Bytes → Bytes → List Bytes
  | word, [] => if word = [] then [] else [word]
  | word, c :: r =>
    if delimit.contains c then
      if word = [] then tokens delimit [] r else word :: tokens delimit [] r
    else tokens delimit (word ++ [c]) r

def tokenize (delimit : String) (s : Bytes) : List Bytes := tokens (strBytes delimit) [] s

def digitsVal (s : Bytes) : Int := s.foldl (fun (v : Int) d => v * 10 + (d.toNat - 48 : Nat)) 0

/-- No token: the source reads through a null pointer. -/
def nullToken : String := "null pointer"

/-- A `%d` of `sscanf`, and what is left: the number is read as a `long` and stored as an `int`. -/
def scanInt (s : Bytes) : Option (Int × Bytes) :=
  let s := s.dropWhile isSpace
  let neg := s.head? = some 45
  let s := if neg ∨ s.head? = some 43 then s.tail else s
  let digits := s.takeWhile isDigit
  if digits = [] then none
  else
    let val := if neg then -digitsVal digits else digitsVal digits
    some (toInt32 (max (-2 ^ 63) (min val (2 ^ 63 - 1))), s.dropWhile isDigit)

/-- The number of `sscanf (s, "%d", &x)`, if it is read. -/
def sscanfInt (s : Bytes) : Option Int := (scanInt s).map (·.1)

/-! ### Durations -/

def unitSeconds (c : UInt8) : Option Int :=
  if c = 119 then some (7 * 24 * 60 * 60)
  else if c = 100 then some (24 * 60 * 60)
  else if c = 104 then some (60 * 60)
  else if c = 109 then some 60
  else if c = 115 then some 1
  else none

def digitsInt (num : Bytes) : Int := (sscanfInt num).getD 0

/-- The loop of `processDurationString`; `num` is what is between `s` and `current`, and `readInt` what
`sscanf` makes of it. -/
def durationLoop (readInt : Bytes → Int) : Bytes → Int → Bytes → Except String Int
  | num, result, [] =>
    let result := if num = [] then result else toInt32 (result + readInt num)
    if result < 0 then .error "Time too big" else .ok result
  | num, result, c :: r =>
    if isDigit c then durationLoop readInt (num ++ [c]) result r
    else if num = [] then .error "Malformed time"
    else
      match unitSeconds c with
      | some m => durationLoop readInt [] (toInt32 (result + toInt32 (m * readInt num))) r
      | none => .error (if c = 45 then "Negative time not permitted" else "Invalid time unit specified")

def processDurationString (s : Bytes) : Except String Int := durationLoop digitsInt [] 0 s

/-- The error, and `*seconds` after the call, where `sscanf` reads a number modulo `2 ^ 32`. -/
def setDuration (s : Bytes) (seconds : Int) : Option String × Int :=
  match durationLoop (fun num => toInt32 (digitsVal num)) [] 0 s with
  | .ok result => (none, result)
  | .error e => (some e, seconds)

/-- The texts of durations: numbers with a unit each, and perhaps a last one without; with the seconds. -/
inductive Duration : Bytes → Int → Prop where
  | nil : Duration [] 0
  | bare {num : Bytes} (hne : num ≠ []) (hnum : ∀ c ∈ num, isDigit c) : Duration num (digitsVal num)
  | unit {num r : Bytes} {c : UInt8} {m t : Int} (hne : num ≠ []) (hnum : ∀ c ∈ num, isDigit c)
      (hm : unitSeconds c = some m) (hr : Duration r t) : Duration (num ++ c :: r) (m * digitsVal num + t)

def Rejected (s : Bytes) (seconds : Int) : Prop := ∃ e, setDuration s seconds = (some e, seconds)

/-- A duration that an `int` holds is stored, and every other text is rejected. -/
def DurationExact (s : Bytes) (seconds : Int) : Prop :=
  (∀ t, Duration s t → if t < 2 ^ 31 then setDuration s seconds = (none, t) else Rejected s seconds) ∧
    ((¬∃ t, Duration s t) → Rejected s seconds)

section Duration
variable {s num : Bytes} {t result v : Int} {readInt : Bytes → Int}

theorem digitsVal_nonneg (num : Bytes) : 0 ≤ digitsVal num := by
  apply List.foldlRecOn num _ le_rfl
  intro v hv c _
  omega

theorem unitSeconds_nonneg {c : UInt8} {m : Int} (h : unitSeconds c = some m) : 0 ≤ m := by
  unfold unitSeconds at h
  grind

theorem Duration.nonneg (h : Duration s t) : 0 ≤ t := by
  induction h with
  | nil => exact le_rfl
  | bare _ _ => exact digitsVal_nonneg _
  | unit _ _ hm _ ih => exact Int.add_nonneg (Int.mul_nonneg (unitSeconds_nonneg hm) (digitsVal_nonneg _)) ih

theorem unitSeconds_of_isDigit {c : UInt8} (h : isDigit c) : unitSeconds c = none := by
  unfold isDigit at h
  unfold unitSeconds
  grind

theorem durationLoop_digits (hnum : ∀ c ∈ num, isDigit c) (acc r : Bytes)
    (readInt : Bytes → Int) (result : Int) :
    durationLoop readInt acc result (num ++ r) = durationLoop readInt (acc ++ num) result r := by
  induction num generalizing acc with
  | nil => rw [nil_append, append_nil]
  | cons c num ih =>
    rw [forall_mem_cons] at hnum
    rw [cons_append, durationLoop, if_pos hnum.1, ih hnum.2, append_assoc, singleton_append]

theorem durationLoop_of_duration (h : Duration s t) (hresult : toInt32 result = result) :
    durationLoop (fun num => toInt32 (digitsVal num)) [] result s =
      if toInt32 (result + t) < 0 then .error "Time too big" else .ok (toInt32 (result + t)) := by
  induction h generalizing result with
  | nil => rw [add_zero, hresult, durationLoop, if_pos rfl]
  | @bare num hne hnum =>
    have hrun := durationLoop_digits hnum [] [] (fun num => toInt32 (digitsVal num)) result
    rw [append_nil] at hrun
    rw [hrun, nil_append, durationLoop, if_neg hne, add_comm result, toInt32_toInt32_add, add_comm]
  | @unit num r c m t hne hnum hm _ ih =>
    have hc : ¬isDigit c := by
      intro hc
      rw [unitSeconds_of_isDigit hc] at hm
      contradiction
    have hsum : toInt32 (result + toInt32 (m * toInt32 (digitsVal num))) = toInt32 (result + m * digitsVal num) := by
      rw [add_comm, toInt32_toInt32_add, mul_comm, ← toInt32_toInt32_add, toInt32_toInt32_mul, toInt32_toInt32_add,
        add_comm, mul_comm]
    rw [durationLoop_digits hnum, nil_append, durationLoop, if_neg hc, if_neg hne, hm]
    apply (ih (toInt32_toInt32 _)).trans
    rw [hsum, toInt32_toInt32_add, add_assoc]

theorem exists_duration (hnum : ∀ c ∈ num, isDigit c) (h : durationLoop readInt num result s = .ok v) :
    ∃ t, Duration (num ++ s) t := by
  induction s generalizing num result with
  | nil =>
    by_cases hne : num = []
    · exact ⟨0, by rw [hne]; exact .nil⟩
    · exact ⟨_, by rw [append_nil]; exact .bare hne hnum⟩
  | cons c r ih =>
    rw [durationLoop] at h
    by_cases hc : isDigit c
    · rw [if_pos hc] at h
      have hnum' : ∀ d ∈ num ++ [c], isDigit d := by
        rw [forall_mem_append, forall_mem_singleton]
        exact ⟨hnum, hc⟩
      have ht := ih hnum' h
      rwa [append_assoc] at ht
    · rw [if_neg hc] at h
      by_cases hne : num = []
      · rw [if_pos hne] at h
        contradiction
      · rw [if_neg hne] at h
        cases hm : unitSeconds c with
        | none =>
          rw [hm] at h
          contradiction
        | some m =>
          rw [hm] at h
          obtain ⟨t, ht⟩ := ih (forall_mem_nil _) h
          exact ⟨_, .unit hne hnum hm ht⟩

/-- **Only the sign of the sum tells an overflow**: a duration that is too long is stored modulo `2 ^ 32` if the
remainder is not negative. -/
theorem durationExact_iff (s : Bytes) (seconds : Int) :
    DurationExact s seconds ↔ ∀ t, Duration s t → t < 2 ^ 31 ∨ toInt32 t < 0 := by
  have hrun : ∀ t, Duration s t → setDuration s seconds =
      if toInt32 t < 0 then (some "Time too big", seconds) else (none, toInt32 t) := by
    intro t ht
    have hloop := durationLoop_of_duration ht (show toInt32 0 = 0 by decide)
    rw [zero_add] at hloop
    unfold setDuration
    rw [hloop]
    by_cases h : toInt32 t < 0
    · rw [if_pos h, if_pos h]
    · rw [if_neg h, if_neg h]
  constructor
  · intro h t ht
    have hout := h.1 t ht
    by_contra hbad
    rw [not_or] at hbad
    rw [if_neg hbad.1] at hout
    obtain ⟨e, he⟩ := hout
    rw [hrun t ht, if_neg hbad.2] at he
    cases he
  · intro h
    refine ⟨?_, ?_⟩
    · intro t ht
      by_cases hlt : t < 2 ^ 31
      · have hnonneg := ht.nonneg
        rw [if_pos hlt, hrun t ht, toInt32_of_mem (by omega) hlt, if_neg (by omega)]
      · rw [if_neg hlt]
        exact ⟨_, by rw [hrun t ht, if_pos ((h t ht).resolve_left hlt)]⟩
    · intro hnone
      unfold Rejected setDuration
      cases hloop : durationLoop (fun num => toInt32 (digitsVal num)) [] 0 s with
      | error e => exact ⟨e, rfl⟩
      | ok v => exact absurd (exists_duration (forall_mem_nil _) hloop) hnone

theorem wrapped_duration : setDuration (strBytes "4294967297") 7 = (none, 1) ∧
    ¬DurationExact (strBytes "4294967297") 7 := by
  have hrun : setDuration (strBytes "4294967297") 7 = (none, 1) := by decide +kernel
  refine ⟨hrun, fun h => ?_⟩
  obtain ⟨e, he⟩ := h.1 _ (.bare (by decide +kernel) (by decide +kernel))
  cases he

end Duration

/-! ### Address ranges -/

section Address
variable (inetAddr : Bytes → BitVec 32)

/-- An address, unless it is `(ip_addr_t) -1`. The error of the library has only the low 32 bits set, so it
is not taken for one. -/
def addressOf (s : Bytes) : Option (BitVec 64) :=
  let addr := (inetAddr s).setWidth 64
  if addr = BitVec.allOnes 64 ∧ s ≠ strBytes "255.255.255.255" then none else some addr

def maskVal (bits : Nat) : BitVec 32 := if bits = 32 then 0 else BitVec.allOnes 32 >>> bits

def extractIpRange (s : Bytes) : Except String (BitVec 64 × BitVec 64) :=
  match tokenize "-/" s with
  | [] => .error nullToken
  | [a] =>
    match addressOf inetAddr a with
    | none => .error "malformed ip address"
    | some addr => .ok (addr, addr)
  | [a, b] =>
    match addressOf inetAddr a with
    | none => .error "malformed ip address"
    | some addr1 =>
      if s.contains 47 then
        match sscanfInt b with
        | none => .error "bad mask specification"
        | some bits =>
          if 0 ≤ bits ∧ bits ≤ 32 then
            let mask := maskVal bits.toNat
            -- as an `int`, the mask is extended by its sign; its complement is unsigned
            let addr2 := addr1 ||| mask.signExtend 64
            let addr1 := addr1 &&& (mask ^^^ BitVec.allOnes 32).setWidth 64
            if addr1 > addr2 then .error "range start greater than range end" else .ok (addr1, addr2)
          else .error "invalid mask specification"
      else
        match addressOf inetAddr b with
        | none => .error "malformed ip address at range end"
        | some addr2 =>
          if addr1 > addr2 then .error "range start greater than range end" else .ok (addr1, addr2)
  | _ => .error "malformed IP range"

end Address

end MatcherUtils

/-! ### Lines -/

inductive MatcherType where
  | none
  | host
  | domain
  | ip
  | regex
  | hostRegex
deriving DecidableEq

/-- A label and its value. -/
structure Item where
  label : Bytes
  value : Bytes
deriving DecidableEq

/-- A parsed line: the labels, which are null once they are consumed, with their values. -/
structure MatcherLine where
  type : MatcherType
  destEntry : Nat
  numEl : Int
  line : List (Option Bytes × Bytes)
  lineNum : Nat
deriving DecidableEq

namespace MatcherLine

def maxTokens : Nat := 40

def destType (label : Bytes) : MatcherType :=
  if caseEq label "dest_ip" then .ip
  else if caseEq label "dest_host" then .host
  else if caseEq label "dest_domain" then .domain
  else if caseEq label "url_regex" then .regex
  else if caseEq label "host_regex" then .hostRegex
  else .none

end MatcherLine

end TrafficServer
