import TrafficServer.Hdrs.HdrToken
import TrafficServer.Hdrs.HdrCsvIter
import TrafficServer.Lib.CInt

/-!
# Cooking

What `recompute_cooked_stuff` makes of the values of the `Cache-Control` fields and of those of the
`Pragma` fields. A chain of duplicates is given by its values.
-/

namespace TrafficServer

open ParseRules HdrToken

structure MIMECookedCacheControl where
  mask : BitVec 32 := 0
  secsMaxAge : Int := 0
  secsSMaxage : Int := 0
  secsMaxStale : Int := 0
  secsMinFresh : Int := 0
deriving DecidableEq

structure MIMECooked where
  cacheControl : MIMECookedCacheControl := {}
  pragmaNoCache : Bool := false
deriving DecidableEq

namespace MIMECooked

def isDigit (c : UInt8) : Bool := 48 ≤ c && c ≤ 57

/-- `mime_parse_integer`, with its arithmetic of `int`. -/
def mimeParseInteger (s : Bytes) : Option Int :=
  match s.dropWhile fun c => c ≠ 0 && !isDigit c && c ≠ 45 with
  | [] => none
  | c :: r =>
    if c = 0 then none
    else
      let digits := (if c = 45 then r else c :: r).takeWhile isDigit
      let val := digits.foldl (fun (v : Int) d => CInt.toInt32 (v * 10 + (d.toNat - 48 : Nat))) 0
      some (if c = 45 then CInt.toInt32 (-val) else val)

def isWksOf (i : Nat) (s : String) : Bool := hdrtokenTokenize (strBytes s) = some i

def ccSecsMask : BitVec 32 := 1#32 <<< 0 ||| 1#32 <<< 11 ||| 1#32 <<< 4 ||| 1#32 <<< 5

def maxint : Int := 2147483647

def cookDirective (cc : MIMECookedCacheControl) (s : Bytes) : MIMECookedCacheControl :=
  match hdrtokenTokenize (s.takeWhile isToken) with
  | none => cc
  | some i =>
    let cc := { cc with mask := cc.mask ||| ccMask i }
    if ccMask i &&& ccSecsMask ≠ 0 then
      match mimeParseInteger (s.dropWhile isToken) with
      | some value =>
        if isWksOf i "max-age" then { cc with secsMaxAge := value }
        else if isWksOf i "min-fresh" then { cc with secsMinFresh := value }
        else if isWksOf i "max-stale" then { cc with secsMaxStale := value }
        else if isWksOf i "s-maxage" then { cc with secsSMaxage := value }
        else cc
      | none => if isWksOf i "max-stale" then { cc with secsMaxStale := maxint } else cc
    else cc

def cookPragmaElement (noCache : Bool) (s : Bytes) : Bool :=
  match hdrtokenTokenize (s.takeWhile isToken) with
  | some i => if isWksOf i "no-cache" then true else noCache
  | none => noCache

def cacheControlLoop (values : List (Option Bytes)) : Option MIMECookedCacheControl :=
  (HdrCsvIter.allValues 44 true values).map fun l => l.foldl cookDirective {}

def pragmaLoop (values : List (Option Bytes)) : Option Bool :=
  (HdrCsvIter.allValues 44 true values).map fun l => l.foldl cookPragmaElement false

/-- `ptr_len_casecmp` finds no difference. -/
def casecmpEq (value : Option Bytes) (s : String) : Bool :=
  lower (value.getD []) = lower (strBytes s)

/-- The mask that the fast paths give to a field without duplicates; zero if they do not apply. -/
def fastMask : List (Option Bytes) → BitVec 32
  | [value] =>
    if casecmpEq value "public" then 1#32 <<< 7
    else if casecmpEq value "private,no-cache" then 1#32 <<< 8 ||| 1#32 <<< 1
    else 0
  | _ => 0

def cookCacheControl (values : List (Option Bytes)) : Option MIMECookedCacheControl :=
  if fastMask values = 0 then cacheControlLoop values else some { mask := fastMask values }

def fastPragma : List (Option Bytes) → Bool
  | [value] => casecmpEq value "no-cache"
  | _ => false

def cookPragma (values : List (Option Bytes)) : Option Bool :=
  if fastPragma values then some true else pragmaLoop values

end MIMECooked

end TrafficServer
