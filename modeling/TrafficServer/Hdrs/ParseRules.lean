import Mathlib.Data.UInt

/-!
# Character classes

The tests of `ParseRules`, as `CompileParseRules` computes their table.
-/

namespace TrafficServer

abbrev Bytes := List UInt8

namespace ParseRules

def charSP : UInt8 := 32

def charHT : UInt8 := 9

def charLF : UInt8 := 10

def charCR : UInt8 := 13

def isWs (c : UInt8) : Bool := c == charSP || c == charHT

def isWslfcr (c : UInt8) : Bool := isWs c || c == charLF || c == charCR

def isChar (c : UInt8) : Bool := c ≤ 127

def isCtl (c : UInt8) : Bool := c ≤ 31 || c == 127

def isAlpha (c : UInt8) : Bool := (65 ≤ c && c ≤ 90) || (97 ≤ c && c ≤ 122)

def isHex (c : UInt8) : Bool := (65 ≤ c && c ≤ 70) || (97 ≤ c && c ≤ 102) || (48 ≤ c && c ≤ 57)

def inkToupper (c : UInt8) : UInt8 := if 97 ≤ c ∧ c ≤ 122 then c - 32 else c

/-- The characters of HTTP that need quoting. -/
def isTspecials (c : UInt8) : Bool :=
  [40, 41, 60, 62, 64, 44, 59, 58, 92, 34, 47, 91, 93, 63, 61, 123, 125, charSP, charHT].contains c

def isToken (c : UInt8) : Bool := isChar c && !(isCtl c || isTspecials c)

end ParseRules

end TrafficServer
