import Mathlib.Data.List.DropRight
import TrafficServer.Hdrs.ParseRules

/-!
# The MIME scanner and parser

`mime_scanner_get` takes the next logical line from the input: a line with its continuation lines if
the scan is for fields. What it cannot finish it keeps in a buffer until more input comes.
`mime_parser_parse` makes a field of each line.

The input is the list of the bytes from `*raw_input_s` to `raw_input_e`. The functions are partial:
`none` stands for a loop that does not end or a state that is none of the switch.
-/

namespace TrafficServer

open ParseRules

inductive MIMEScannerState
  | start
  | char2
  | scanningForLF
  | scanningForContinuation
  | eatingWS
  | done
deriving DecidableEq

inductive MIMEScannerType
  | line
  | field
deriving DecidableEq

inductive MIMEParseResult
  | error
  | done
  | ok
  | cont
deriving DecidableEq

/-- `MIMEScanner`: the `m_line_length` bytes of `m_line`, which are within the buffer. -/
@[ext] structure MIMEScanner where
  line : Bytes
  lineSize : Nat
  state : MIMEScannerState
  fits : line.length ≤ lineSize

namespace MIMEScanner

def init : MIMEScanner := ⟨[], 0, .start, le_rfl⟩

variable (S : MIMEScanner)

def growLoop (needed : Nat) : Nat → Nat → Nat
  | 0, size => size
  | fuel + 1, size => if size < needed then growLoop needed fuel (size * 2) else size

def grow (size needed : Nat) : Nat :=
  if size < needed then growLoop needed needed ((if size = 0 then 128 else size) * 2) else size

theorem le_growLoop {needed fuel size : Nat} (h : needed ≤ fuel + size) (hpos : 0 < size) :
    needed ≤ growLoop needed fuel size := by
  induction fuel generalizing size with
  | zero => simpa [growLoop] using h
  | succ fuel ih =>
    rw [growLoop]
    split
    · exact ih (by omega) (by omega)
    · omega

theorem le_grow (size needed : Nat) : needed ≤ grow size needed := by
  rw [grow]
  split
  · refine le_growLoop (Nat.le_add_right _ _) ?_
    split <;> omega
  · omega

def append (data : Bytes) : MIMEScanner where
  line := S.line ++ data
  lineSize := grow S.lineSize (S.line.length + data.length)
  state := S.state
  fits := by
    rw [List.length_append]
    exact le_grow _ _

/-! ### `mime_scanner_get` -/

def throughLF : Bytes → Option (Bytes × Bytes)
  | [] => none
  | c :: r => if c = charLF then some ([c], r) else (throughLF r).map fun p => (c :: p.1, p.2)

/-- The fast path, for a whole line that is not continued or a blank line. The character is compared
as a signed one. -/
def fastPath (type : MIMEScannerType) : Bytes → Option (Bytes × Bytes)
  | [] => none
  | c :: r =>
    if c.toInt8 > 13 then do
      let (l, r') ← throughLF r
      if type = .line ∨ r'.head?.any (!isWs ·) then some (c :: l, r') else none
    else if c = charCR ∧ r.head? = some charLF then some ([c, charLF], r.tail)
    else none

/-- How far the switch has come: the bytes between `*raw_input_s` and `raw_input_c`, and those that
follow. -/
structure Scan where
  state : MIMEScannerState
  data : Bytes
  rest : Bytes
deriving DecidableEq

section Switch
variable (type : MIMEScannerType) (eof : Bool)

def scanContinuation (data rest : Bytes) : Scan :=
  match rest with
  | [] => ⟨if eof then .done else .scanningForContinuation, data, []⟩
  | c :: r => ⟨if isWs c then .eatingWS else .done, data, c :: r⟩

def scanLF (data rest : Bytes) : Scan :=
  match throughLF rest with
  | none => ⟨.scanningForLF, data ++ rest, []⟩
  | some (l, r) =>
    if type = .line then ⟨.done, data ++ l, r⟩ else scanContinuation eof (data ++ l) r

def scanChar2 (data rest : Bytes) : Scan :=
  match rest with
  | [] => ⟨.char2, data, []⟩
  | c :: r => if c = charLF then ⟨.done, data ++ [c], r⟩ else scanLF type eof (data ++ [c]) r

def scanStart (rest : Bytes) : Scan :=
  match rest with
  | [] => ⟨.start, [], []⟩
  | c :: r =>
    if c = charCR then scanChar2 type eof [c] r
    else if c = charLF then ⟨.done, [c], r⟩
    else scanLF type eof [c] r

def scanWS (rest : Bytes) : Scan :=
  match rest.dropWhile isWs with
  | [] => ⟨.eatingWS, [], []⟩
  | c :: r => scanLF type eof [] (c :: r)

def scan (raw : Bytes) : MIMEScannerState → Option Scan
  | .start => some (scanStart type eof raw)
  | .char2 => some (scanChar2 type eof [] raw)
  | .scanningForLF => some (scanLF type eof [] raw)
  | .scanningForContinuation => some (scanContinuation eof [] raw)
  | .eatingWS => some (scanWS type eof raw)
  | .done => none

end Switch

/-- The line without its LF or CR LF. -/
def trimLine (line : Bytes) : Bytes :=
  if line.getLast? = some charLF then
    if line.dropLast.getLast? = some charCR then line.dropLast.dropLast else line.dropLast
  else line

theorem length_trimLine_le (line : Bytes) : (trimLine line).length ≤ line.length := by
  unfold trimLine
  split
  · split <;> simp only [List.length_dropLast] <;> omega
  · exact le_rfl

/-- The scanner when data is put in its buffer. The end of a line is cut off that is continued. -/
def save (p : Scan) : MIMEScanner :=
  if p.data = [] then { S with state := p.state }
  else if p.state = .eatingWS then
    { S.append p.data with
      line := trimLine (S.append p.data).line
      state := p.state
      fits := (length_trimLine_le _).trans (S.append p.data).fits }
  else { S.append p.data with state := p.state }

/-- What `mime_scanner_get` returns: the scanner, the input that is left, and the output. -/
structure Got where
  scanner : MIMEScanner
  rest : Bytes
  output : Bytes
  sharesRawInput : Bool
  result : MIMEParseResult

section Get
variable (type : MIMEScannerType) (eof : Bool)

def getLoop : Nat → MIMEScanner → Bytes → Option Got
  | 0, _, _ => none
  | fuel + 1, S, raw => do
    let p ← scan type eof raw S.state
    if p.state = .done ∧ S.line = [] then
      some ⟨{ S with state := .start }, p.rest, p.data, true, .ok⟩
    else
      let S' := S.save p
      if p.state = .done then
        some ⟨{ S' with line := [], state := .start, fits := Nat.zero_le _ }, p.rest, S'.line, false, .ok⟩
      else if p.rest ≠ [] then getLoop fuel S' p.rest
      else if !eof then some ⟨S', [], S'.line, false, .cont⟩
      else some ⟨S', [], S'.line, false, if S'.line = [] then .done else .error⟩

def get (raw : Bytes) : Option Got :=
  match if S.line = [] ∧ S.state = .start then fastPath type raw else none with
  | some (l, r) => some ⟨S, r, l, true, .ok⟩
  | none => getLoop type eof (raw.length + 2) S raw

/-- The lines that calls of `mime_scanner_get` give of one input, to the first that gives none. -/
def lines : Nat → MIMEScanner → Bytes → Option (List Bytes × MIMEScanner × MIMEParseResult)
  | 0, _, _ => none
  | fuel + 1, S, raw => do
    let g ← S.get type eof raw
    if g.result = .ok then
      let (ls, S', result) ← lines fuel g.scanner g.rest
      some (g.output :: ls, S', result)
    else some ([], g.scanner, g.result)

end Get

end MIMEScanner

/-! ### `mime_parser_parse` -/

def isBlankLine (line : Bytes) : Bool :=
  [charCR, charLF].isPrefixOf line || [charLF].isPrefixOf line

/-- The name and the value of a field line; other lines are tossed away. -/
def parseFieldLine (line : Bytes) : Option (Bytes × Bytes) := do
  let first ← line.head?
  if !isToken first && first ≠ 64 then none
  else
    let colon ← line.idxOf? 58
    some ((line.take colon).rdropWhile isWs,
      ((line.drop (colon + 1)).dropWhile isWs).rdropWhile isWslfcr)

/-- The name and the value that a field has room for: `m_len_name` is an `inku16`, `m_len_value` has
24 bits. -/
def storedField (f : Bytes × Bytes) : Bytes × Bytes :=
  (f.1.take (f.1.length % 2 ^ 16), f.2.take (f.2.length % 2 ^ 24))

end TrafficServer
