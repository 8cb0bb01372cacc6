import TrafficServer.Hdrs.MIMEHdr

/-!
# The values of fields

The functions that set the value of a field, and those that edit one element of its comma-separated
list. The length of a value has 24 bits. Where the source allocates the new string is left out.
-/

namespace TrafficServer

open ParseRules

namespace HttpCompat

/-- The scan of a token to the next separator that is not quoted, from the inside of a quoted string
or from outside: the token and the rest. -/
def scanTok (sep : UInt8) : Bool → Bytes → Bytes × Bytes
  | _, [] => ([], [])
  | inQuote, c :: r =>
    if c = sep ∧ ¬ inQuote then ([], c :: r)
    else
      let p := scanTok sep (if c = 34 then !inQuote else inQuote) r
      (c :: p.1, p.2)

/-- What is left of a token without trailing white space, and without a trailing quote. -/
def trimTok (trimQuotes : Bool) (tok : Bytes) : Bytes :=
  let t := (tok.reverse.dropWhile isWs).reverse
  if trimQuotes ∧ t.getLast? = some 34 then t.dropLast else t

/-- The loop of `parse_tok_list`; `index` is the number of tokens so far. -/
def tokLoop (trimQuotes : Bool) (sep : UInt8) :
    Nat → Bytes → Nat → Bool → Option (List Bytes)
  | 0, _, _, _ => none
  | fuel + 1, s, index, hitSep =>
    match s.dropWhile isWs with
    | [] => some (if hitSep ∨ index = 0 then [[]] else [])
    | c :: r =>
      if c = sep then (tokLoop trimQuotes sep fuel r (index + 1) true).map ([] :: ·)
      else
        let p := if c = 34 then scanTok sep true r else scanTok sep false (c :: r)
        let tok := if c = 34 ∧ ¬ trimQuotes then c :: p.1 else p.1
        (tokLoop trimQuotes sep fuel p.2.tail (index + 1) (p.2 ≠ [])).map
          (trimTok trimQuotes tok :: ·)

def parseTokList (trimQuotes : Bool) (sep : UInt8) : Option Bytes → Option (List Bytes)
  | none => some []
  | some s => tokLoop trimQuotes sep (s.length + 2) s 0 false

end HttpCompat

namespace MIMEHdr

variable (h : MIMEHdr) (n : Nat)

def storedValue (value : Bytes) : Bytes := value.take (value.length % 2 ^ 24)

def storeValue (value : Option Bytes) : Option MIMEHdr :=
  (h.modify n fun f => { f with value := value.map storedValue }).recook n (isLive (h.slot n))

def fieldValueSet (value : Option Bytes) : Option MIMEHdr := h.storeValue n value

/-- `mime_field_name_value_set`. Without copies of the strings the fields are set one by one. -/
def fieldNameValueSet (wksIdx : Option Nat) (name : Bytes) (value : Option Bytes)
    (mustCopyStrings : Bool) : Option MIMEHdr :=
  if mustCopyStrings then (h.fieldNameSet n wksIdx name).fieldValueSet n value
  else
    (h.modify n fun f =>
      { f with
        wksIdx := wksIdx
        name := name.take (name.length % 2 ^ 16)
        value := value.map storedValue
        cooked := f.cooked ||
          decide (wksIdx = some wksidxCacheControl ∨ wksIdx = some wksidxPragma) }).recook n
      (isLive (h.slot n))

def fieldValueAppend (value : Bytes) (prependComma : Bool) (separator : UInt8) :
    Option MIMEHdr :=
  let old := (h.slot n).value.getD []
  h.storeValue n (some (old ++ (if prependComma ∧ old ≠ [] then [separator, 32] else []) ++ value))

def valueStrFromStrlist (list : List Bytes) : Bytes := [44, 32].intercalate list

/-- An edit of the list of the value; without a new list the field is left as it is. -/
def editCommaVals (edit : List Bytes → Option (Option Bytes)) : Option MIMEHdr := do
  let list ← HttpCompat.parseTokList false 44 (h.slot n).value
  match edit list with
  | none => some h
  | some value => h.storeValue n value

def setCommaVal (idx : Int) (piece : Bytes) : Option MIMEHdr :=
  h.editCommaVals n fun list =>
    if idx < 0 ∨ list.length ≤ idx then none
    else some (some (valueStrFromStrlist (list.set idx.toNat piece)))

/-- `mime_field_value_delete_comma_val`: without the last element the value is null. -/
def deleteCommaVal (idx : Int) : Option MIMEHdr :=
  h.editCommaVals n fun list =>
    if idx < 0 ∨ list.length ≤ idx then none
    else
      let list := list.eraseIdx idx.toNat
      some (if list = [] then none else some (valueStrFromStrlist list))

/-- `mime_field_value_insert_comma_val`: a negative index is the end. -/
def insertCommaVal (idx : Int) (piece : Bytes) : Option MIMEHdr :=
  h.editCommaVals n fun list =>
    let idx := if idx < 0 then (list.length : Int) else idx
    if idx > list.length then none
    else some (some (valueStrFromStrlist (list.insertIdx idx.toNat piece)))

/-- An element with a piece behind it, inside of its quotes if it has them. -/
def extendTok (cell piece : Bytes) : Bytes :=
  if 2 ≤ cell.length ∧ cell.head? = some 34 ∧ cell.getLast? = some 34 then
    34 :: (cell.tail.dropLast ++ piece ++ [34])
  else cell ++ piece

def extendCommaVal (idx : Int) (piece : Bytes) : Option MIMEHdr :=
  h.editCommaVals n fun list =>
    if idx < 0 ∨ list.length ≤ idx then none
    else some (some (valueStrFromStrlist (list.modify idx.toNat fun cell => extendTok cell piece)))

end MIMEHdr

end TrafficServer
