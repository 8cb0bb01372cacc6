import TrafficServer.Hdrs.HdrToken

/-!
# URLs and their digests

The record of a URL, and the bytes that `url_MD5_get` feeds to the digest. The general path unescapes
the strings of the URL through a buffer of 512 bytes; whenever that is full it is fed and emptied, and
the unescaping goes on in the state it was in.
-/

namespace TrafficServer

open ParseRules

inductive URLType where
  | none | http | https | ftp | mms | mmsu | mmst | rtsp
deriving DecidableEq

/-- The record of a URL, with the given representation of strings. -/
structure URLImpl (σ : Type) where
  scheme : σ
  user : σ
  password : σ
  host : σ
  /-- The string of the port. -/
  portStr : σ
  path : σ
  params : σ
  query : σ
  fragment : σ
  capacityHost : Nat := 0
  schemeWksIdx : Option Nat := none
  port : UInt16 := 0
  urlType : URLType := .none
  typeCode : UInt8 := 0
deriving DecidableEq

namespace URL

def urlCanonicalizePort (type : URLType) (port : UInt16) : UInt16 :=
  if port = 0 then
    match type with
    | .http => 80
    | .ftp => 21
    | .https => 443
    | .mms | .mmsu | .mmst => 1755
    | .rtsp => 554
    | .none => port
  else port

/-! ### Unescaping -/

def bufSize : Nat := 512

/-- The states of the unescaping: 0, and behind `%`, behind `%` and a digit, and behind both when only
the `%` of them has been written. -/
inductive UnescapeState where
  | plain | percent | digit | rest
deriving DecidableEq

/-- The bytes in the buffer, the bytes of the string before `str`, the last one first, and those from
`str` on. -/
structure Unescape where
  buf : Bytes
  behind : Bytes
  ahead : Bytes
  state : UnescapeState
deriving DecidableEq

def hexVal (c : UInt8) : UInt8 := if isAlpha c then inkToupper c - 65 + 10 else c - 48

def hexByte (a b : UInt8) : UInt8 := hexVal a * 16 + hexVal b

/-- What is done to a byte of a host and of the other strings. -/
def fold (host : Bool) (c : UInt8) : UInt8 := if host then inkTolower c else c

def unescapeStep (host : Bool) (c : UInt8) (u : Unescape) : Unescape :=
  match u.state with
  | .plain =>
    if c = 37 then ⟨u.buf, c :: u.behind, u.ahead.tail, .percent⟩
    else ⟨u.buf ++ [fold host c], c :: u.behind, u.ahead.tail, .plain⟩
  | .percent =>
    if isHex c then ⟨u.buf, c :: u.behind, u.ahead.tail, .digit⟩
    else ⟨u.buf ++ [fold host (u.behind.getD 0 0)], u.behind, u.ahead, .plain⟩
  | .digit =>
    if isHex c then ⟨u.buf ++ [hexByte (u.behind.getD 0 0) c], c :: u.behind, u.ahead.tail, .plain⟩
    else ⟨u.buf ++ [fold host (u.behind.getD 1 0)], u.behind, u.ahead, .rest⟩
  | .rest => ⟨u.buf ++ [fold host (u.behind.getD 0 0)], u.behind, u.ahead, .plain⟩

/-- The loop. Each pass reads or writes a byte. -/
def unescapeLoop (host : Bool) : Nat → Unescape → Unescape
  | 0, u => u
  | fuel + 1, u =>
    match u.ahead with
    | [] => u
    | c :: _ => if u.buf.length = bufSize then u else unescapeLoop host fuel (unescapeStep host c u)

def unescapeStrTolower (u : Unescape) : Unescape :=
  unescapeLoop true (u.ahead.length + (bufSize - u.buf.length)) u

/-- The bytes up to the first `%` are copied at once, whatever the state is. -/
def unescapeStr (u : Unescape) : Unescape :=
  let minLen := min u.ahead.length (bufSize - u.buf.length)
  let copied := (u.ahead.take minLen).takeWhile (· ≠ 37)
  let u' : Unescape :=
    ⟨u.buf ++ copied, copied.reverse ++ u.behind, u.ahead.drop copied.length, u.state⟩
  if copied.length = minLen then u'
  else unescapeLoop false (u'.ahead.length + (bufSize - u'.buf.length)) u'

/-! ### The general path -/

/-- The loop over one string, with what has been fed to the digest. A call that does not come to the end
of the string fills the buffer. -/
def feed (host : Bool) : Nat → Bytes → Unescape → Bytes × Bytes
  | 0, fed, u => (fed, u.buf)
  | fuel + 1, fed, u =>
    if u.ahead = [] then (fed, u.buf)
    else
      let u := if host then unescapeStrTolower u else unescapeStr u
      if u.buf.length = bufSize then feed host fuel (fed ++ u.buf) { u with buf := [] }
      else feed host fuel fed u

/-- The strings of a URL, with `strs[i]` a null pointer or not. -/
def urlStrs (url : URLImpl (Option Bytes)) : List (Option Bytes) :=
  [url.scheme, some (strBytes "://"), url.user, some (strBytes ":"), url.password,
    some (strBytes "@"), url.host, some (strBytes "/"), url.path] ++
  if url.urlType = .ftp then [some (strBytes ";type="), some [url.typeCode], none, none]
  else [some (strBytes ";"), url.params, some (strBytes "?"), url.query]

def isHost (i : Nat) : Bool := i = 6

def feedStr (st : Bytes × Bytes) (s : Option Bytes × Nat) :
    Bytes × Bytes :=
  match s.1 with
  | none => st
  | some str => feed (isHost s.2) (str.length + 1) st.1 ⟨st.2, [], str, .plain⟩

def portBytes (url : URLImpl (Option Bytes)) : Bytes :=
  let port := urlCanonicalizePort url.urlType url.port
  [port.toUInt8, (port >>> 8).toUInt8]

def urlMD5GetGeneral (url : URLImpl (Option Bytes)) : Bytes :=
  let (fed, buf) := (urlStrs url).zipIdx.foldl feedStr ([], [])
  fed ++ buf ++ portBytes url

/-! ### The fast path -/

def strLen (s : Option Bytes) : Nat := (s.getD []).length

def urlMMHGetFast (url : URLImpl (Option Bytes)) : Bytes :=
  url.scheme.getD [] ++ strBytes "://" ++ strBytes ":" ++ strBytes "@" ++
    (url.host.getD []).map inkTolower ++ strBytes "/" ++ url.path.getD [] ++ strBytes ";" ++
    strBytes "?" ++ portBytes url

def takesFastPath (urlHashMethod : Int) (url : URLImpl (Option Bytes)) : Bool :=
  urlHashMethod ≠ 0 && url.urlType = .http &&
    strLen url.user + strLen url.password + strLen url.params + strLen url.query = 0 &&
    3 + 1 + 1 + 1 + 1 + 1 + 2 + strLen url.scheme + strLen url.host + strLen url.path < bufSize &&
    !(url.host.getD []).contains 37 && !(url.path.getD []).contains 37

def urlMD5Get (urlHashMethod : Int) (url : URLImpl (Option Bytes)) : Bytes :=
  if takesFastPath urlHashMethod url then urlMMHGetFast url else urlMD5GetGeneral url

end URL

end TrafficServer
