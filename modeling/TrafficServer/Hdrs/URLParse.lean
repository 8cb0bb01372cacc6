import TrafficServer.Hdrs.URL
import TrafficServer.Lib.CInt

/-!
# Parsing a URL

`url_parse` cuts a text into the components of a URL, and the functions that set them store what they
are given. Which pieces of a text are its components is said by rules of a grammar (`Spells`); the
texts that have them are the ones that are accepted (`urlParse_eq_some_iff`). A piece has no bound; it
is stored through a length of 16 bits, and the number of the port in 16 bits, digit by digit. So the
record has the components as they are if and only if none is longer than 65535 bytes and the port is
no larger.
-/

namespace TrafficServer

open List ParseRules HdrToken CInt Option

namespace URL

/-! ### The components of a text -/

/-- The components, each from its start to its end; `none` for a start that is null. -/
structure Pieces where
  scheme : Option Bytes := none
  user : Option Bytes := none
  password : Option Bytes := none
  host : Option Bytes := none
  port : Option Bytes := none
  path : Option Bytes := none
  params : Option Bytes := none
  query : Option Bytes := none
  fragment : Option Bytes := none
  schemeWksIdx : Option Nat := none
  typeCode : Option UInt8 := none
deriving DecidableEq

def cut (stops : Bytes) (s : Bytes) : Bytes × Bytes := s.span (!stops.contains ·)

def nonempty (s : Bytes) : Option Bytes := if s = [] then none else some s

/-- The `://` before the host, as much of it as there is. -/
def skipSlashes : Bytes → Option Bytes
  | 58 :: 47 :: 47 :: s => nonempty s
  | 58 :: 47 :: s => nonempty s
  | 58 :: s => nonempty s
  | s => some s

def parseHost (p : Pieces) (s : Bytes) : Pieces × Bytes :=
  let (host, r) := cut [58, 47] s
  let p := { p with host := some host }
  match r with
  | [] => (p, [])
  | c :: t =>
    if c = 58 ∧ t ≠ [] then
      let (port, r) := cut [47] t
      ({ p with port := some port }, r.tail)
    else (p, t)

/-- From `parse_pass1` on; without an `@` and a host behind it these are a host and a port. -/
def parsePass (p : Pieces) (user s : Bytes) : Pieces × Bytes :=
  let (pass, r) := cut [64, 47] s
  match r with
  | 64 :: c :: t => parseHost { p with user := some user, password := some pass } (c :: t)
  | _ => ({ p with host := some user, port := some pass }, r.tail)

def parseUser (p : Pieces) (s : Bytes) : Pieces × Bytes :=
  let (user, r) := cut [58, 64, 47] s
  match r with
  | 58 :: c :: t => parsePass p user (c :: t)
  | 64 :: c :: t => parseHost { p with user := some user } (c :: t)
  | _ => ({ p with host := some user }, r.tail)

def urlParseInternet (p : Pieces) (s : Bytes) : Option (Pieces × Bytes) :=
  (skipSlashes s).map (parseUser p)

/-- From `parse_query1` on, at the byte that ended the path or the parameters. -/
def parseQuery (p : Pieces) : Bytes → Pieces
  | [] => p
  | c :: t =>
    if c = 63 then
      let (query, r) := cut [35] t
      let p := { p with query := some query }
      if r = [] then p else { p with fragment := some r.tail }
    else { p with fragment := some t }

def urlParseHttp (p : Pieces) (s : Bytes) : Option Pieces :=
  (urlParseInternet p s).map fun (p, s) =>
    if s = [] then p
    else
      let (path, r) := cut [59, 63, 35] s
      let p := { p with path := some path }
      match r with
      | 59 :: t =>
        let (params, r) := cut [63, 35] t
        parseQuery { p with params := some params } r
      | r => parseQuery p r

def urlParseFtp (p : Pieces) (s : Bytes) : Option Pieces :=
  (urlParseInternet p s).bind fun (p, s) =>
    if s = [] then some p
    else
      let (path, r) := cut [59] s
      let p := { p with path := some path }
      if r.tail = [] then some p
      else if r.length = 7 ∧ r.tail.take 5 = strBytes "type=" then
        some { p with typeCode := r.getLast? }
      else none

/-- The well-known strings of type `HDRTOKEN_TYPE_SCHEME`. -/
def schemes : List String :=
  ["file", "ftp", "gopher", "http", "https", "mailto", "news", "nntp", "prospero", "telnet", "tunnel",
    "wais", "pnm", "rtsp", "rtspu", "mms", "mmsu", "mmst"]

def isScheme (idx : Nat) : Bool := schemes.any fun s => strBytes s = hdrtokenIndexToWks idx

/-- `url_parse`; `none` is `PARSE_ERROR`. -/
def urlParse (text : Bytes) : Option Pieces :=
  let s := text.dropWhile isWs
  if s = [] then none
  else
    let (scheme, r) := cut [58] s
    match if r = [] then none else hdrtokenTokenize scheme with
    | none => urlParseHttp {} s
    | some idx =>
      if !isScheme idx then urlParseHttp {} s
      else
        let p : Pieces := { scheme := some scheme, schemeWksIdx := some idx }
        if hdrtokenIndexToWks idx = strBytes "ftp" then urlParseFtp p r else urlParseHttp p r

/-! ### The components as pieces of the text -/

/-- The piece has none of the bytes that would end it. -/
def Free (stops a : Bytes) : Prop := ∀ c ∈ a, c ∉ stops

/-- A byte and what stands behind it, if it is there. -/
def marked (c : UInt8) : Option Bytes → Bytes
  | none => []
  | some s => c :: s

/-- A host, with or without a port, and what stands behind the slash. -/
inductive HostPort : Bytes → Bytes → Option Bytes → Bytes → Prop
  | host {host} (hh : Free [58, 47] host) (slash) : HostPort (host ++ marked 47 slash) host none (slash.getD [])
  | colon {host} (hh : Free [58, 47] host) : HostPort (host ++ [58]) host none []
  | port {host port} (hh : Free [58, 47] host) (hp : Free [47] port) (slash) (hne : port ++ marked 47 slash ≠ []) :
    HostPort (host ++ 58 :: (port ++ marked 47 slash)) host (some port) (slash.getD [])

/-- `user:password@host:port`, of which all but the host may be missing. -/
inductive Authority : Bytes → Option Bytes → Option Bytes → Bytes →
    Option Bytes → Bytes → Prop
  | host {host} (hh : Free [58, 64, 47] host) (slash) :
    Authority (host ++ marked 47 slash) none none host none (slash.getD [])
  | bare {host} (hh : Free [58, 64, 47] host) {c} (hc : c ∈ [58, 64]) :
    Authority (host ++ [c]) none none host none []
  | port {host port} (hh : Free [58, 64, 47] host) (hp : Free [64, 47] port) (slash)
    (hne : port ++ marked 47 slash ≠ []) :
    Authority (host ++ 58 :: (port ++ marked 47 slash)) none none host (some port) (slash.getD [])
  | portAt {host port} (hh : Free [58, 64, 47] host) (hp : Free [64, 47] port) :
    Authority (host ++ 58 :: (port ++ [64])) none none host (some port) []
  | user {user s host port rest} (hu : Free [58, 64, 47] user) (hne : s ≠ []) (h : HostPort s host port rest) :
    Authority (user ++ 64 :: s) (some user) none host port rest
  | password {user pass s host port rest} (hu : Free [58, 64, 47] user) (hp : Free [64, 47] pass) (hne : s ≠ [])
    (h : HostPort s host port rest) :
    Authority (user ++ 58 :: (pass ++ 64 :: s)) (some user) (some pass) host port rest

variable {stops s t a r host rest : Bytes} {user pass port : Option Bytes} {p : Pieces}

theorem cut_free_append (ha : Free stops a) (hr : ∀ c ∈ r.head?, c ∈ stops) : cut stops (a ++ r) = (a, r) := by
  have ha' : ∀ c ∈ a, (!stops.contains c) = true := fun c hc => by simpa using ha c hc
  rw [cut, span_eq_takeWhile_dropWhile, takeWhile_append_of_pos ha', dropWhile_append_of_pos ha']
  cases r with
  | nil => simp
  | cons c t => simp [hr c rfl]

theorem cut_free_cons {c : UInt8} (ha : Free stops a) (hc : c ∈ stops) (t : Bytes) :
    cut stops (a ++ c :: t) = (a, c :: t) :=
  cut_free_append ha (by simpa using hc)

theorem cut_marked {c : UInt8} (ha : Free stops a) (hc : c ∈ stops) (o : Option Bytes) :
    cut stops (a ++ marked c o) = (a, marked c o) := by
  cases o with
  | none => exact cut_free_append ha (by simp [marked])
  | some t => exact cut_free_cons ha hc t

theorem exists_cut (stops s : Bytes) : ∃ a r, s = a ++ r ∧ Free stops a ∧ ∀ c ∈ r.head?, c ∈ stops := by
  induction s with
  | nil => exact ⟨[], [], rfl, by simp [Free], by simp⟩
  | cons c s ih =>
    by_cases hc : c ∈ stops
    · exact ⟨[], c :: s, rfl, by simp [Free], by simpa using hc⟩
    · obtain ⟨a, r, rfl, ha, hr⟩ := ih
      exact ⟨c :: a, r, rfl, forall_mem_cons.2 ⟨hc, ha⟩, hr⟩

theorem tail_marked (c : UInt8) (o : Option Bytes) : (marked c o).tail = o.getD [] := by
  cases o <;> rfl

theorem exists_marked {c : UInt8} (h : ∀ x ∈ r.head?, x = c) : ∃ o, r = marked c o := by
  cases r with
  | nil => exact ⟨none, rfl⟩
  | cons x t => exact ⟨some t, by rw [h x rfl]; rfl⟩

theorem HostPort.parse (h : HostPort s host port rest) (hp : p.port = none) :
    parseHost p s = ({ p with host := some host, port := port }, rest) := by
  cases h with
  | host hh slash =>
    rw [parseHost, cut_marked hh (by simp)]
    cases slash <;> simp [marked, hp]
  | colon hh =>
    rw [parseHost, cut_free_cons hh (by simp)]
    simp [hp]
  | port hh hport slash hne =>
    rw [parseHost, cut_free_cons hh (by simp)]
    simp only [hne, ne_eq, not_false_eq_true, and_self, ↓reduceIte]
    rw [cut_marked hport (by simp), tail_marked]

theorem exists_hostPort (s : Bytes) : ∃ host port rest, HostPort s host port rest := by
  obtain ⟨host, r, rfl, hh, hr⟩ := exists_cut [58, 47] s
  cases r with
  | nil => exact ⟨host, none, _, .host hh none⟩
  | cons c t =>
    rcases mem_pair.1 (hr c rfl) with rfl | rfl
    · by_cases ht : t = []
      · subst ht
        exact ⟨host, none, _, .colon hh⟩
      · obtain ⟨port, r, rfl, hp, hr⟩ := exists_cut [47] t
        obtain ⟨slash, rfl⟩ := exists_marked (c := 47) fun x hx => by simpa using hr x hx
        exact ⟨host, some port, _, .port hh hp slash ht⟩
    · exact ⟨host, none, _, .host hh (some t)⟩

theorem parseUser_colon (ha : Free [58, 64, 47] a) (hne : t ≠ []) :
    parseUser p (a ++ 58 :: t) = parsePass p a t := by
  rw [parseUser, cut_free_cons ha (by simp)]
  obtain ⟨c, u, rfl⟩ := exists_cons_of_ne_nil hne
  rfl

theorem Authority.parse (h : Authority s user pass host port rest) (hu : p.user = none) (hw : p.password = none)
    (hp : p.port = none) :
    parseUser p s = ({ p with user := user, password := pass, host := some host, port := port }, rest) := by
  cases h with
  | host hh slash =>
    rw [parseUser, cut_marked hh (by simp)]
    cases slash <;> simp [marked, hu, hw, hp]
  | bare hh hc =>
    rw [parseUser, cut_free_cons hh (mem_append_left [47] hc)]
    rcases mem_pair.1 hc with rfl | rfl <;> simp [hu, hw, hp]
  | port hh hport slash hne =>
    rw [parseUser_colon hh hne, parsePass, cut_marked hport (by simp)]
    cases slash <;> simp [marked, hu, hw]
  | portAt hh hport =>
    rw [parseUser_colon hh (by simp), parsePass, cut_free_cons hport (by simp)]
    simp [hu, hw]
  | user hu' hne h =>
    rw [parseUser, cut_free_cons hu' (by simp)]
    obtain ⟨c, t, rfl⟩ := exists_cons_of_ne_nil hne
    exact (h.parse (p := { p with user := some _ }) hp).trans (by rw [hw])
  | password hu' hw' hne h =>
    rw [parseUser_colon hu' (by simp), parsePass, cut_free_cons hw' (by simp)]
    obtain ⟨c, t, rfl⟩ := exists_cons_of_ne_nil hne
    exact h.parse hp

theorem exists_authority (s : Bytes) : ∃ user pass host port rest, Authority s user pass host port rest := by
  obtain ⟨x, r, rfl, hx, hr⟩ := exists_cut [58, 64, 47] s
  rcases r with _ | ⟨c, _ | ⟨c', t⟩⟩
  · exact ⟨_, _, _, _, _, .host hx none⟩
  · by_cases hc : c = 47
    · subst hc
      exact ⟨_, _, _, _, _, .host hx (some [])⟩
    · exact ⟨_, _, _, _, _, .bare hx (by simpa [hc] using hr c rfl)⟩
  · have hc := hr c rfl
    simp only [mem_cons, not_mem_nil, or_false] at hc
    rcases hc with rfl | rfl | rfl
    · obtain ⟨y, r, ht, hy, hr⟩ := exists_cut [64, 47] (c' :: t)
      rw [ht]
      have hne : y ++ r ≠ [] := ht ▸ cons_ne_nil c' t
      rcases r with _ | ⟨d, u⟩
      · exact ⟨_, _, _, _, _, .port hx hy none hne⟩
      · rcases mem_pair.1 (hr d rfl) with rfl | rfl
        · by_cases hu : u = []
          · subst hu
            exact ⟨_, _, _, _, _, .portAt hx hy⟩
          · obtain ⟨host, port, rest, h⟩ := exists_hostPort u
            exact ⟨_, _, _, _, _, .password hx hy hu h⟩
        · exact ⟨_, _, _, _, _, .port hx hy (some u) hne⟩
    · obtain ⟨host, port, rest, h⟩ := exists_hostPort (c' :: t)
      exact ⟨_, _, _, _, _, .user hx (cons_ne_nil _ _) h⟩
    · exact ⟨_, _, _, _, _, .host hx (some (c' :: t))⟩

/-- What stands behind the slash of the host. -/
inductive Resource : Bytes → Option Bytes → Option Bytes → Option Bytes →
    Option Bytes → Prop
  | empty : Resource [] none none none none
  | path {path params query} (hpath : Free [59, 63, 35] path) (hparams : ∀ s ∈ params, Free [63, 35] s)
    (hquery : ∀ s ∈ query, Free [35] s) (fragment)
    (hne : path ++ (marked 59 params ++ (marked 63 query ++ marked 35 fragment)) ≠ []) :
    Resource (path ++ (marked 59 params ++ (marked 63 query ++ marked 35 fragment))) (some path) params query fragment

/-- The same for FTP. -/
inductive FtpResource : Bytes → Option Bytes → Option UInt8 → Prop
  | empty : FtpResource [] none none
  | path {path} (hpath : Free [59] path) (hne : path ≠ []) : FtpResource path (some path) none
  | semicolon {path} (hpath : Free [59] path) : FtpResource (path ++ [59]) (some path) none
  | type {path} (hpath : Free [59] path) (c) :
    FtpResource (path ++ 59 :: (strBytes "type=" ++ [c])) (some path) (some c)

/-- The `://` before the host, of which the slashes or all may be missing. -/
inductive Lead : Bytes → Bytes → Prop
  | both {body} (hne : body ≠ []) : Lead (58 :: 47 :: 47 :: body) body
  | one {body} (hne : body ≠ []) (hs : body.head? ≠ some 47) : Lead (58 :: 47 :: body) body
  | colon {body} (hne : body ≠ []) (hs : body.head? ≠ some 47) : Lead (58 :: body) body
  | none {body} (hs : body.head? ≠ some 58) : Lead body body

/-- A well-known scheme in front, or none; the colon is not part of it. -/
inductive Scheme : Bytes → Option Bytes → Option Nat → Bytes → Prop
  | known {scheme idx} (hs : Free [58] scheme) (hi : hdrtokenTokenize scheme = some idx) (hk : isScheme idx = true)
    (t) : Scheme (scheme ++ 58 :: t) (some scheme) (some idx) (58 :: t)
  | none {s : Bytes} (hno : ∀ scheme t idx, s = scheme ++ 58 :: t → Free [58] scheme →
      hdrtokenTokenize scheme = some idx → isScheme idx = false) : Scheme s none none s

variable {path params query fragment : Option Bytes} {body : Bytes}

theorem parseQuery_marked (hquery : ∀ s ∈ query, Free [35] s) (fragment : Option Bytes) (hq : p.query = none)
    (hf : p.fragment = none) : parseQuery p (marked 63 query ++ marked 35 fragment) =
      { p with query := query, fragment := fragment } := by
  cases p
  cases query with
  | none => cases fragment <;> simp_all [marked, parseQuery]
  | some q =>
    have hcut := cut_marked (hquery q rfl) (mem_singleton_self 35) fragment
    cases fragment <;> simp_all [marked, parseQuery]

theorem Lead.skip (h : Lead s body) : skipSlashes s = some body := by
  cases h with
  | both hne => simp [skipSlashes, nonempty, hne]
  | one hne hs | colon hne hs =>
    obtain ⟨x, t, rfl⟩ := exists_cons_of_ne_nil hne
    unfold skipSlashes
    split <;> grind [nonempty]
  | none hs =>
    unfold skipSlashes
    split <;> simp_all

theorem lead_of_skip (h : skipSlashes s = some body) : Lead s body := by
  have hhead : ∀ {t : Bytes} {c : UInt8}, (∀ u, t ≠ c :: u) → t.head? ≠ some c := by
    intro t c hne hs
    obtain ⟨u, rfl⟩ := head?_eq_some_iff.1 hs
    exact hne u rfl
  have hsome : ∀ {t : Bytes}, nonempty t = some body → t = body ∧ body ≠ [] := by
    intro t h
    rw [nonempty] at h
    split at h <;> cases h
    exact ⟨rfl, ‹_›⟩
  unfold skipSlashes at h
  split at h
  · obtain ⟨rfl, hne⟩ := hsome h
    exact .both hne
  · next hnot =>
    obtain ⟨rfl, hne⟩ := hsome h
    exact .one hne (hhead hnot)
  · next hnot =>
    obtain ⟨rfl, hne⟩ := hsome h
    exact .colon hne (hhead hnot)
  · next hnot =>
    cases h
    exact .none (hhead hnot)

variable {scheme : Option Bytes} {idx : Option Nat} {typeCode : Option UInt8}

theorem head_query (query fragment : Option Bytes) :
    ∀ c ∈ (marked 63 query ++ marked 35 fragment).head?, c ∈ [63, 35] := by
  cases query <;> cases fragment <;> simp [marked]

theorem urlParseHttp_eq (hl : Lead s body) (ha : Authority body user pass host port rest)
    (hr : Resource rest path params query fragment) :
    urlParseHttp { scheme := scheme, schemeWksIdx := idx } s =
      some ⟨scheme, user, pass, some host, port, path, params, query, fragment, idx, none⟩ := by
  rw [urlParseHttp, urlParseInternet, hl.skip, map_some, map_some, ha.parse rfl rfl rfl]
  cases hr with
  | empty => rfl
  | @path path _ _ hpath hparams hquery fragment hne =>
    dsimp only
    rw [if_neg hne]
    cases params with
    | some q =>
      rw [show marked 59 (some q) = 59 :: q from rfl, cons_append, cut_free_cons hpath (by simp)]
      have hcut := cut_free_append (hparams q rfl) (head_query query fragment)
      show some (parseQuery ⟨scheme, user, pass, some host, port, some path,
        some (cut [63, 35] (q ++ (marked 63 query ++ marked 35 fragment))).1, none, none, idx, none⟩
        (cut [63, 35] (q ++ (marked 63 query ++ marked 35 fragment))).2) = _
      rw [hcut, parseQuery_marked hquery fragment rfl rfl]
    | none =>
      rw [show marked 59 none = [] from rfl, nil_append,
        cut_free_append hpath fun c hc => mem_cons_of_mem _ (head_query query fragment c hc)]
      have hq := parseQuery_marked
        (p := ⟨scheme, user, pass, some host, port, some path, none, none, none, idx, none⟩) hquery fragment rfl rfl
      -- no byte of the rest is the semicolon that would start parameters
      cases query <;> cases fragment <;> exact congrArg some hq

theorem urlParseFtp_eq (hl : Lead s body) (ha : Authority body user pass host port rest)
    (hr : FtpResource rest path typeCode) :
    urlParseFtp { scheme := scheme, schemeWksIdx := idx } s =
      some ⟨scheme, user, pass, some host, port, path, none, none, none, idx, typeCode⟩ := by
  rw [urlParseFtp, urlParseInternet, hl.skip, map_some, bind_some, ha.parse rfl rfl rfl]
  cases hr with
  | empty => rfl
  | path hpath hne =>
    have hcut := cut_free_append (r := []) hpath (by simp)
    rw [append_nil] at hcut
    simp [hcut, hne]
  | semicolon hpath => simp [cut_free_cons hpath (mem_singleton_self 59)]
  | type hpath c =>
    dsimp only
    rw [if_neg (by simp), cut_free_cons hpath (mem_singleton_self 59)]
    rfl

theorem exists_query (hr : ∀ c ∈ r.head?, c ∈ [63, 35]) :
    ∃ query fragment, r = marked 63 query ++ marked 35 fragment ∧ ∀ s ∈ query, Free [35] s := by
  cases r with
  | nil => exact ⟨none, none, rfl, by simp⟩
  | cons c t =>
    rcases mem_pair.1 (hr c rfl) with rfl | rfl
    · obtain ⟨q, r, rfl, hq, hr⟩ := exists_cut [35] t
      obtain ⟨fragment, rfl⟩ := exists_marked fun x hx => mem_singleton.1 (hr x hx)
      exact ⟨some q, fragment, rfl, by simpa using hq⟩
    · exact ⟨none, some t, rfl, by simp⟩

theorem exists_resource (rest : Bytes) : ∃ path params query fragment, Resource rest path params query fragment := by
  by_cases hne : rest = []
  · subst hne
    exact ⟨_, _, _, _, .empty⟩
  obtain ⟨path, r, rfl, hpath, hr⟩ := exists_cut [59, 63, 35] rest
  by_cases hsemi : r.head? = some 59
  · obtain ⟨t, rfl⟩ := head?_eq_some_iff.1 hsemi
    obtain ⟨q, r, rfl, hq, hr⟩ := exists_cut [63, 35] t
    obtain ⟨query, fragment, rfl, hquery⟩ := exists_query hr
    exact ⟨_, _, _, _, @Resource.path path (some q) query hpath (by simpa using hq) hquery fragment hne⟩
  · obtain ⟨query, fragment, rfl, hquery⟩ := exists_query fun c hc =>
      (mem_cons.1 (hr c hc)).resolve_left fun h => hsemi (h ▸ hc)
    exact ⟨_, _, _, _, @Resource.path path none query hpath (by simp) hquery fragment hne⟩

theorem ftpResource_of_parse (hl : Lead s body) (ha : Authority body user pass host port rest)
    (h : urlParseFtp { scheme := scheme, schemeWksIdx := idx } s = some p) :
    ∃ path typeCode, FtpResource rest path typeCode := by
  rw [urlParseFtp, urlParseInternet, hl.skip, map_some, bind_some, ha.parse rfl rfl rfl] at h
  by_cases hne : rest = []
  · subst hne
    exact ⟨_, _, .empty⟩
  obtain ⟨path, r, rfl, hpath, hr⟩ := exists_cut [59] rest
  dsimp only at h
  rw [if_neg hne, cut_free_append hpath hr] at h
  cases r with
  | nil => exact ⟨_, _, by rw [append_nil] at hne ⊢; exact .path hpath hne⟩
  | cons c t =>
    obtain rfl := mem_singleton.1 (hr c rfl)
    split_ifs at h with ht htype
    · obtain rfl : t = [] := ht
      exact ⟨_, _, .semicolon hpath⟩
    · obtain ⟨hlen, htake⟩ := htype
      obtain ⟨x, hx⟩ : ∃ x, t.drop 5 = [x] := length_eq_one_iff.1 (by rw [length_drop]; simp at hlen; omega)
      refine ⟨some path, some x, ?_⟩
      rw [← take_append_drop 5 t, hx, show t.take 5 = _ from htake]
      exact .type hpath x

theorem exists_scheme (s : Bytes) : ∃ scheme idx t, Scheme s scheme idx t := by
  by_cases h : ∃ scheme t idx, s = scheme ++ 58 :: t ∧ Free [58] scheme ∧ hdrtokenTokenize scheme = some idx ∧
      isScheme idx = true
  · obtain ⟨scheme, t, idx, rfl, hs, hi, hk⟩ := h
    exact ⟨_, _, _, .known hs hi hk t⟩
  · refine ⟨_, _, _, .none fun scheme t idx hs hf hi => ?_⟩
    rw [Bool.eq_false_iff]
    exact fun hk => h ⟨scheme, t, idx, hs, hf, hi, hk⟩

/-- The pieces of a text that is a URL. -/
inductive Spells : Bytes → Pieces → Prop
  | http {ws s scheme idx t body user pass host port rest path params query fragment}
    (hws : ∀ c ∈ ws, isWs c = true) (hs : s ≠ []) (hhead : ∀ c ∈ s.head?, isWs c = false)
    (hscheme : Scheme s scheme idx t) (hftp : idx.map hdrtokenIndexToWks ≠ some (strBytes "ftp"))
    (hlead : Lead t body) (hauth : Authority body user pass host port rest)
    (hres : Resource rest path params query fragment) :
    Spells (ws ++ s) ⟨scheme, user, pass, some host, port, path, params, query, fragment, idx, none⟩
  | ftp {ws s scheme idx t body user pass host port rest path typeCode}
    (hws : ∀ c ∈ ws, isWs c = true) (hs : s ≠ []) (hhead : ∀ c ∈ s.head?, isWs c = false)
    (hscheme : Scheme s scheme idx t) (hftp : idx.map hdrtokenIndexToWks = some (strBytes "ftp"))
    (hlead : Lead t body) (hauth : Authority body user pass host port rest)
    (hres : FtpResource rest path typeCode) :
    Spells (ws ++ s) ⟨scheme, user, pass, some host, port, path, none, none, none, idx, typeCode⟩

theorem Scheme.parse {ws : Bytes} (hws : ∀ c ∈ ws, isWs c = true) (hs : s ≠ [])
    (hhead : ∀ c ∈ s.head?, isWs c = false) (h : Scheme s scheme idx t) : urlParse (ws ++ s) =
      if idx.map hdrtokenIndexToWks = some (strBytes "ftp") then
        urlParseFtp { scheme := scheme, schemeWksIdx := idx } t
      else urlParseHttp { scheme := scheme, schemeWksIdx := idx } t := by
  have hdrop : (ws ++ s).dropWhile isWs = s := by
    rw [dropWhile_append_of_pos hws]
    obtain ⟨c, u, rfl⟩ := exists_cons_of_ne_nil hs
    exact dropWhile_cons_of_neg (by simp [hhead c rfl])
  unfold urlParse
  simp only [hdrop]
  rw [if_neg hs]
  cases h with
  | known hfree hi hk t =>
    rw [cut_free_cons hfree (mem_singleton_self 58)]
    simp [hi, hk]
  | none hno =>
    obtain ⟨x, r, rfl, hx, hr⟩ := exists_cut [58] s
    rw [cut_free_append hx hr]
    cases r with
    | nil => rfl
    | cons c u =>
      obtain rfl := mem_singleton.1 (hr c rfl)
      cases hi : hdrtokenTokenize x with
      | none => simp
      | some idx => simp [hno x u idx rfl hx hi]

theorem Spells.parse {text : Bytes} (h : Spells text p) : urlParse text = some p := by
  cases h with
  | http hws hs hhead hscheme hftp hlead hauth hres =>
    rw [hscheme.parse hws hs hhead, if_neg hftp, urlParseHttp_eq hlead hauth hres]
  | ftp hws hs hhead hscheme hftp hlead hauth hres =>
    rw [hscheme.parse hws hs hhead, if_pos hftp, urlParseFtp_eq hlead hauth hres]

/-- **`url_parse` accepts a text if it has pieces**, and then it finds them. -/
theorem urlParse_eq_some_iff {text : Bytes} : urlParse text = some p ↔ Spells text p := by
  refine ⟨fun h => ?_, Spells.parse⟩
  obtain ⟨ws, s, rfl, hws, hhead⟩ : ∃ ws s, text = ws ++ s ∧ (∀ c ∈ ws, isWs c = true) ∧
      ∀ c ∈ s.head?, isWs c = false := by
    refine ⟨text.takeWhile isWs, text.dropWhile isWs, takeWhile_append_dropWhile.symm,
      fun c hc => all_eq_true.1 all_takeWhile c hc, fun c hc => ?_⟩
    have hnot := head?_dropWhile_not isWs text
    rw [hc] at hnot
    simpa using hnot
  have hs : s ≠ [] := by
    rintro rfl
    have hdrop : (ws ++ []).dropWhile isWs = [] := dropWhile_append_of_pos hws
    simp only [urlParse, hdrop] at h
    cases h
  obtain ⟨scheme, idx, t, hscheme⟩ := exists_scheme s
  have hrun := h
  rw [hscheme.parse hws hs hhead] at h
  obtain ⟨body, hskip⟩ : ∃ body, skipSlashes t = some body := by
    cases hskip : skipSlashes t with
    | some body => exact ⟨body, rfl⟩
    | none => simp [urlParseFtp, urlParseHttp, urlParseInternet, hskip] at h
  have hlead := lead_of_skip hskip
  obtain ⟨user, pass, host, port, rest, hauth⟩ := exists_authority body
  obtain ⟨p', hp'⟩ : ∃ p', Spells (ws ++ s) p' := by
    by_cases hftp : idx.map hdrtokenIndexToWks = some (strBytes "ftp")
    · rw [if_pos hftp] at h
      obtain ⟨path, typeCode, hres⟩ := ftpResource_of_parse hlead hauth h
      exact ⟨_, .ftp hws hs hhead hscheme hftp hlead hauth hres⟩
    · obtain ⟨path, params, query, fragment, hres⟩ := exists_resource rest
      exact ⟨_, .http hws hs hhead hscheme hftp hlead hauth hres⟩
  have heq := hp'.parse
  rw [hrun] at heq
  exact some.inj heq ▸ hp'

/-! ### Storing them -/

/-- `mime_str_u16_set` of a component: the length goes from `int` to 16 bits. -/
def strU16 (s : Bytes) : Bytes := s.take (s.length % 2 ^ 16)

/-- A component of length 0 is a null pointer. -/
def strSet (s : Bytes) : Option Bytes :=
  if toInt32 s.length = 0 then none else some (strU16 s)

/-- Parameters, queries and fragments are set at every length. -/
def strKeep (s : Bytes) : Option Bytes := some (strU16 s)

def urlHostSet (s : Bytes) : Option Bytes :=
  if toInt32 s.length ≤ 0 then none else some (strU16 s)

def isDigit (c : UInt8) : Bool := 48 ≤ c && c ≤ 57

def portNumber (s : Bytes) : UInt16 :=
  ((s.take (toInt32 s.length).toNat).takeWhile isDigit).foldl
    (fun n c => n * 10 + (c.toUInt16 - 48)) 0

def urlType (idx : Option Nat) : URLType :=
  match idx.map hdrtokenIndexToWks with
  | none => .none
  | some wks =>
    if wks = strBytes "ftp" then .ftp
    else if wks = strBytes "mms" then .mms
    else if wks = strBytes "mmsu" then .mmsu
    else if wks = strBytes "mmst" then .mmst
    else if wks = strBytes "rtsp" then .rtsp
    else if wks = strBytes "https" then .https
    else .http

def stored (p : Pieces) : URLImpl (Option Bytes) where
  scheme := p.scheme.bind strSet
  user := p.user.bind strSet
  password := p.password.bind strSet
  host := p.host.bind urlHostSet
  portStr := p.port.bind strSet
  path := p.path.bind strSet
  params := p.params.bind strKeep
  query := p.query.bind strKeep
  fragment := p.fragment.bind strKeep
  schemeWksIdx := p.schemeWksIdx
  port := (p.port.map portNumber).getD 0
  urlType := urlType p.schemeWksIdx
  typeCode := p.typeCode.getD 0

def urlRecord (text : Bytes) : Option (URLImpl (Option Bytes)) := (urlParse text).map stored

/-! ### What is exact -/

def Pieces.list (p : Pieces) : List (Option Bytes) :=
  [p.scheme, p.user, p.password, p.host, p.port, p.path, p.params, p.query, p.fragment]

def recorded (url : URLImpl (Option Bytes)) : List (Option Bytes) :=
  [url.scheme, url.user, url.password, url.host, url.portStr, url.path, url.params, url.query, url.fragment]

def portValue (port : Option Bytes) : Nat :=
  ((port.getD []).takeWhile isDigit).foldl (fun n c => n * 10 + (c.toNat - 48)) 0

/-- A text that is accepted is stored with the lengths of its pieces and the value of its port. -/
def StoredExact (text : Bytes) : Prop :=
  ∀ url, urlRecord text = some url → ∃ p, Spells text p ∧
    (recorded url).map strLen = p.list.map strLen ∧ url.port.toNat = portValue p.port

variable {f : Bytes → Option Bytes}

theorem length_strU16 (s : Bytes) : (strU16 s).length = s.length % 2 ^ 16 := by
  rw [strU16, length_take]
  exact min_eq_left (Nat.mod_le ..)

/-- A setter that stores a length of 16 bits. -/
structure Setter (f : Bytes → Option Bytes) : Prop where
  lt : ∀ s, strLen (f s) < 2 ^ 16
  eq : ∀ s, s.length < 2 ^ 16 → strLen (f s) = s.length

theorem strLen_strU16 (s : Bytes) : strLen (some (strU16 s)) = s.length % 2 ^ 16 := length_strU16 s

theorem setter_ite {P : Int → Prop} [DecidablePred P] (hP : ∀ n : Nat, P n → n = 0)
    (hf : ∀ s, f s = if P (toInt32 s.length) then none else some (strU16 s)) : Setter f := by
  constructor
  · intro s
    rw [hf]
    split
    · exact Nat.two_pow_pos 16
    · rw [strLen_strU16]
      exact Nat.mod_lt _ (Nat.two_pow_pos 16)
  · intro s hs
    rw [hf, toInt32_of_mem (by omega) (by omega)]
    split
    · next h => exact (hP _ h).symm
    · rw [strLen_strU16, Nat.mod_eq_of_lt hs]

theorem setter_strSet : Setter strSet := setter_ite (P := (· = 0)) (fun _ h => Int.natCast_eq_zero.1 h) fun _ => rfl

theorem setter_urlHostSet : Setter urlHostSet := setter_ite (P := (· ≤ 0)) (fun _ h => by omega) fun _ => rfl

theorem setter_strKeep : Setter strKeep :=
  setter_ite (P := fun _ => False) (fun _ h => h.elim) fun _ => (if_neg id).symm

theorem Setter.bind_iff (hf : Setter f) (o : Option Bytes) :
    strLen (o.bind f) = strLen o ↔ strLen o < 2 ^ 16 := by
  cases o with
  | none => exact iff_of_true rfl (Nat.two_pow_pos 16)
  | some s => exact ⟨fun h => h ▸ hf.lt s, hf.eq s⟩

theorem recorded_stored_iff (p : Pieces) :
    (recorded (stored p)).map strLen = p.list.map strLen ↔ ∀ s ∈ p.list, strLen s < 2 ^ 16 := by
  simp only [recorded, Pieces.list, stored, map_cons, map_nil, cons.injEq, forall_mem_cons, setter_strSet.bind_iff,
    setter_urlHostSet.bind_iff, setter_strKeep.bind_iff, not_mem_nil, false_imp_iff, implies_true, and_true]

theorem foldl_digits (l : Bytes) (hl : ∀ c ∈ l, isDigit c = true) (n : UInt16) (m : Nat)
    (h : n.toNat = m % 2 ^ 16) : (l.foldl (fun n c => n * 10 + (c.toUInt16 - 48)) n).toNat =
      l.foldl (fun n c => n * 10 + (c.toNat - 48)) m % 2 ^ 16 := by
  induction l generalizing n m with
  | nil => exact h
  | cons c l ih =>
    refine ih (fun c hc => hl c (mem_cons_of_mem _ hc)) _ _ ?_
    have hc := hl c mem_cons_self
    simp only [isDigit, Bool.and_eq_true, decide_eq_true_eq] at hc
    have hlow : 48 ≤ c.toNat := hc.1
    have hsub : (c.toUInt16 - 48).toNat = c.toNat - 48 := by
      rw [UInt16.toNat_sub_of_le _ _ (by rw [UInt16.le_iff_toNat_le]; exact hlow)]
      rfl
    rw [UInt16.toNat_add, UInt16.toNat_mul, hsub, h]
    show (m % 2 ^ 16 * 10 % 2 ^ 16 + (c.toNat - 48)) % 2 ^ 16 = (m * 10 + (c.toNat - 48)) % 2 ^ 16
    omega

theorem portNumber_eq (h : s.length < 2 ^ 16) : (portNumber s).toNat = portValue (some s) % 2 ^ 16 := by
  have hint : (toInt32 s.length).toNat = s.length := by
    rw [toInt32_of_mem (by omega) (by omega)]
    rfl
  rw [portNumber, hint, take_length]
  exact foldl_digits _ (fun c hc => all_eq_true.1 all_takeWhile c hc) 0 0 rfl

theorem port_stored_iff (p : Pieces) (hport : strLen p.port < 2 ^ 16) :
    (stored p).port.toNat = portValue p.port ↔ portValue p.port < 2 ^ 16 := by
  refine ⟨fun h => h ▸ (stored p).port.toNat_lt, fun h => ?_⟩
  rw [show (stored p).port = (p.port.map portNumber).getD 0 from rfl]
  cases hp : p.port with
  | none => rfl
  | some s =>
    rw [hp] at hport h
    rw [map_some, getD_some, portNumber_eq (by rwa [strLen] at hport), Nat.mod_eq_of_lt h]

/-- **The components of a URL are stored exactly if and only if** no piece of the text is longer than
65535 bytes and the port is not above 65535, or the text is rejected. -/
theorem storedExact_iff (text : Bytes) : StoredExact text ↔ ∀ p, Spells text p →
      (∀ s ∈ p.list, strLen s < 2 ^ 16) ∧ portValue p.port < 2 ^ 16 := by
  constructor
  · intro h p hp
    obtain ⟨p', hp', hlen, hport⟩ := h (stored p) (by rw [urlRecord, hp.parse]; rfl)
    obtain rfl : p = p' := some.inj (hp.parse.symm.trans hp'.parse)
    have hsmall := (recorded_stored_iff p).1 hlen
    exact ⟨hsmall, (port_stored_iff p (hsmall _ (by simp [Pieces.list]))).1 hport⟩
  · intro h url hurl
    obtain ⟨p, hparse, rfl⟩ := map_eq_some_iff.1 hurl
    have hp := urlParse_eq_some_iff.1 hparse
    obtain ⟨hsmall, hport⟩ := h p hp
    refine ⟨p, hp, (recorded_stored_iff p).2 hsmall, (port_stored_iff p ?_).2 hport⟩
    exact hsmall _ (by simp [Pieces.list])

theorem port65616_not_exact : ¬ StoredExact (strBytes "http://h:65616/") := by
  intro h
  have hparse : urlParse (strBytes "http://h:65616/") =
      some { scheme := some (strBytes "http"), host := some (strBytes "h"),
             port := some (strBytes "65616"), schemeWksIdx := hdrtokenTokenize (strBytes "http") } := by
    decide +kernel
  obtain ⟨p, hp, -, hport⟩ := h _ (by rw [urlRecord, hparse]; rfl)
  obtain rfl := some.inj (hp.parse.symm.trans hparse)
  exact absurd hport (by decide)

end URL

end TrafficServer
