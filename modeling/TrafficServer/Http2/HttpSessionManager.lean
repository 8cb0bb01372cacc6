import Mathlib.Algebra.Group.Nat.Defs
import Mathlib.Data.List.Count
import Mathlib.Logic.Relation

/-!
# Keep-alive connections to origin servers

An `HttpServerSession` is used by one `HttpSM` at a time. Between two transactions it is bound to the
client session of the first one, or it waits in the shared pool of the `HttpSessionManager`: in a
second-level bucket and in the LRU list of the first-level bucket of its address. `acquire_session`
hands out the session bound to the client or one of the pool, `release` puts a session into the pool,
and network events and `purge_keepalives` close sessions of the pool.
-/

namespace TrafficServer

open Function

namespace Http

inductive HSSState
  | init
  | active
  | kaClientSlave
  | kaShared
deriving DecidableEq, Repr

inductive HSMResult
  | done
  | retry
  | notFound
deriving DecidableEq, Repr

/-- The events of a connection. `readReady` brings a number of bytes. -/
inductive NetEvent
  | readReady (bytes : Nat)
  | eos
  | error
  | inactivityTimeout
  | activeTimeout
deriving DecidableEq, Repr

/-- The events that say that the origin sent data or closed the connection. -/
def NetEvent.fromOrigin : NetEvent → Bool
  | .readReady _ | .eos | .error => true
  | .inactivityTimeout | .activeTimeout => false

/-- Who is called back for a connection: the bucket, the client session or the transaction that has
issued the last read on it. -/
inductive Cont (Client Sm : Type)
  | bucket (i : Nat)
  | client (c : Client)
  | sm (m : Sm)

/-- `HttpServerSession`; `serverVc` is `server_vc`, null once the session is closed. -/
structure HttpServerSession (Hash : Type) where
  serverIp : Nat
  serverPort : Int
  hostnameHash : Hash
  hostHashComputed : Bool
  state : HSSState
  privateSession : Bool
  enableOriginConnectionLimiting : Bool
  serverVc : Option Nat

def firstLevelHash (ip : Nat) : Nat := ip % 127

def secondLevelHash (ip : Nat) : Nat := ip % 63

structure SessionBucket where
  lruList : List Nat
  l2Hash : Nat → List Nat

namespace SessionBucket

variable (b : SessionBucket) (j s : Nat)

def insert : SessionBucket :=
  ⟨b.lruList ++ [s], update b.l2Hash j (s :: b.l2Hash j)⟩

def remove : SessionBucket :=
  ⟨b.lruList.erase s, update b.l2Hash j ((b.l2Hash j).erase s)⟩

/-- The lists of a bucket: `none` stands for the LRU list, `some j` for `l2_hash[j]`. -/
def list : Option Nat → List Nat
  | none => b.lruList
  | some j => b.l2Hash j

/-- The lists that a session with the second-level index `j` is in. -/
abbrev Both (j : Nat) (k : Option Nat) : Prop := k = none ∨ k = some j

theorem count_insert (x : Nat) (k : Option Nat) : ((b.insert j s).list k).count x =
    (b.list k).count x + if s = x ∧ Both j k then 1 else 0 := by
  cases k with
  | none => simp [insert, list, Both, List.count_singleton]
  | some k =>
    by_cases hk : k = j
    · simp [insert, list, Both, hk, List.count_cons]
    · simp [insert, list, Both, hk]

theorem count_remove (x : Nat) (k : Option Nat) : ((b.remove j s).list k).count x =
    (b.list k).count x - if s = x ∧ Both j k then 1 else 0 := by
  cases k with
  | none => simp [remove, list, Both, List.count_erase]
  | some k =>
    by_cases hk : k = j
    · simp [remove, list, Both, hk, List.count_erase]
    · simp [remove, list, Both, hk]

end SessionBucket

/-- The sessions and everything that refers to them. A session is known by its number, and so is the
connection it was made with. `serverSession` and `pluginTunnel` belong to the transactions
(`plugin_tunnel_type` is set), `boundSS` to the client sessions. `remoteIp` is `get_remote_ip` of a
connection and `cont` who is called back for it. `eos` says that the origin has closed the connection,
and `readAvail` how many bytes in the `read_buffer` of the session have not been read. -/
structure SessionWorld (Client Sm Hash : Type) where
  sessions : Nat → HttpServerSession Hash
  next : Nat
  remoteIp : Nat → Nat
  cont : Nat → Cont Client Sm
  buckets : Nat → SessionBucket
  serverSession : Sm → Option Nat
  pluginTunnel : Sm → Bool
  boundSS : Client → Option Nat
  shareServerSessions : Bool
  connectionCount : Nat → Int
  eos : Nat → Bool
  readAvail : Nat → Nat

namespace SessionWorld

variable {Client Sm Host Hash : Type} [DecidableEq Client] [DecidableEq Sm] [DecidableEq Hash]
  (mmh : Host → Hash) (w : SessionWorld Client Sm Hash)

def IsOpen (s : Nat) : Prop := (w.sessions s).serverVc = some s
deriving Decidable

def setState (s : Nat) (state : HSSState) : SessionWorld Client Sm Hash :=
  { w with sessions := update w.sessions s { w.sessions s with state := state } }

def setBucket (i : Nat) (b : SessionBucket) : SessionWorld Client Sm Hash :=
  { w with buckets := update w.buckets i b }

def doIoClose (s : Nat) : SessionWorld Client Sm Hash :=
  let x := w.sessions s
  { w with
    sessions := update w.sessions s { x with serverVc := none }
    connectionCount :=
      if x.enableOriginConnectionLimiting = true ∧ 0 < w.connectionCount x.serverIp then
        update w.connectionCount x.serverIp (w.connectionCount x.serverIp - 1)
      else w.connectionCount }

/-- `HttpSessionManager::release_session`; `lock` says whether the lock of the bucket was free. -/
def releaseSession (s : Nat) (lock : Bool) : SessionWorld Client Sm Hash × HSMResult :=
  let ip := (w.sessions s).serverIp
  if lock then
    let w := w.setBucket (firstLevelHash ip)
      ((w.buckets (firstLevelHash ip)).insert (secondLevelHash ip) s)
    let w := w.setState s .kaShared
    ({ w with cont := update w.cont s (.bucket (firstLevelHash ip)) }, .done)
  else (w, .retry)

def release (s : Nat) (lock : Bool) : SessionWorld Client Sm Hash :=
  let w := w.setState s .kaShared
  if (w.sessions s).privateSession = true ∨ w.shareServerSessions = false then w.doIoClose s
  else
    match w.releaseSession s lock with
    | (w, .retry) => w.doIoClose s
    | (w, _) => w

def attachServerSession (m : Sm) (s : Nat) : SessionWorld Client Sm Hash :=
  { w with
    sessions := update w.sessions s
      { w.sessions s with
        privateSession := (w.sessions s).privateSession || w.pluginTunnel m }
    serverSession := update w.serverSession m (some s)
    cont := update w.cont s (.sm m) }

/-- `HttpClientSession::attach_server_session` with a session. -/
def attachToClient (c : Client) (s : Nat) : SessionWorld Client Sm Hash :=
  { w.setState s .kaClientSlave with
    boundSS := update w.boundSS c (some s)
    cont := update w.cont s (.client c) }

/-- `HttpClientSession::attach_server_session` with a null pointer. -/
def detachFromClient (c : Client) : SessionWorld Client Sm Hash :=
  { w with boundSS := update w.boundSS c none }

def Matches (ip : Nat) (port : Int) (hostname : Host) (s : Nat) : Prop :=
  (w.sessions s).serverIp = ip ∧ (w.sessions s).serverPort = port ∧
    mmh hostname = (w.sessions s).hostnameHash

instance (ip : Nat) (port : Int) (hostname : Host) (s : Nat) :
    Decidable (w.Matches mmh ip port hostname s) :=
  inferInstanceAs (Decidable (_ ∧ _ ∧ _))

/-- The second part of `acquire_session`, for the shared pool. -/
def acquireShared (m : Sm) (ip : Nat) (port : Int) (hostname : Host) (lock : Bool) :
    SessionWorld Client Sm Hash × HSMResult :=
  let bucket := w.buckets (firstLevelHash ip)
  if lock then
    match (bucket.l2Hash (secondLevelHash ip)).find? (w.Matches mmh ip port hostname ·) with
    | some b =>
      let w := w.setBucket (firstLevelHash ip) (bucket.remove (secondLevelHash ip) b)
      ((w.setState b .active).attachServerSession m b, .done)
    | none => (w, .notFound)
  else (w, .retry)

/-- `HttpSessionManager::acquire_session`; the first lock is that of the bucket of the session that is
bound to the client session, if it has to be released. -/
def acquireSession (m : Sm) (c : Client) (ip : Nat) (port : Int) (hostname : Host)
    (lockRelease lock : Bool) : SessionWorld Client Sm Hash × HSMResult :=
  match w.boundSS c with
  | some s =>
    let w := w.detachFromClient c
    if w.Matches mmh ip port hostname s then
      ((w.setState s .active).attachServerSession m s, .done)
    else (w.release s lockRelease).acquireShared mmh m ip port hostname lock
  | none => w.acquireShared mmh m ip port hostname lock

/-- `SessionBucket::session_handler` of bucket `i` for the connection `vc`. -/
def sessionHandler (originMinKeepAlive : Int) (i : Nat) (event : NetEvent) (vc : Nat) :
    SessionWorld Client Sm Hash :=
  let bucket := w.buckets i
  let l2Index := secondLevelHash (w.remoteIp vc)
  match (bucket.l2Hash l2Index).find? fun s => (w.sessions s).serverVc = some vc with
  | some s =>
    let x := w.sessions s
    if (event = .inactivityTimeout ∨ event = .activeTimeout) ∧ x.state = .kaShared ∧
        x.enableOriginConnectionLimiting = true ∧
        w.connectionCount x.serverIp ≤ originMinKeepAlive then w
    else (w.setBucket i (bucket.remove l2Index s)).doIoClose s
  | none => w

def stateSlaveKeepAlive (c : Client) (event : NetEvent) (lock : Bool) : SessionWorld Client Sm Hash :=
  match w.boundSS c with
  | some s =>
    if event.fromOrigin then (w.doIoClose s).detachFromClient c
    else (w.release s lock).detachFromClient c
  | none => w

def arrive (event : NetEvent) (vc : Nat) : SessionWorld Client Sm Hash :=
  { w with
    eos := if event = .eos ∨ event = .error then update w.eos vc true else w.eos
    readAvail :=
      match event with
      | .readReady bytes => update w.readAvail vc (w.readAvail vc + bytes)
      | _ => w.readAvail }

/-- An event of the connection `vc` is delivered to whoever has issued the last read. What a transaction
does then are steps of its own. -/
def netEvent (originMinKeepAlive : Int) (event : NetEvent) (vc : Nat) (lock : Bool) :
    SessionWorld Client Sm Hash :=
  match w.cont vc with
  | .bucket i => (w.arrive event vc).sessionHandler originMinKeepAlive i event vc
  | .client c => (w.arrive event vc).stateSlaveKeepAlive c event lock
  | .sm _ => w.arrive event vc

def purgeBucket (i : Nat) : List Nat → SessionWorld Client Sm Hash → SessionWorld Client Sm Hash
  | [], w => w
  | s :: rest, w =>
    purgeBucket i rest ((w.setBucket i ((w.buckets i).remove
      (secondLevelHash (w.sessions s).serverIp) s)).doIoClose s)

/-- `HttpSessionManager::purge_keepalives`; `locks` has the buckets whose lock was free. -/
def purgeKeepalives (locks : Nat → Bool) : SessionWorld Client Sm Hash :=
  (List.range 127).foldl
    (fun w i => if locks i then purgeBucket i (w.buckets i).lruList w else w) w

def attachHostname (s : Nat) (hostname : Host) : SessionWorld Client Sm Hash :=
  let x := w.sessions s
  if x.hostHashComputed then w
  else
    { w with
      sessions := update w.sessions s
        { x with hostnameHash := mmh hostname, hostHashComputed := true } }

/-- `NET_EVENT_OPEN` in `HttpSM::state_http_server_open`: a new connection to the address that the
transaction has asked for. -/
def newConnection [Inhabited Hash] (m : Sm) (ip : Nat) (port : Int) (limiting : Bool) :
    SessionWorld Client Sm Hash :=
  attachServerSession
    { w with
      sessions := update w.sessions w.next
        ⟨ip, port, default, false, .active, false, limiting, some w.next⟩
      next := w.next + 1
      remoteIp := update w.remoteIp w.next ip
      eos := update w.eos w.next false
      readAvail := update w.readAvail w.next 0
      connectionCount :=
        if limiting then update w.connectionCount ip (w.connectionCount ip + 1)
        else w.connectionCount } m w.next

def leave (m : Sm) : SessionWorld Client Sm Hash :=
  { w with serverSession := update w.serverSession m none }

/-- The origin has not closed the connection, and nothing that it sent has been left unread. -/
def Clean (s : Nat) : Prop := w.eos s = false ∧ w.readAvail s = 0

/-- What can happen to the sessions. The transactions are those of `HttpSM`: they ask for a session
when they have none, and keep a session alive only if `plugin_tunnel_type` is
`HTTP_NO_PLUGIN_TUNNEL`; the end of a tunnel (`tunnel_handler_server`) looks at `eos`, and
`release_server_session`, for a response that is not tunnelled, does not. No transaction looks at what
is unread. The sessions that are kept are those of `kept`. -/
inductive Step [Inhabited Hash] (kept : SessionWorld Client Sm Hash → Nat → Prop) :
    SessionWorld Client Sm Hash → SessionWorld Client Sm Hash → Prop
  | begin (w : SessionWorld Client Sm Hash) (m : Sm) (plugin : Bool) (hm : w.serverSession m = none) :
      Step kept w { w with pluginTunnel := update w.pluginTunnel m plugin }
  | connect (w : SessionWorld Client Sm Hash) (m : Sm) (ip : Nat) (port : Int) (limiting : Bool)
      (hm : w.serverSession m = none) : Step kept w (w.newConnection m ip port limiting)
  | acquire (w : SessionWorld Client Sm Hash) (m : Sm) (c : Client) (ip : Nat) (port : Int)
      (hostname : Host) (lockRelease lock : Bool) (hm : w.serverSession m = none) :
      Step kept w (w.acquireSession mmh m c ip port hostname lockRelease lock).1
  /-- `do_http_server_open` with `share_server_sessions` off -/
  | reuse (w : SessionWorld Client Sm Hash) (m : Sm) (c : Client) (s : Nat)
      (hm : w.serverSession m = none) (hc : w.boundSS c = some s) :
      Step kept w (((w.detachFromClient c).setState s .active).attachServerSession m s)
  | close (w : SessionWorld Client Sm Hash) (m : Sm) (s : Nat) (hm : w.serverSession m = some s) :
      Step kept w ((w.doIoClose s).leave m)
  | consume (w : SessionWorld Client Sm Hash) (m : Sm) (s bytes : Nat) (hm : w.serverSession m = some s) :
      Step kept w { w with readAvail := update w.readAvail s (w.readAvail s - bytes) }
  | keep (w : SessionWorld Client Sm Hash) (m : Sm) (s : Nat) (hostname : Host) (tunnel lock : Bool)
      (hm : w.serverSession m = some s) (hplugin : w.pluginTunnel m = false)
      (htunnel : tunnel = true → w.eos s = false) (hkept : kept w s) :
      Step kept w (((w.attachHostname mmh s hostname).leave m).release s lock)
  | bind (w : SessionWorld Client Sm Hash) (m : Sm) (s : Nat) (hostname : Host) (c : Client)
      (tunnel : Bool) (hm : w.serverSession m = some s) (hplugin : w.pluginTunnel m = false)
      (hc : w.boundSS c = none) (htunnel : tunnel = true → w.eos s = false) (hkept : kept w s) :
      Step kept w (((w.attachHostname mmh s hostname).leave m).attachToClient c s)
  /-- the client session is closed, or its session is not wanted -/
  | releaseBound (w : SessionWorld Client Sm Hash) (c : Client) (s : Nat) (lock : Bool)
      (hc : w.boundSS c = some s) : Step kept w ((w.release s lock).detachFromClient c)
  | netEvent (w : SessionWorld Client Sm Hash) (originMinKeepAlive : Int) (event : NetEvent) (vc : Nat)
      (lock : Bool) (hvc : w.IsOpen vc) : Step kept w (w.netEvent originMinKeepAlive event vc lock)
  | purge (w : SessionWorld Client Sm Hash) (locks : Nat → Bool) : Step kept w (w.purgeKeepalives locks)
  | configure (w : SessionWorld Client Sm Hash) (share : Bool) :
      Step kept w { w with shareServerSessions := share }

/-- No session has been made. -/
structure Init : Prop where
  sessions : ∀ s, (w.sessions s).serverVc = none
  buckets : ∀ i, w.buckets i = ⟨[], fun _ => []⟩
  serverSession : ∀ m, w.serverSession m = none
  boundSS : ∀ c, w.boundSS c = none

def Reachable [Inhabited Hash] (kept : SessionWorld Client Sm Hash → Nat → Prop) : Prop :=
  ∃ w₀ : SessionWorld Client Sm Hash, w₀.Init ∧ Relation.ReflTransGen (Step mmh kept) w₀ w

end SessionWorld

end Http

end TrafficServer
