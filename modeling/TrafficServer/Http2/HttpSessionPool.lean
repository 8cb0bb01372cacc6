import TrafficServer.Http2.HttpSessionManager

/-!
# Keep-alive connections are reused safely

An operation takes a session out of one place and puts it into another, or closes it. So the invariant
has a session in transit as a parameter, and is proved once for each place. That a session is clean when
it is handed out follows only for runs in which the transactions keep clean sessions, which they do not
see to.
-/

namespace TrafficServer

open Option List Function Relation

namespace Http

namespace SessionWorld

variable {Client Sm Host Hash : Type} {mmh : Host → Hash} {w : SessionWorld Client Sm Hash}
  {t : Option Nat} {s : Nat} {g : Prop} {kept : SessionWorld Client Sm Hash → Nat → Prop}

def Pooled (w : SessionWorld Client Sm Hash) (t : Option Nat) (s : Nat) : Prop :=
  t ≠ some s ∧ w.IsOpen s ∧ (w.sessions s).state = .kaShared
deriving Decidable

/-- The continuation of the connection of `s` is where the session is. -/
def AtCont (w : SessionWorld Client Sm Hash) (s : Nat) : Cont Client Sm → Prop
  | .bucket i => (w.sessions s).state = .kaShared ∧ i = firstLevelHash (w.sessions s).serverIp
  | .client c => w.boundSS c = some s
  | .sm m => w.serverSession m = some s

def Waiting (w : SessionWorld Client Sm Hash) (s : Nat) : Prop := w.IsOpen s ∧ (w.sessions s).state ≠ .active

/-- Every open session but the one in transit is in the pool, bound to one client session or used by one
transaction, and its state and its continuation say which. If `g` holds, those that wait are clean. -/
structure Inv (g : Prop) (w : SessionWorld Client Sm Hash) (t : Option Nat) : Prop where
  vc : ∀ s v, (w.sessions s).serverVc = some v →
    v = s ∧ s < w.next ∧ w.remoteIp s = (w.sessions s).serverIp
  transit : ∀ s, t = some s → w.IsOpen s
  lruList : ∀ s i, (w.buckets i).lruList.count s =
    if w.Pooled t s ∧ i = firstLevelHash (w.sessions s).serverIp then 1 else 0
  l2Hash : ∀ s i j, ((w.buckets i).l2Hash j).count s =
    if w.Pooled t s ∧ i = firstLevelHash (w.sessions s).serverIp ∧
      j = secondLevelHash (w.sessions s).serverIp then 1 else 0
  held : ∀ m s, w.serverSession m = some s →
    t ≠ some s ∧ w.IsOpen s ∧ (w.sessions s).state = .active ∧ w.cont s = .sm m
  bound : ∀ c s, w.boundSS c = some s →
    t ≠ some s ∧ w.IsOpen s ∧ (w.sessions s).state = .kaClientSlave ∧ w.cont s = .client c
  atCont : ∀ s, t ≠ some s → w.IsOpen s → w.AtCont s (w.cont s)
  privateSession : ∀ s, t ≠ some s → w.IsOpen s → (w.sessions s).privateSession = true →
    ∃ m, w.serverSession m = some s ∧ w.pluginTunnel m = true
  clean : ∀ s, t ≠ some s → w.Waiting s → g → w.Clean s

variable {port : Int} {ip : Nat}

theorem Init.not_isOpen (h : w.Init) (s : Nat) : ¬w.IsOpen s := by
  rw [IsOpen, h.sessions]
  exact (some_ne_none s).symm

theorem buckets_setBucket (i k : Nat) (b : SessionBucket) :
    (w.setBucket i b).buckets k = if k = i then b else w.buckets k :=
  update_apply w.buckets i b k

/-! ### One session -/

/-- What the invariant says of one session. -/
structure InvAt (g : Prop) (w : SessionWorld Client Sm Hash) (t : Option Nat) (s : Nat) : Prop where
  vc : ∀ v, (w.sessions s).serverVc = some v →
    v = s ∧ s < w.next ∧ w.remoteIp s = (w.sessions s).serverIp
  transit : t = some s → w.IsOpen s
  lists : ∀ i k, ((w.buckets i).list k).count s =
    if w.Pooled t s ∧ i = firstLevelHash (w.sessions s).serverIp ∧
      SessionBucket.Both (secondLevelHash (w.sessions s).serverIp) k then 1 else 0
  held : ∀ m, w.serverSession m = some s →
    t ≠ some s ∧ w.IsOpen s ∧ (w.sessions s).state = .active ∧ w.cont s = .sm m
  bound : ∀ c, w.boundSS c = some s →
    t ≠ some s ∧ w.IsOpen s ∧ (w.sessions s).state = .kaClientSlave ∧ w.cont s = .client c
  atCont : t ≠ some s → w.IsOpen s → w.AtCont s (w.cont s)
  privateSession : t ≠ some s → w.IsOpen s → (w.sessions s).privateSession = true →
    ∃ m, w.serverSession m = some s ∧ w.pluginTunnel m = true
  clean : t ≠ some s → w.Waiting s → g → w.Clean s

theorem Inv.of_invAt (h : ∀ s, InvAt g w t s) : Inv g w t where
  vc s := (h s).vc
  transit s := (h s).transit
  lruList s i := by simpa [SessionBucket.list, SessionBucket.Both] using (h s).lists i none
  l2Hash s i j := by simpa [SessionBucket.list, SessionBucket.Both] using (h s).lists i (some j)
  held m s := (h s).held m
  bound c s := (h s).bound c
  atCont s := (h s).atCont
  privateSession s := (h s).privateSession
  clean s := (h s).clean

theorem Inv.lists (h : Inv g w t) (s i : Nat) (k : Option Nat) : ((w.buckets i).list k).count s =
    if w.Pooled t s ∧ i = firstLevelHash (w.sessions s).serverIp ∧
      SessionBucket.Both (secondLevelHash (w.sessions s).serverIp) k then 1 else 0 := by
  cases k with
  | none => simpa [SessionBucket.list, SessionBucket.Both] using h.lruList s i
  | some j => simpa [SessionBucket.list, SessionBucket.Both] using h.l2Hash s i j

/-- The session `s` is in `w'` what and where it is in `w`. -/
structure SameAt (w w' : SessionWorld Client Sm Hash) (t t' : Option Nat) (s : Nat) : Prop where
  session : w'.sessions s = w.sessions s
  transit : t' = some s ↔ t = some s
  next : w.next ≤ w'.next
  remoteIp : w'.remoteIp s = w.remoteIp s
  cont : w'.cont s = w.cont s
  clean : w'.Clean s ↔ w.Clean s
  pluginTunnel : w'.pluginTunnel = w.pluginTunnel
  lists : ∀ i k, ((w'.buckets i).list k).count s = ((w.buckets i).list k).count s
  server : ∀ m, w'.serverSession m = some s ↔ w.serverSession m = some s
  bound : ∀ c, w'.boundSS c = some s ↔ w.boundSS c = some s

/-- No list, no transaction and no client session has the session. -/
structure Nowhere (w : SessionWorld Client Sm Hash) (s : Nat) : Prop where
  lists : ∀ i k, ((w.buckets i).list k).count s = 0
  server : ∀ m, w.serverSession m ≠ some s
  bound : ∀ c, w.boundSS c ≠ some s

variable {m : Sm} {c : Client}

section One
variable {w' : SessionWorld Client Sm Hash} {t' : Option Nat}

theorem SameAt.invAt (hs : SameAt w w' t t' s) (h : Inv g w t) : InvAt g w' t' s := by
  have hopen : w'.IsOpen s ↔ w.IsOpen s := by rw [IsOpen, IsOpen, hs.session]
  have ht : t' ≠ some s ↔ t ≠ some s := hs.transit.not
  have hpool : w'.Pooled t' s ↔ w.Pooled t s := by rw [Pooled, Pooled, ht, hopen, hs.session]
  constructor
  case vc =>
    intro v hv
    rw [hs.session] at hv ⊢
    obtain ⟨hvs, hlt, hip⟩ := h.vc s v hv
    exact ⟨hvs, Nat.lt_of_lt_of_le hlt hs.next, hs.remoteIp.trans hip⟩
  case transit => exact fun hts => hopen.mpr (h.transit s (hs.transit.mp hts))
  case lists =>
    intro i k
    rw [hs.lists, h.lists]
    simp only [hpool, hs.session]
  case held =>
    intro m hm
    rw [ht, hopen, hs.session, hs.cont]
    exact h.held m s ((hs.server m).mp hm)
  case bound =>
    intro c hc
    rw [ht, hopen, hs.session, hs.cont]
    exact h.bound c s ((hs.bound c).mp hc)
  case atCont =>
    intro hts ho
    have hat := h.atCont s (ht.mp hts) (hopen.mp ho)
    rw [hs.cont]
    cases hc : w.cont s <;> rw [hc] at hat
    case bucket => rwa [AtCont, hs.session]
    case client c => exact (hs.bound c).mpr hat
    case sm m => exact (hs.server m).mpr hat
  case privateSession =>
    intro hts ho hp
    rw [hs.session] at hp
    obtain ⟨m, hm, hplugin⟩ := h.privateSession s (ht.mp hts) (hopen.mp ho) hp
    exact ⟨m, (hs.server m).mpr hm, hs.pluginTunnel ▸ hplugin⟩
  case clean =>
    intro hts hw hg
    rw [Waiting, hopen, hs.session] at hw
    exact hs.clean.2 (h.clean s (ht.mp hts) hw hg)

theorem Inv.nowhere (h : Inv g w (some s)) : w.Nowhere s where
  lists i k := by rw [h.lists, if_neg fun hp => hp.1.1 rfl]
  server m hm := (h.held m s hm).1 rfl
  bound c hc := (h.bound c s hc).1 rfl

theorem Nowhere.invAt (hn : w.Nowhere s) (ht : t = some s ↔ w.IsOpen s) (hvc : ∀ v, (w.sessions s).serverVc = some v →
      v = s ∧ s < w.next ∧ w.remoteIp s = (w.sessions s).serverIp) : InvAt g w t s where
  vc := hvc
  transit := ht.mp
  lists i k := by rw [hn.lists, if_neg fun hp => hp.1.1 (ht.mpr hp.1.2.1)]
  held m hm := absurd hm (hn.server m)
  bound c hc := absurd hc (hn.bound c)
  atCont hts ho := absurd (ht.mpr ho) hts
  privateSession hts ho := absurd (ht.mpr ho) hts
  clean hts hw := absurd (ht.mpr hw.1) hts

theorem Inv.change (h : Inv g w t) (hothers : ∀ x, x ≠ s → SameAt w w' t t' x)
    (hself : InvAt g w' t' s) : Inv g w' t' := by
  refine .of_invAt fun x => ?_
  by_cases hx : x = s
  · exact hx ▸ hself
  · exact (hothers x hx).invAt h

end One

namespace Inv

theorem init (h : w.Init) : Inv g w none := by
  refine .of_invAt fun s => Nowhere.invAt ⟨?_, ?_, ?_⟩ ?_ ?_
  · intro i k
    rw [h.buckets]
    cases k <;> rfl
  · intro m
    rw [h.serverSession]
    exact (some_ne_none s).symm
  · intro c
    rw [h.boundSS]
    exact (some_ne_none s).symm
  · exact iff_of_false (some_ne_none s).symm (h.not_isOpen s)
  · intro v hv
    rw [h.sessions] at hv
    cases hv

/-! ### Taking a session out of its place -/

variable {w' : SessionWorld Client Sm Hash}

theorem take (h : Inv g w none) (hopen : w.IsOpen s)
    (hothers : ∀ x, x ≠ s → SameAt w w' none (some s) x) (hsession : w'.sessions s = w.sessions s)
    (hsame : w'.next = w.next ∧ w'.remoteIp = w.remoteIp) (hn : w'.Nowhere s) : Inv g w' (some s) := by
  refine h.change hothers (hn.invAt (iff_of_true rfl ?_) ?_)
  · rwa [IsOpen, hsession]
  · rw [hsession, hsame.1, hsame.2]
    exact h.vc s

theorem not_held (h : Inv g w none) (hstate : (w.sessions s).state ≠ .active) (m : Sm) : w.serverSession m ≠ some s :=
  fun hm => hstate (h.held m s hm).2.2.1

theorem not_bound (h : Inv g w none) (hstate : (w.sessions s).state ≠ .kaClientSlave) (c : Client) :
    w.boundSS c ≠ some s :=
  fun hc => hstate (h.bound c s hc).2.2.1

theorem count_of_not_pooled (h : Inv g w none) (hstate : (w.sessions s).state ≠ .kaShared) (i : Nat)
    (k : Option Nat) : ((w.buckets i).list k).count s = 0 := by
  rw [h.lists, if_neg fun hp => hstate hp.1.2.2]

theorem transit_iff {x : Nat} (hx : x ≠ s) : some s = some x ↔ none = some x :=
  iff_of_false (fun heq => hx (some.inj heq).symm) (some_ne_none x).symm

theorem detachFromClient [DecidableEq Client] (h : Inv g w none) (hc : w.boundSS c = some s) :
    Inv g (w.detachFromClient c) (some s) := by
  obtain ⟨-, hopen, hstate, hcont⟩ := h.bound c s hc
  refine h.take hopen (fun x hx => ?_) rfl ⟨rfl, rfl⟩ ?_
  · refine ⟨rfl, transit_iff hx, Nat.le_refl _, rfl, rfl, .rfl, rfl, fun _ _ => rfl, fun _ => .rfl, fun d => ?_⟩
    by_cases hdc : d = c
    · simp [SessionWorld.detachFromClient, hdc, hc, hx.symm]
    · simp [SessionWorld.detachFromClient, hdc]
  · refine ⟨h.count_of_not_pooled (by simp [hstate]), h.not_held (by simp [hstate]), fun d => ?_⟩
    have hd := h.bound d s
    simp only [SessionWorld.detachFromClient, update_apply]
    grind

theorem leave [DecidableEq Sm] (h : Inv g w none) (hm : w.serverSession m = some s) : Inv g (w.leave m) (some s) := by
  obtain ⟨-, hopen, hstate, hcont⟩ := h.held m s hm
  refine h.take hopen (fun x hx => ?_) rfl ⟨rfl, rfl⟩ ?_
  · refine ⟨rfl, transit_iff hx, Nat.le_refl _, rfl, rfl, .rfl, rfl, fun _ _ => rfl, fun n => ?_, fun _ => .rfl⟩
    by_cases hnm : n = m
    · simp [SessionWorld.leave, hnm, hm, hx.symm]
    · simp [SessionWorld.leave, hnm]
  · refine ⟨h.count_of_not_pooled (by simp [hstate]), fun n => ?_, h.not_bound (by simp [hstate])⟩
    have hn := h.held n s
    simp only [SessionWorld.leave, update_apply]
    grind

theorem removePooled (h : Inv g w none) (hs : w.Pooled none s) :
    Inv g (w.setBucket (firstLevelHash (w.sessions s).serverIp)
      ((w.buckets (firstLevelHash (w.sessions s).serverIp)).remove
        (secondLevelHash (w.sessions s).serverIp) s)) (some s) := by
  obtain ⟨-, hopen, hstate⟩ := hs
  refine h.take hopen (fun x hx => ?_) rfl ⟨rfl, rfl⟩ ?_
  · refine ⟨rfl, transit_iff hx, Nat.le_refl _, rfl, rfl, .rfl, rfl, fun i k => ?_, fun _ => .rfl, fun _ => .rfl⟩
    rw [buckets_setBucket]
    split_ifs with hi
    · rw [SessionBucket.count_remove, if_neg fun heq => hx heq.1.symm, hi, Nat.sub_zero]
    · rfl
  · refine ⟨fun i k => ?_, h.not_held (by simp [hstate]), h.not_bound (by simp [hstate])⟩
    rw [buckets_setBucket]
    split_ifs with hi
    · rw [SessionBucket.count_remove, h.lists]
      grind
    · rw [h.lists, if_neg fun hp => hi hp.2.1]

/-! ### Putting a session into a place -/

variable {y : HttpServerSession Hash}

theorem setRecord (h : Inv g w t) (hother : ∀ x, t ≠ some x → w.IsOpen x → x ≠ s)
    (ht : ∀ x, t = some x → x = s) (hsessions : w'.sessions = update w.sessions s y)
    (hvc : y.serverVc = some s) (hnext : w.next ≤ w'.next ∧ s < w'.next)
    (hremote : w'.remoteIp = update w.remoteIp s y.serverIp)
    (hsame : w'.buckets = w.buckets ∧ w'.serverSession = w.serverSession ∧ w'.boundSS = w.boundSS ∧
      w'.cont = w.cont ∧ w'.pluginTunnel = w.pluginTunnel)
    (hclean : ∀ x, x ≠ s → (w'.Clean x ↔ w.Clean x)) : Inv g w' (some s) := by
  obtain ⟨hbuckets, hserver, hbound, hcont, hplugin⟩ := hsame
  have hself : w'.sessions s = y := by rw [hsessions, update_self]
  refine h.change (s := s) (fun x hx => ?_) (Nowhere.invAt ⟨?_, ?_, ?_⟩ ?_ ?_)
  · refine ⟨by rw [hsessions, update_of_ne hx],
      iff_of_false (fun heq => hx (some.inj heq).symm) fun htx => hx (ht x htx), hnext.1,
      by rw [hremote, update_of_ne hx], by rw [hcont], hclean x hx, hplugin, ?_, ?_, ?_⟩
    · simp [hbuckets]
    · simp [hserver]
    · simp [hbound]
  · intro i k
    rw [hbuckets, h.lists, if_neg fun hp => hother s hp.1.1 hp.1.2.1 rfl]
  · intro m hm
    rw [hserver] at hm
    obtain ⟨hts, hopen, -⟩ := h.held m s hm
    exact hother s hts hopen rfl
  · intro c hc
    rw [hbound] at hc
    obtain ⟨hts, hopen, -⟩ := h.bound c s hc
    exact hother s hts hopen rfl
  · rw [IsOpen, hself]
    exact iff_of_true rfl hvc
  · rw [hself, hremote, update_self]
    exact fun v hv => ⟨some.inj (hv.symm.trans hvc), hnext.2, rfl⟩

section Transit
variable (h : Inv g w (some s))
include h

theorem modify (y : HttpServerSession Hash) (hvc : y.serverVc = some s) (hip : y.serverIp = (w.sessions s).serverIp) :
    Inv g { w with sessions := update w.sessions s y } (some s) := by
  obtain ⟨-, hlt, hremote⟩ := h.vc s s (h.transit s rfl)
  refine h.setRecord (fun x hx _ heq => hx (congrArg some heq.symm)) (fun x hx => (Option.some.inj hx).symm)
    rfl hvc ⟨Nat.le_refl _, hlt⟩ ?_ ⟨rfl, rfl, rfl, rfl, rfl⟩ fun _ _ => .rfl
  rw [hip, ← hremote, update_eq_self]

theorem setState (state : HSSState) : Inv g (w.setState s state) (some s) := h.modify _ (h.transit s rfl) rfl

theorem doIoClose : Inv g (w.doIoClose s) none := by
  have hclosed : ((w.doIoClose s).sessions s).serverVc = none := by simp [SessionWorld.doIoClose]
  have hn := h.nowhere
  refine h.change (s := s) (fun x hx => ?_)
    (Nowhere.invAt ⟨hn.lists, hn.server, hn.bound⟩ ?_ ?_)
  · exact ⟨update_of_ne hx _ _, (transit_iff hx).symm, Nat.le_refl _, rfl, rfl, .rfl, rfl,
      fun _ _ => rfl, fun _ => .rfl, fun _ => .rfl⟩
  · rw [IsOpen, hclosed]
  · intro v hv
    rw [hclosed] at hv
    cases hv

/-- The session in transit is put into a place: its record is `y` then, it is counted in the lists if it
belongs there, and its continuation and its user know each other. -/
theorem settle (hclean : y.state ≠ .active → g → w.Clean s) (hsessions : w'.sessions = update w.sessions s y)
    (hy : y.serverIp = (w.sessions s).serverIp ∧ y.serverVc = (w.sessions s).serverVc)
    (hsame : w'.next = w.next ∧ w'.remoteIp = w.remoteIp ∧ w'.Clean = w.Clean ∧
      w'.pluginTunnel = w.pluginTunnel)
    (hcont : ∀ x, x ≠ s → w'.cont x = w.cont x)
    (hlists : ∀ x i k, ((w'.buckets i).list k).count x = ((w.buckets i).list k).count x +
      if s = x ∧ y.state = .kaShared ∧ i = firstLevelHash y.serverIp ∧
        SessionBucket.Both (secondLevelHash y.serverIp) k then 1 else 0)
    (hserver : ∀ m x, w'.serverSession m = some x ↔
      w.serverSession m = some x ∨ (x = s ∧ y.state = .active ∧ w'.cont s = .sm m))
    (hbound : ∀ c x, w'.boundSS c = some x ↔
      w.boundSS c = some x ∨ (x = s ∧ y.state = .kaClientSlave ∧ w'.cont s = .client c))
    (hat : w'.AtCont s (w'.cont s))
    (hprivate : y.privateSession = true → ∃ m, w'.serverSession m = some s ∧ w'.pluginTunnel m = true) :
    Inv g w' none := by
  obtain ⟨hnext, hremote, hsameClean, hplugin⟩ := hsame
  have hn := h.nowhere
  have hself : w'.sessions s = y := by rw [hsessions, update_self]
  have hopen : w'.IsOpen s := by
    rw [IsOpen, hself, hy.2]
    exact h.transit s rfl
  have hpool : w'.Pooled none s ↔ y.state = .kaShared := by
    rw [Pooled, hself]
    exact ⟨fun hp => hp.2.2, fun hp => ⟨(some_ne_none s).symm, hopen, hp⟩⟩
  refine h.change (s := s) (fun x hx => ?_) ?_
  · have hsx : s ≠ x := hx.symm
    refine ⟨by rw [hsessions, update_of_ne hx], (transit_iff hx).symm, Nat.le_of_eq hnext.symm, by rw [hremote],
      hcont x hx, by rw [hsameClean], hplugin, fun i k => ?_, fun m => ?_, fun c => ?_⟩
    · rw [hlists, if_neg fun hp => hsx hp.1, Nat.add_zero]
    · rw [hserver, or_iff_left fun hp => hx hp.1]
    · rw [hbound, or_iff_left fun hp => hx hp.1]
  · constructor
    case vc =>
      rw [hself, hy.1, hy.2, hnext, hremote]
      exact h.vc s
    case transit => exact fun hs => absurd hs.symm (some_ne_none s)
    case lists =>
      intro i k
      rw [hlists, hn.lists, zero_add, hself]
      simp only [hpool, true_and]
    case held =>
      intro m hm
      obtain ⟨-, hstate, hsm⟩ := ((hserver m s).mp hm).resolve_left (hn.server m)
      exact ⟨(some_ne_none s).symm, hopen, hself.symm ▸ hstate, hsm⟩
    case bound =>
      intro c hc
      obtain ⟨-, hstate, hclient⟩ := ((hbound c s).mp hc).resolve_left (hn.bound c)
      exact ⟨(some_ne_none s).symm, hopen, hself.symm ▸ hstate, hclient⟩
    case atCont => exact fun _ _ => hat
    case privateSession =>
      intro _ _ hp
      rw [hself] at hp
      exact hprivate hp
    case clean =>
      intro _ hw hg
      rw [hsameClean]
      exact hclean (hself ▸ hw.2) hg

theorem releaseSession (hprivate : (w.sessions s).privateSession = false)
    (hclean : g → w.Clean s) : Inv g (w.releaseSession s true).1 none := by
  apply h.settle (y := { w.sessions s with state := .kaShared }) fun _ => hclean
  case hsessions => rfl
  case hy => exact ⟨rfl, rfl⟩
  case hsame => exact ⟨rfl, rfl, rfl, rfl⟩
  case hcont => exact fun x hx => update_of_ne hx _ _
  case hlists =>
    intro x i k
    by_cases hi : i = firstLevelHash (w.sessions s).serverIp
    · simp [SessionWorld.releaseSession, SessionWorld.setState, setBucket, hi, SessionBucket.count_insert]
    · simp [SessionWorld.releaseSession, SessionWorld.setState, setBucket, hi]
  case hserver => exact fun m x => (or_iff_left fun hp => HSSState.noConfusion hp.2.1).symm
  case hbound => exact fun c x => (or_iff_left fun hp => HSSState.noConfusion hp.2.1).symm
  case hat => simp [SessionWorld.releaseSession, SessionWorld.setState, setBucket, AtCont]
  case hprivate => exact fun hp => absurd hp (by simp [hprivate])

theorem release (hclean : g → w.Clean s) (lock : Bool) : Inv g (w.release s lock) none := by
  have hset := h.setState .kaShared
  simp only [SessionWorld.release]
  split
  · exact hset.doIoClose
  · rename_i hshare
    cases lock with
    | false => exact hset.doIoClose
    | true => exact hset.releaseSession (Bool.eq_false_iff.mpr fun hp => hshare (.inl hp)) hclean

end Transit

theorem update_eq_some_iff {α : Type} [DecidableEq α] {f : α → Option Nat} {a : α} (hf : f a = none)
    (b : α) (x : Nat) : update f a (some s) b = some x ↔ f b = some x ∨ x = s ∧ a = b := by
  by_cases hb : b = a
  · subst hb
    simp [hf, eq_comm]
  · simp [hb, Ne.symm hb]

theorem attachServerSession [DecidableEq Sm] (h : Inv g w (some s)) (hm : w.serverSession m = none)
    (hprivate : (w.sessions s).privateSession = false) :
    Inv g ((w.setState s .active).attachServerSession m s) none := by
  apply h.settle (y := { w.sessions s with
      state := .active
      privateSession := (w.sessions s).privateSession || w.pluginTunnel m }) fun hne => absurd rfl hne
  case hsessions => simp [SessionWorld.attachServerSession, SessionWorld.setState]
  case hy => exact ⟨rfl, rfl⟩
  case hsame => exact ⟨rfl, rfl, rfl, rfl⟩
  case hcont => exact fun x hx => update_of_ne hx _ _
  case hlists => simp [SessionWorld.attachServerSession, SessionWorld.setState]
  case hserver =>
    intro n x
    simpa [SessionWorld.attachServerSession, SessionWorld.setState] using update_eq_some_iff hm n x
  case hbound => exact fun c x => (or_iff_left fun hp => HSSState.noConfusion hp.2.1).symm
  case hat => simp [SessionWorld.attachServerSession, AtCont]
  case hprivate =>
    intro hp
    simp only [hprivate, Bool.false_or] at hp
    exact ⟨m, by simp [SessionWorld.attachServerSession], hp⟩

theorem attachToClient [DecidableEq Client] (h : Inv g w (some s)) (hc : w.boundSS c = none)
    (hprivate : (w.sessions s).privateSession = false) (hclean : g → w.Clean s) :
    Inv g (w.attachToClient c s) none := by
  apply h.settle (y := { w.sessions s with state := .kaClientSlave }) fun _ => hclean
  case hsessions => rfl
  case hy => exact ⟨rfl, rfl⟩
  case hsame => exact ⟨rfl, rfl, rfl, rfl⟩
  case hcont => exact fun x hx => update_of_ne hx _ _
  case hlists => simp [SessionWorld.attachToClient, SessionWorld.setState]
  case hserver => exact fun m x => (or_iff_left fun hp => HSSState.noConfusion hp.2.1).symm
  case hbound =>
    intro d x
    simpa [SessionWorld.attachToClient] using update_eq_some_iff hc d x
  case hat => simp [SessionWorld.attachToClient, AtCont]
  case hprivate => exact fun hp => absurd hp (by simp [hprivate])

/-! ### What holds of a session outside the transactions -/

section
variable (h : Inv g w none)

include h

theorem clean_of_bound (hc : w.boundSS c = some s) : g → w.Clean s := by
  obtain ⟨-, hopen, hstate, -⟩ := h.bound c s hc
  exact h.clean s (some_ne_none _).symm ⟨hopen, by simp [hstate]⟩

theorem not_waiting (hm : w.serverSession m = some s) : ¬w.Waiting s := fun hs => hs.2 (h.held m s hm).2.2.1

theorem not_private (hopen : w.IsOpen s) (hstate : (w.sessions s).state ≠ .active) :
    (w.sessions s).privateSession = false := by
  refine Bool.eq_false_iff.mpr fun hs => ?_
  obtain ⟨m, hm, -⟩ := h.privateSession s (some_ne_none _).symm hopen hs
  exact hstate (h.held m s hm).2.2.1

theorem pooled_of_mem {i : Nat} {k : Option Nat} (hs : s ∈ (w.buckets i).list k) :
    w.Pooled none s ∧ i = firstLevelHash (w.sessions s).serverIp ∧
      SessionBucket.Both (secondLevelHash (w.sessions s).serverIp) k := by
  have hpos := count_pos_iff.mpr hs
  rw [h.lists] at hpos
  by_contra hnot
  rw [if_neg hnot] at hpos
  exact absurd hpos (Nat.lt_irrefl 0)

theorem mem_list (hs : w.Pooled none s) {k : Option Nat}
    (hk : SessionBucket.Both (secondLevelHash (w.sessions s).serverIp) k) :
    s ∈ (w.buckets (firstLevelHash (w.sessions s).serverIp)).list k := by
  rw [← count_pos_iff, h.lists, if_pos ⟨hs, rfl, hk⟩]
  exact Nat.one_pos

/-! ### The operations -/

theorem allocate (y : HttpServerSession Hash) (hvc : y.serverVc = some w.next) (count : Nat → Int) : Inv g { w with
      sessions := update w.sessions w.next y
      next := w.next + 1
      remoteIp := update w.remoteIp w.next y.serverIp
      eos := update w.eos w.next false
      readAvail := update w.readAvail w.next 0
      connectionCount := count } (some w.next) := by
  refine h.setRecord (fun x _ hopen => Nat.ne_of_lt (h.vc x x hopen).2.1) ?_ rfl hvc
    ⟨Nat.le_succ _, Nat.lt_succ_self _⟩ rfl ⟨rfl, rfl, rfl, rfl, rfl⟩ fun x hx => ?_
  · exact fun x hx => absurd hx.symm (some_ne_none x)
  · simp [Clean, hx]

theorem newConnection [DecidableEq Sm] [Inhabited Hash] (hm : w.serverSession m = none)
    (ip : Nat) (port : Int) (limiting : Bool) : Inv g (w.newConnection m ip port limiting) none := by
  -- the new session is active already
  have hactive := (h.allocate ⟨ip, port, default, false, .active, false, limiting, some w.next⟩ rfl
    (if limiting then update w.connectionCount ip (w.connectionCount ip + 1)
      else w.connectionCount)).attachServerSession hm (by simp)
  simpa only [SessionWorld.newConnection, SessionWorld.setState, update_self, update_idem] using hactive

end

/-- Something has come for the session `s`, which does not wait. -/
theorem arrive (h : Inv g w t) (hs : t ≠ some s → ¬w.Waiting s) (event : NetEvent) : Inv g (w.arrive event s) t := by
  refine { h with clean := fun x hx hw hg => ?_ }
  have hxs : x ≠ s := fun heq => hs (heq ▸ hx) (heq ▸ hw)
  have hclean : (w.arrive event s).Clean x ↔ w.Clean x := by cases event <;> simp [Clean, SessionWorld.arrive, hxs]
  exact hclean.2 (h.clean x hx hw hg)

theorem acquireShared [DecidableEq Sm] [DecidableEq Hash] (h : Inv g w none) (hm : w.serverSession m = none) (ip : Nat)
    (port : Int) (hostname : Host) (lock : Bool) : Inv g (w.acquireShared mmh m ip port hostname lock).1 none := by
  unfold SessionWorld.acquireShared
  cases lock with
  | false => exact h
  | true =>
    simp only [↓reduceIte]
    split
    · rename_i b hb
      have hmatch : w.Matches mmh ip port hostname b := by simpa using find?_some hb
      obtain ⟨hpool, -⟩ := h.pooled_of_mem (k := some _) (mem_of_find?_eq_some hb)
      have hprivate := h.not_private hpool.2.1 (by simp [hpool.2.2])
      have htake := h.removePooled hpool
      rw [hmatch.1] at htake
      exact htake.attachServerSession hm hprivate
    · exact h

end Inv

theorem release_cases (w : SessionWorld Client Sm Hash) (s : Nat) (lock : Bool) :
    w.release s lock = (w.setState s .kaShared).doIoClose s ∨
      w.release s lock = ((w.setState s .kaShared).releaseSession s true).1 := by
  simp only [release]
  split
  · exact .inl rfl
  · cases lock with
    | false => exact .inl rfl
    | true => exact .inr rfl

theorem release_keeps (w : SessionWorld Client Sm Hash) (s : Nat) (lock : Bool) :
    (w.release s lock).serverSession = w.serverSession ∧ (w.release s lock).Clean = w.Clean ∧
      ∀ x, ((w.release s lock).sessions x).privateSession = (w.sessions x).privateSession := by
  rcases w.release_cases s lock with h | h <;> rw [h] <;> refine ⟨rfl, rfl, fun x => ?_⟩
  · by_cases hx : x = s
    · subst hx
      simp [doIoClose, setState]
    · simp [doIoClose, setState, hx]
  · by_cases hx : x = s
    · subst hx
      simp [releaseSession, setState, setBucket]
    · simp [releaseSession, setState, setBucket, hx]

theorem detachFromClient_release [DecidableEq Client] (w : SessionWorld Client Sm Hash) (c : Client)
    (s : Nat) (lock : Bool) :
    (w.release s lock).detachFromClient c = (w.detachFromClient c).release s lock := by
  unfold release
  by_cases hclose : ((w.setState s .kaShared).sessions s).privateSession = true ∨
      (w.setState s .kaShared).shareServerSessions = false
  · rw [if_pos hclose]
    exact (if_pos hclose).symm
  · rw [if_neg hclose]
    refine Eq.trans ?_ (if_neg hclose).symm
    cases lock <;> rfl

theorem leave_attachHostname [DecidableEq Sm] (w : SessionWorld Client Sm Hash) (m : Sm) (s : Nat) (hostname : Host) :
    (w.attachHostname mmh s hostname).leave m = (w.leave m).attachHostname mmh s hostname := by
  cases hcomputed : (w.sessions s).hostHashComputed <;> simp [attachHostname, leave, hcomputed]

theorem attachHostname_clean (w : SessionWorld Client Sm Hash) (s : Nat) (hostname : Host) :
    (w.attachHostname mmh s hostname).Clean = w.Clean := by
  simp only [attachHostname]
  split <;> rfl

theorem attachHostname_boundSS (w : SessionWorld Client Sm Hash) (s : Nat) (hostname : Host) :
    (w.attachHostname mmh s hostname).boundSS = w.boundSS := by
  simp only [attachHostname]
  split <;> rfl

theorem attachHostname_privateSession (w : SessionWorld Client Sm Hash) (s : Nat) (hostname : Host) :
    ((w.attachHostname mmh s hostname).sessions s).privateSession = (w.sessions s).privateSession := by
  simp only [attachHostname]
  split
  · rfl
  · simp only [update_self]

variable {w' : SessionWorld Client Sm Hash}

namespace Inv

theorem acquireSession [DecidableEq Client] [DecidableEq Sm] [DecidableEq Hash] (h : Inv g w none)
    (hm : w.serverSession m = none) (c : Client)
    (ip : Nat) (port : Int) (hostname : Host) (lockRelease lock : Bool) :
    Inv g (w.acquireSession mmh m c ip port hostname lockRelease lock).1 none := by
  unfold SessionWorld.acquireSession
  split
  · rename_i s hs
    obtain ⟨-, hopen, hstate, -⟩ := h.bound c s hs
    have hprivate := h.not_private hopen (by simp [hstate])
    have htake := h.detachFromClient hs
    simp only
    split
    · exact htake.attachServerSession hm hprivate
    · apply (htake.release (h.clean_of_bound hs) lockRelease).acquireShared
      rw [(release_keeps ..).1]
      exact hm
  · exact h.acquireShared hm ip port hostname lock

variable {i : Nat}

theorem find_session (h : Inv g w none) (hopen : w.IsOpen s) (hcont : w.cont s = .bucket i) :
    w.Pooled none s ∧ i = firstLevelHash (w.sessions s).serverIp ∧ w.remoteIp s = (w.sessions s).serverIp ∧
      ((w.buckets i).l2Hash (secondLevelHash (w.remoteIp s))).find?
        (fun x => (w.sessions x).serverVc = some s) = some s := by
  have hat := h.atCont s (some_ne_none _).symm hopen
  rw [hcont] at hat
  obtain ⟨hstate, rfl⟩ := hat
  have hpool : w.Pooled none s := ⟨(some_ne_none _).symm, hopen, hstate⟩
  have hremote := (h.vc s s hopen).2.2
  refine ⟨hpool, rfl, hremote, ?_⟩
  rw [hremote]
  cases hfind : ((w.buckets (firstLevelHash (w.sessions s).serverIp)).l2Hash
      (secondLevelHash (w.sessions s).serverIp)).find? (fun x => (w.sessions x).serverVc = some s) with
  | none =>
    have hnone := find?_eq_none.mp hfind s (h.mem_list hpool (.inr rfl))
    exact absurd hopen (by simpa [IsOpen] using hnone)
  | some x =>
    have hx : (w.sessions x).serverVc = some s := by simpa using find?_some hfind
    rw [(h.vc x s hx).1]

theorem sessionHandler (h : Inv g w none) (hopen : w.IsOpen s) (hcont : w.cont s = .bucket i)
    (originMin : Int) (event : NetEvent) :
    Inv g ((w.arrive event s).sessionHandler originMin i event s) none := by
  obtain ⟨hpool, rfl, hremote, hfind⟩ := h.find_session hopen hcont
  have hfind' : (((w.arrive event s).buckets (firstLevelHash (w.sessions s).serverIp)).l2Hash
      (secondLevelHash ((w.arrive event s).remoteIp s))).find?
      (fun x => ((w.arrive event s).sessions x).serverVc = some s) = some s := hfind
  unfold SessionWorld.sessionHandler
  simp only [hfind']
  split
  · rename_i hkeep
    rcases hkeep.1 with rfl | rfl <;> exact h
  · have htake := (h.removePooled hpool).arrive (fun hne => absurd rfl hne) event
    rw [show (w.arrive event s).remoteIp s = _ from hremote]
    exact htake.doIoClose

theorem stateSlaveKeepAlive [DecidableEq Client] (h : Inv g w none) (hc : w.boundSS c = some s)
    (event : NetEvent) (lock : Bool) :
    Inv g ((w.arrive event s).stateSlaveKeepAlive c event lock) none := by
  have htake := h.detachFromClient hc
  have hc' : (w.arrive event s).boundSS c = some s := hc
  unfold SessionWorld.stateSlaveKeepAlive
  simp only [hc']
  split
  · exact (htake.arrive (fun hne => absurd rfl hne) event).doIoClose
  · next hevent =>
    rw [detachFromClient_release]
    cases event with
    | inactivityTimeout => exact htake.release (h.clean_of_bound hc) lock
    | activeTimeout => exact htake.release (h.clean_of_bound hc) lock
    | _ => exact absurd rfl hevent

theorem netEvent [DecidableEq Client] (h : Inv g w none) (hopen : w.IsOpen s) (originMin : Int) (event : NetEvent)
    (lock : Bool) : Inv g (w.netEvent originMin event s lock) none := by
  have hat := h.atCont s (some_ne_none _).symm hopen
  unfold SessionWorld.netEvent
  cases hcont : w.cont s with
  | bucket i => exact h.sessionHandler hopen hcont originMin event
  | client c =>
    rw [hcont] at hat
    exact h.stateSlaveKeepAlive hat event lock
  | sm m =>
    rw [hcont] at hat
    exact h.arrive (fun _ => h.not_waiting hat) event

theorem purgeBucket (rest : List Nat) :
    ∀ {w : SessionWorld Client Sm Hash}, Inv g w none → (w.buckets i).lruList = rest →
      Inv g (SessionWorld.purgeBucket i rest w) none := by
  induction rest with
  | nil => exact fun h _ => h
  | cons s rest ih =>
    intro w h hlist
    have hmem : s ∈ (w.buckets i).lruList := by
      rw [hlist]
      exact mem_cons_self
    obtain ⟨hpool, rfl, -⟩ := h.pooled_of_mem (k := none) hmem
    apply ih (h.removePooled hpool).doIoClose
    simp [SessionWorld.doIoClose, setBucket, SessionBucket.remove, hlist]

theorem purgeKeepalives (h : Inv g w none) (locks : Nat → Bool) : Inv g (w.purgeKeepalives locks) none := by
  refine List.foldlRecOn (motive := (Inv g · none)) (List.range 127) _ h fun w hw i _ => ?_
  split
  · exact purgeBucket _ hw rfl
  · exact hw

theorem attachHostname (h : Inv g w (some s)) (hostname : Host) :
    Inv g (w.attachHostname mmh s hostname) (some s) := by
  unfold SessionWorld.attachHostname
  simp only
  split
  · exact h
  · exact h.modify _ (h.transit s rfl) rfl

theorem step [DecidableEq Client] [DecidableEq Sm] [DecidableEq Hash] [Inhabited Hash]
    (hg : g → ∀ w s, kept w s → w.Clean s) (hstep : Step mmh kept w w')
    (h : Inv g w none) : Inv g w' none := by
  cases hstep with
  | begin m plugin hm =>
    refine { h with privateSession := ?_ }
    intro s hs hopen hp
    obtain ⟨n, hn, hplugin⟩ := h.privateSession s hs hopen hp
    have hnm : n ≠ m := by
      rintro rfl
      rw [hm] at hn
      cases hn
    exact ⟨n, hn, (update_of_ne hnm _ _).trans hplugin⟩
  | connect m ip port limiting hm => exact h.newConnection hm ip port limiting
  | acquire m c ip port hostname lockRelease lock hm => exact h.acquireSession hm c ip port hostname lockRelease lock
  | reuse m c s hm hc =>
    obtain ⟨-, hopen, hstate, -⟩ := h.bound c s hc
    exact (h.detachFromClient hc).attachServerSession hm (h.not_private hopen (by simp [hstate]))
  | close m s hm => exact (h.leave hm).doIoClose
  | consume m s bytes hm =>
    refine { h with clean := fun x hx hw hg => ?_ }
    have hxs : x ≠ s := fun heq => h.not_waiting hm (heq ▸ hw)
    simpa [Clean, hxs] using h.clean x hx hw hg
  | keep m s hostname tunnel lock hm hplugin htunnel hkept =>
    rw [leave_attachHostname]
    apply ((h.leave hm).attachHostname hostname).release
    rw [attachHostname_clean]
    exact fun hg' => hg hg' w s hkept
  | bind m s hostname c tunnel hm hplugin hc htunnel hkept =>
    obtain ⟨-, hopen, -, hcont⟩ := h.held m s hm
    have hprivate : (w.sessions s).privateSession = false := by
      -- only a transaction with a plugin tunnel has a private session
      refine Bool.eq_false_iff.mpr fun hp => ?_
      obtain ⟨n, hn, hplugin'⟩ := h.privateSession s (some_ne_none _).symm hopen hp
      have hsm := (h.held n s hn).2.2.2
      rw [hcont] at hsm
      cases hsm
      rw [hplugin] at hplugin'
      cases hplugin'
    rw [leave_attachHostname]
    apply ((h.leave hm).attachHostname hostname).attachToClient
    · rw [attachHostname_boundSS]
      exact hc
    · rw [attachHostname_privateSession]
      exact hprivate
    · rw [attachHostname_clean]
      exact fun hg' => hg hg' w s hkept
  | releaseBound c s lock hc =>
    rw [detachFromClient_release]
    exact (h.detachFromClient hc).release (h.clean_of_bound hc) lock
  | netEvent originMin event vc lock hvc => exact h.netEvent hvc originMin event lock
  | purge locks => exact h.purgeKeepalives locks
  | configure share => exact { h with }

theorem reachable [DecidableEq Client] [DecidableEq Sm] [DecidableEq Hash] [Inhabited Hash]
    (hg : g → ∀ w s, kept w s → w.Clean s)
    (h : Reachable mmh w kept) : Inv g w none := by
  obtain ⟨w0, hinit, hrun⟩ := h
  induction hrun with
  | refl => exact init hinit
  | tail _ hstep ih => exact step hg hstep ih

end Inv

/-! ### What `acquire_session` hands out -/

/-- The transaction `m` is given the session `s` for an address, a port and a host hash: the session is in
no list, it belongs to no client session and to no other transaction, and none was using it before. -/
structure HandsOut (w w' : SessionWorld Client Sm Hash) (m : Sm) (ip : Nat) (port : Int) (hash : Hash)
    (s : Nat) : Prop where
  server : w'.serverSession m = some s
  sameOrigin : (w'.sessions s).serverIp = ip ∧ (w'.sessions s).serverPort = port ∧
    (w'.sessions s).hostnameHash = hash
  inNoList : ∀ i, s ∉ (w'.buckets i).lruList ∧ ∀ j, s ∉ (w'.buckets i).l2Hash j
  unbound : ∀ c, w'.boundSS c ≠ some s
  unused : ∀ n, w.serverSession n ≠ some s
  oneUser : ∀ n, w'.serverSession n = some s → n = m
  isOpen : w'.IsOpen s
  notPrivate : (w.sessions s).privateSession = false

theorem Inv.handsOut (h' : Inv g w' none) {hash : Hash} (hm : w.serverSession m = none)
    (hrest : ∀ n, n ≠ m → w'.serverSession n = w.serverSession n) (hserver : w'.serverSession m = some s)
    (horigin : (w'.sessions s).serverIp = ip ∧ (w'.sessions s).serverPort = port ∧
      (w'.sessions s).hostnameHash = hash)
    (hprivate : (w.sessions s).privateSession = false) :
    HandsOut w w' m ip port hash s := by
  obtain ⟨-, hopen, hactive, hcont⟩ := h'.held m s hserver
  have hone : ∀ n, w'.serverSession n = some s → n = m := by
    intro n hn
    have hsm := (h'.held n s hn).2.2.2
    rw [hcont] at hsm
    cases hsm
    rfl
  have hnot : ¬w'.Pooled none s := by
    rintro ⟨-, -, hshared⟩
    rw [hactive] at hshared
    cases hshared
  refine ⟨hserver, horigin, ?_, ?_, ?_, hone, hopen, hprivate⟩
  · intro i
    exact ⟨fun hi => hnot (h'.pooled_of_mem (k := none) hi).1, fun j hj => hnot (h'.pooled_of_mem (k := some j) hj).1⟩
  · intro c hc
    have hslave := (h'.bound c s hc).2.2.1
    rw [hactive] at hslave
    cases hslave
  · intro n hn
    by_cases hnm : n = m
    · subst hnm
      rw [hm] at hn
      cases hn
    · exact hnm (hone n ((hrest n hnm).trans hn))

variable {hostname : Host}

theorem attachServerSession_origin [DecidableEq Sm] (hmatch : w.Matches mmh ip port hostname s) (m : Sm) :
    (((w.setState s .active).attachServerSession m s).sessions s).serverIp = ip ∧
      (((w.setState s .active).attachServerSession m s).sessions s).serverPort = port ∧
      (((w.setState s .active).attachServerSession m s).sessions s).hostnameHash = mmh hostname := by
  obtain ⟨hip, hport, hhash⟩ := hmatch
  simp [attachServerSession, setState, hip, hport, hhash]

theorem Inv.acquireShared_done [DecidableEq Sm] [DecidableEq Hash] (h : Inv g w none)
    (hm : w.serverSession m = none) {lock : Bool}
    (hdone : (w.acquireShared mmh m ip port hostname lock).2 = .done) :
    ∃ s, HandsOut w (w.acquireShared mmh m ip port hostname lock).1 m ip port (mmh hostname) s ∧
      (g → w.Clean s) := by
  have h' : Inv g (w.acquireShared mmh m ip port hostname lock).1 none := h.acquireShared hm ip port hostname lock
  unfold SessionWorld.acquireShared at hdone h' ⊢
  cases lock with
  | false => cases hdone
  | true =>
    simp only [↓reduceIte] at hdone h' ⊢
    split at hdone
    · rename_i b hb
      have hmatch : w.Matches mmh ip port hostname b := by simpa using find?_some hb
      obtain ⟨⟨-, hopen, hstate⟩, -⟩ := h.pooled_of_mem (k := some _) (mem_of_find?_eq_some hb)
      simp only [hb] at h' ⊢
      refine ⟨b, h'.handsOut hm ?_ ?_ ?_ ?_, h.clean b (some_ne_none _).symm ⟨hopen, by simp [hstate]⟩⟩
      · exact fun n hn => update_of_ne hn _ _
      · exact update_self _ _ _
      · exact attachServerSession_origin (w := w.setBucket _ _) hmatch m
      · exact h.not_private hopen (by simp [hstate])
    · cases hdone

theorem Inv.acquireSession_done [DecidableEq Client] [DecidableEq Sm] [DecidableEq Hash] (h : Inv g w none)
    (hm : w.serverSession m = none) {lockRelease lock : Bool}
    (hdone : (w.acquireSession mmh m c ip port hostname lockRelease lock).2 = .done) :
    ∃ s, HandsOut w (w.acquireSession mmh m c ip port hostname lockRelease lock).1 m ip port (mmh hostname) s ∧
      (g → w.Clean s) := by
  have h' : Inv g (w.acquireSession mmh m c ip port hostname lockRelease lock).1 none :=
    h.acquireSession hm c ip port hostname lockRelease lock
  unfold SessionWorld.acquireSession at hdone h' ⊢
  cases hc : w.boundSS c with
  | none =>
    simp only [hc] at hdone ⊢
    exact h.acquireShared_done hm hdone
  | some s =>
    obtain ⟨-, hopen, hstate, -⟩ := h.bound c s hc
    simp only [hc] at hdone h' ⊢
    split at hdone
    · rename_i hmatch
      rw [if_pos hmatch] at h' ⊢
      refine ⟨s, h'.handsOut hm ?_ ?_ ?_ ?_, h.clean_of_bound hc⟩
      · exact fun n hn => update_of_ne hn _ _
      · exact update_self _ _ _
      · exact attachServerSession_origin hmatch m
      · exact h.not_private hopen (by simp [hstate])
    · rename_i hmatch
      rw [if_neg hmatch] at h' ⊢
      have hrelease := (h.detachFromClient hc).release (h.clean_of_bound hc) lockRelease
      -- the release of the other session changes neither what is private nor who has a session
      obtain ⟨hserver, hclean, hprivate⟩ := (w.detachFromClient c).release_keeps s lockRelease
      obtain ⟨x, hx, hx'⟩ := hrelease.acquireShared_done (by rw [hserver]; exact hm) hdone
      exact ⟨x, { hx with
        unused := fun n => by have hn := hx.unused n; rwa [hserver] at hn
        notPrivate := (hprivate x).symm.trans hx.notPrivate }, by rwa [hclean] at hx'⟩

/-- **Connections to origin servers are reused for one origin and by one transaction.** In every reachable
state the sessions of the pool are the open ones in the state `HSS_KA_SHARED`, each once in the
second-level bucket of its address and once in the LRU list of the same first-level bucket; and
`acquire_session` hands a session out only for the same address, port and host hash, to one transaction
at a time, and never one that is private. If the transactions keep clean sessions only, then it never
hands out one whose origin has closed it, or has sent what nobody has read. -/
theorem sessions_reused_safely [DecidableEq Client] [DecidableEq Sm] [DecidableEq Hash] [Inhabited Hash]
    (h : Reachable mmh w kept) :
    (∀ s, ((∃ i, s ∈ (w.buckets i).lruList) ↔ w.IsOpen s ∧ (w.sessions s).state = .kaShared) ∧
      ((∃ i j, s ∈ (w.buckets i).l2Hash j) ↔ w.IsOpen s ∧ (w.sessions s).state = .kaShared)) ∧
    (∀ s, w.IsOpen s → (w.sessions s).state = .kaShared → ∀ i, (w.buckets i).lruList.count s =
          (if i = firstLevelHash (w.sessions s).serverIp then 1 else 0) ∧
        ∀ j, ((w.buckets i).l2Hash j).count s = if i = firstLevelHash (w.sessions s).serverIp ∧
            j = secondLevelHash (w.sessions s).serverIp then 1 else 0) ∧
    ∀ m c ip port hostname lockRelease lock, w.serverSession m = none →
      (w.acquireSession mmh m c ip port hostname lockRelease lock).2 = .done →
      ∃ s, HandsOut w (w.acquireSession mmh m c ip port hostname lockRelease lock).1 m ip port (mmh hostname) s ∧
        ((∀ w s, kept w s → w.Clean s) → w.Clean s) := by
  have hinv := Inv.reachable id h
  refine ⟨fun s => ⟨⟨?_, ?_⟩, ⟨?_, ?_⟩⟩, ?_, ?_⟩
  · rintro ⟨i, hi⟩
    exact (hinv.pooled_of_mem (k := none) hi).1.2
  · exact fun hs => ⟨_, hinv.mem_list ⟨(some_ne_none _).symm, hs⟩ (.inl rfl)⟩
  · rintro ⟨i, j, hj⟩
    exact (hinv.pooled_of_mem (k := some j) hj).1.2
  · exact fun hs => ⟨_, _, hinv.mem_list ⟨(some_ne_none _).symm, hs⟩ (.inr rfl)⟩
  · intro s hopen hstate i
    have hpool : w.Pooled none s := ⟨(some_ne_none _).symm, hopen, hstate⟩
    constructor
    · rw [hinv.lruList]
      simp only [hpool, true_and]
    · intro j
      rw [hinv.l2Hash]
      simp only [hpool, true_and]
  · intro m c ip port hostname lockRelease lock hm hdone
    exact hinv.acquireSession_done hm hdone

def noSessions : SessionWorld Unit Bool Nat where
  sessions _ := ⟨0, 0, 0, false, .init, false, false, none⟩
  next := 0
  remoteIp _ := 0
  cont _ := .bucket 0
  buckets _ := ⟨[], fun _ => []⟩
  serverSession _ := none
  pluginTunnel _ := false
  boundSS _ := none
  shareServerSessions := true
  connectionCount _ := 0
  eos _ := false
  readAvail _ := 0

theorem noSessions_init : noSessions.Init := ⟨fun _ => rfl, fun _ => rfl, fun _ => rfl, fun _ => rfl⟩

/-- A transaction connects to port 80 of address 1000 and gets a response of 150 bytes. -/
def answered : SessionWorld Unit Bool Nat :=
  let w := (noSessions.newConnection false 1000 80 false).netEvent 0 (.readReady 150) 0 true
  { w with readAvail := update w.readAvail 0 (w.readAvail 0 - 150) }

theorem answered_run (kept : SessionWorld Unit Bool Nat → Nat → Prop) :
    ReflTransGen (Step id kept) noSessions answered :=
  ((ReflTransGen.single (.connect _ false 1000 80 false rfl)).tail
    (.netEvent _ 0 (.readReady 150) 0 true rfl)).tail (.consume _ false 0 150 rfl)

def oneKept : SessionWorld Unit Bool Nat := ((answered.attachHostname id 0 7).leave false).release 0 true

theorem oneKept_reachable : oneKept.Reachable id Clean :=
  ⟨noSessions, noSessions_init, (answered_run _).tail (.keep _ false 0 7 true true rfl rfl (fun _ => rfl) ⟨rfl, rfl⟩)⟩

/-- The second transaction is given the session that the first one has released. -/
theorem sessions_reused_safely_oneKept : oneKept.Reachable id Clean ∧
      (oneKept.acquireSession id true () 1000 80 7 true true).2 = .done ∧
      ∃ s, HandsOut oneKept (oneKept.acquireSession id true () 1000 80 7 true true).1 true 1000 80 7 s ∧
        oneKept.Clean s := by
  obtain ⟨s, hs, hclean⟩ :=
    (sessions_reused_safely oneKept_reachable).2.2 true () 1000 80 7 true true rfl (by decide)
  exact ⟨oneKept_reachable, by decide, s, hs, hclean fun _ _ => id⟩

/-- Behind its response the origin has sent 50 bytes more and closed the connection. -/
def leftOver : SessionWorld Unit Bool Nat :=
  ((answered.netEvent 0 (.readReady 50) 0 true).netEvent 0 .eos 0 true)

/-- The response was not tunnelled: the session goes to the pool, and then to the second transaction. -/
theorem closed_session_handed_out : ∃ w : SessionWorld Unit Bool Nat, w.Reachable id (fun _ _ => True) ∧
    w.serverSession true = none ∧ (w.acquireSession id true () 1000 80 7 true true).2 = .done ∧
    (w.acquireSession id true () 1000 80 7 true true).1.serverSession true = some 0 ∧
    w.eos 0 = true ∧ w.readAvail 0 = 50 := by
  refine ⟨((leftOver.attachHostname id 0 7).leave false).release 0 true, ⟨noSessions, noSessions_init, ?_⟩,
    by decide, by decide, by decide, by decide, by decide⟩
  exact (((answered_run _).tail (.netEvent _ 0 (.readReady 50) 0 true rfl)).tail
    (.netEvent _ 0 .eos 0 true rfl)).tail
    (.keep _ false 0 7 false true rfl rfl (fun h => absurd h Bool.false_ne_true) trivial)

end SessionWorld

end Http

end TrafficServer
