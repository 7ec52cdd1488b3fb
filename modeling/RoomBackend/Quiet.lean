import RoomBackend.Steps

/-! # What most methods do to the connections

`Quiet j s t`: `t` comes from `s` at one instant, by changes of the shared state, by suspicion
points of the connection `j`, by private frames handed to sockets and cached as replies, by sockets
that are closed, and by changes of the sides that leave the socket, the limiter and the cached
replies alone. What such changes keep is kept by every method below; the methods that do more (they
hand out frames of the room, or spend a bucket or replace it) are looked at where that matters. -/

namespace RoomBackend

open Async Day RateLimit Suspicion Lts

/-- A frame about the room: an identity, messages, or presence. -/
def ServerEvent.shared : ServerEvent → Bool
  | .welcome _ _ _ _ _ _ _ _ | .message _ | .messages _ | .presence _ | .reset _ _ _ _ => true
  | _ => false

/-- The fields of a connection that limit its sends. -/
structure Limiter where
  score : SuspicionScore
  bucket : TokenBucket
  tier : Tier
  strikes : ℕ
  lastStrikeAt : ℤ
  cooldownUntil : ℤ

def Conduct.limiter (c : Conduct) : Limiter :=
  { score := c.score, bucket := c.bucket, tier := c.tier, strikes := c.strikes
    lastStrikeAt := c.lastStrikeAt, cooldownUntil := c.cooldownUntil }

/-- The tier of a score. -/
def tierOf (v : ℚ) : Tier :=
  if v ≥ Thresholds.severe then .restricted
  else if v ≥ Thresholds.throttle then .throttled
  else .normal

namespace Limiter

variable (env : Env) (now : ℤ) (x : Limiter)

/-- The tier its score has. -/
def due : Tier := tierOf (x.score.value env.halfPow now)

/-- `applyTier`, on the limiter. -/
def applyTier : Limiter :=
  if x.due env now ≠ x.tier then
    { x with
      tier := x.due env now
      bucket := x.bucket.reconfigure env.round (x.due env now).capacity
        (x.due env now).refillPerSec now }
  else x

/-- `signal`, on the limiter. -/
def signal (trusted : Bool) (name : Signal) : Limiter :=
  applyTier env now { x with score := x.score.add env.halfPow name.points now trusted }

end Limiter

@[simp] theorem Conduct.limiter_applyTier (env : Env) (c : Conduct) (now : ℤ) :
    (c.applyTier env now).limiter = c.limiter.applyTier env now := by
  unfold applyTier Limiter.applyTier
  dsimp only
  change _ = if tierOf (c.score.value env.halfPow now) ≠ c.tier then _ else _
  by_cases h : tierOf (c.score.value env.halfPow now) = c.tier
  · rw [if_neg (not_not.mpr h)]
    exact congrArg limiter (if_neg (not_not.mpr h))
  · rw [if_pos h]
    exact congrArg limiter (if_pos h)

@[simp] theorem Conduct.limiter_persistSoon (b : Bool) (c : Conduct) :
    (c.persistSoon b).limiter = c.limiter := by
  unfold persistSoon
  split
  · rfl
  · rfl

@[simp] theorem Conduct.limiter_signal (env : Env) (c : Conduct) (now : ℤ)
    (trusted hasRecord : Bool) (name : Signal) :
    (c.signal env now trusted hasRecord name).limiter = c.limiter.signal env now trusted name := by
  unfold signal
  dsimp only
  rw [limiter_persistSoon, limiter_applyTier]
  rfl

/-- A send is decided upon: its decision may add suspicion points. -/
def SendPc.signals : SendPc → Bool
  | .hit _ _ | .dup _ _ => true
  | _ => false

/-- What a handler goes on with may add suspicion points to its connection. -/
def Handler.signals : Handler → Bool
  | .join _ => true
  | .send p => p.signals
  | _ => false

/-- The limiter and the cached replies are left alone. -/
structure Conduct.Spares (c d : Conduct) : Prop where
  replies : d.replies = c.replies
  limiter : d.limiter = c.limiter

theorem Conduct.Spares.bucket {c d : Conduct} (h : c.Spares d) : d.bucket = c.bucket :=
  congrArg Limiter.bucket h.limiter

/-- So is the socket. -/
structure Side.Spares (x y : Side) : Prop where
  socket : y.socket = x.socket
  conduct : x.conduct.Spares y.conduct

/-- The socket takes no frame, and is not opened. -/
structure Socket.Shuts (x y : Socket) : Prop where
  sent : y.sent = x.sent
  opened : y.state = .opened → x.state = .opened

/-! ### Sockets -/

theorem Socket.sendRaw_opened {x : Socket} {e : ServerEvent} (h : (x.sendRaw e).state = .opened) :
    x.state = .opened := by
  unfold sendRaw at h
  split at h
  · exact h
  · rename_i hx
    exact not_ne_iff.mp hx

theorem Socket.close_opened {x : Socket} {code : ℕ} {reason : String}
    (h : (x.close code reason).state = .opened) : x.state = .opened := by
  unfold close at h
  split at h
  · cases h
  · exact h

theorem Socket.close_sent {x : Socket} {code : ℕ} {reason : String} :
    (x.close code reason).sent = x.sent := by
  unfold close
  split <;> rfl

theorem Socket.terminate_ne_opened (x : Socket) : x.terminate.state ≠ .opened := by
  unfold terminate
  split_ifs with hx
  · rw [hx]
    exact fun hn => by cases hn
  · exact fun hn => by cases hn

theorem Socket.terminate_opened {x : Socket} (h : x.terminate.state = .opened) :
    x.state = .opened := absurd h x.terminate_ne_opened

theorem Socket.terminate_sent {x : Socket} : x.terminate.sent = x.sent := by
  unfold terminate
  split <;> rfl

theorem Socket.shuts_close (code : ℕ) (reason : String) (x : Socket) :
    x.Shuts (x.close code reason) := ⟨close_sent, close_opened⟩

theorem Socket.shuts_terminate (x : Socket) : x.Shuts x.terminate :=
  ⟨terminate_sent, terminate_opened⟩

theorem Conduct.spares_persistSoon (b : Bool) (c : Conduct) : c.Spares (c.persistSoon b) := by
  unfold persistSoon
  split
  · exact ⟨rfl, rfl⟩
  · exact ⟨rfl, rfl⟩

/-! ### Quiet changes -/

/-- `t` comes from `s` by quiet changes. -/
inductive Sys.Quiet (j : Option (Env × ConnKey)) (s : Sys) : Sys → Prop
  | refl : Quiet j s s
  | state {t u : Sys} (h : Quiet j s t) (hc : u.clock = t.clock) (hu : u.side = t.side) :
      Quiet j s u
  | updSide {t : Sys} {k : ConnKey} {f : Side → Side} (h : Quiet j s t)
      (hf : ∀ d : Side, d.Spares (f d)) : Quiet j s (t.updSide k f)
  | signal {env : Env} {t : Sys} {k : ConnKey} (hj : j = some (env, k)) (h : Quiet j s t)
      (name : Signal) : Quiet j s (t.signal env k name)
  | send {t : Sys} {k : ConnKey} (h : Quiet j s t) (e : ServerEvent) (he : e.shared = false) :
      Quiet j s (t.send k e)
  | cache {t : Sys} {k : ConnKey} (h : Quiet j s t) {e : SendEvent} {reply : ServerEvent}
      (hr : reply.shared = false) : Quiet j s (t.updConduct k fun c =>
        { c with replies := cacheReply c.replies e.clientId reply })
  | shut {t : Sys} {k : ConnKey} {g : Socket → Socket} (h : Quiet j s t)
      (hg : ∀ x : Socket, x.Shuts (g x)) : Quiet j s (t.updSocket k g)

namespace Sys.Quiet

variable {s t u : Sys} {k : ConnKey} {env : Env} {j : Option (Env × ConnKey)}

theorem clock (h : Quiet j s t) : t.clock = s.clock := by
  induction h with
  | refl => rfl
  | state _ hc _ ih => exact hc.trans ih
  | updSide _ _ ih => exact ih
  | signal _ _ _ ih => exact ih
  | send _ _ _ ih => exact ih
  | cache _ _ ih => exact ih
  | shut _ _ ih => exact ih

/-- Frames are queued elsewhere. -/
theorem queued_updConduct (f : Conduct → Conduct) : (t.updConduct k f).queued k = t.queued k := by
  unfold Sys.queued Sys.updConduct Sys.updSide
  dsimp only
  rw [Function.update_self]

section basic

variable (h : Quiet j s t)
include h

theorem onCore (f : Core → Core) (hf : (f t.toCore).clock = t.clock) :
    Quiet j s (t.onCore f) := h.state hf rfl

theorem start (b : Chore) : Quiet j s (t.start b) := h.state rfl rfl

theorem suspend (x : Handler) : Quiet j s (t.suspend k x) := h.state rfl rfl

theorem finish : Quiet j s (t.finish k) := h.state rfl rfl

theorem updConduct (f : Conduct → Conduct) (hf : ∀ c : Conduct, c.Spares (f c)) :
    Quiet j s (t.updConduct k f) :=
  h.updSide (f := fun d => { d with conduct := f d.conduct }) fun d => ⟨rfl, hf d.conduct⟩

theorem close (code : ℕ) (reason : String) : Quiet j s (t.close k code reason) :=
  h.shut (Socket.shuts_close code reason)

theorem terminate : Quiet j s (t.terminate k) := h.shut Socket.shuts_terminate

theorem persistSoon : Quiet j s (t.persistSoon k) :=
  h.updConduct _ (Conduct.spares_persistSoon _)

theorem blocked (ttl : ℤ) (text : Option String) : Quiet j s (t.blocked k ttl text) :=
  ((h.onCore _ rfl).send _ (by rfl)).close _ _

theorem tempBlockEnd (b : BlockLocals) : Quiet j s (t.tempBlockEnd k b) :=
  ((h.onCore _ rfl).send _ (by rfl)).close _ _

theorem persist : Quiet j s (t.persist env k).1 := by
  unfold Sys.persist
  dsimp only
  split
  · exact h
  · dsimp only
    refine h.updSide ?_
    exact fun _ => ⟨rfl, ⟨rfl, rfl⟩⟩

theorem persistDetached : Quiet j s (t.persistDetached env k) := by
  unfold Sys.persistDetached
  dsimp only
  split
  · exact h.persist
  · exact h.persist.onCore _ rfl

theorem sendChallenge (force : Bool) : Quiet j s (t.sendChallenge env k force) := by
  unfold Sys.sendChallenge
  split
  · exact h
  · split
    · exact h
    · exact (h.updConduct _ (by exact fun _ => ⟨rfl, rfl⟩)).send _ (by rfl)

/-! ### The inner methods of a handler -/

theorem tempBlockSave (b : BlockLocals) : Quiet j s (t.tempBlockSave env k b).1 :=
  (h.start _).persist

theorem startChallenge (r : SessionIdent) (score : ℚ) :
    Quiet j s (t.startChallenge env k r score).1 := by
  unfold Sys.startChallenge
  split
  · exact h
  · exact ((h.onCore _ rfl).start _).persist

theorem escalate (now : ℤ) : Quiet j s (t.escalate env k now).1 := by
  unfold Sys.escalate
  dsimp only
  split
  · exact h
  · split
    · exact h
    · split
      · exact h
      · split
        · exact h.startChallenge _ _
        · split
          · exact h.state rfl rfl
          · exact h

theorem tempBlockResume {p : BlockPc} {r : Sys × (BlockPc ⊕ BlockLocals)}
    (hr : t.tempBlockResume env k p = some r) : Quiet j s r.1 := by
  cases p with
  | sess b p =>
      obtain ⟨a, -, rfl⟩ := Option.map_eq_some_iff.mp hr
      dsimp only
      split
      · exact h
      · exact h.tempBlockSave b
  | net b netTtl p =>
      obtain ⟨a, -, rfl⟩ := Option.map_eq_some_iff.mp hr
      exact h.tempBlockSave b
  | save b req p =>
      obtain ⟨a, -, rfl⟩ := Option.map_eq_some_iff.mp hr
      exact h

theorem escalateResume {e : EscalatePc} {r : Sys × EscalatePc}
    (hr : t.escalateResume env k e = some r) : Quiet j s r.1 := by
  cases e with
  | returned reason => cases hr
  | challenge req p =>
      obtain ⟨a, -, rfl⟩ := Option.map_eq_some_iff.mp hr
      exact h.sendChallenge true
  | block b =>
      obtain ⟨x, hx, rfl⟩ := Option.map_eq_some_iff.mp hr
      split
      · exact h.tempBlockResume hx
      · exact (h.tempBlockResume hx).tempBlockEnd _

/-! ### Sending -/

theorem decided (e : SendEvent) (reply : ServerEvent) : Quiet j s (t.decided k e reply) :=
  h.suspend _

theorem decideEscalate (l : SendLocals) (site : EscalateSite) :
    Quiet j s (t.decideEscalate env k l site) := (h.escalate _).suspend _

theorem handleSendReply (e : SendEvent) (reply : ServerEvent) (hr : reply.shared = false) :
    Quiet j s (t.handleSendReply k e reply) := by
  unfold Sys.handleSendReply
  dsimp only
  split
  · exact (((h.onCore _ rfl).cache hr).send _ hr).finish
  · exact ((h.cache hr).send _ hr).finish

/-! ### The other frames -/

theorem challengeResponse (token : String) : Quiet j s (t.challengeResponse k token) := by
  unfold Sys.challengeResponse
  dsimp only
  split
  · exact h.finish
  · split
    · exact h.finish
    · split
      · exact h.finish
      · exact (h.updConduct _ (by exact fun _ => ⟨rfl, rfl⟩)).suspend _

theorem challengeFailed (r : SessionIdent) : Quiet j s (t.challengeFailed env k r) := by
  unfold Sys.challengeFailed
  dsimp only
  split
  · split
    · exact ((h.onCore _ rfl).send _ (by rfl)).finish
    · exact ((h.onCore _ rfl).send _ (by rfl)).onCore _ rfl
  · exact ((h.onCore _ rfl).send _ (by rfl)).persist.suspend _

theorem report (id : MsgId) (reason : String) : Quiet j s (t.report k id reason) := by
  unfold Sys.report
  split
  · exact h.finish
  · exact h.suspend _

/-- A frame that is queued adds no points. -/
theorem onFrame_queued (raw : Raw) (hb : raw ≠ .binary) (hq : t.queued k < MAX_QUEUED_FRAMES) :
    Quiet j s (t.onFrame env k raw) := by
  unfold Sys.onFrame
  dsimp only
  rw [if_neg hb, if_neg (by rw [queued_updConduct]; exact not_le.mpr hq)]
  exact (h.updConduct _ (by exact fun _ => ⟨rfl, rfl⟩)).updSide fun _ => ⟨rfl, ⟨rfl, rfl⟩⟩

/-! ### After an await -/

/-- What follows the decision about a send adds no points. -/
theorem sendLater {p : SendPc} (hp : p.signals = false) (hu : t.sendResume env k p = some u)
    (hr : ∀ e reply, p = .reply e reply → reply.shared = false) : Quiet j s u := by
  cases p with
  | hit l p => cases hp
  | dup l p => cases hp
  | escalate l site e =>
      cases e with
      | returned reason =>
          cases reason with
          | some reason =>
              cases hu
              exact h.decided _ _
          | none =>
              cases site with
              | limited =>
                  cases hu
                  exact h.decided _ _
              | accept =>
                  cases hu
                  exact h.onCore _ rfl
      | challenge req p =>
          obtain ⟨r, hr, rfl⟩ := Option.map_eq_some_iff.mp hu
          exact (h.escalateResume hr).suspend _
      | block b =>
          obtain ⟨r, hr, rfl⟩ := Option.map_eq_some_iff.mp hu
          exact (h.escalateResume hr).suspend _
  | append l room m p =>
      cases p with
      | pending => cases hu
      | rejected =>
          cases hu
          exact h.decided _ _
      | fulfilled a =>
          cases hu
          exact h.suspend _
  | publish l room m p =>
      cases p with
      | pending => cases hu
      | rejected =>
          cases hu
          exact h.decided _ _
      | fulfilled a =>
          cases hu
          exact h.decided _ _
  | reply e reply =>
      cases hu
      exact h.handleSendReply _ _ (hr e reply rfl)

theorem reportResume {p : ReportPc} (hu : t.reportResume env k p = some u) : Quiet j s u := by
  cases p with
  | hit r id reason p =>
      obtain ⟨a, -, rfl⟩ := Option.map_eq_some_iff.mp hu
      split
      · exact (h.send _ (by rfl)).finish
      · exact h.suspend _
  | recent r id reason roomId p =>
      obtain ⟨a, -, rfl⟩ := Option.map_eq_some_iff.mp hu
      split
      · exact (h.send _ (by rfl)).finish
      · exact h.suspend _
  | event id e p =>
      cases p with
      | pending => cases hu
      | rejected =>
          cases hu
          exact h.finish
      | fulfilled a =>
          cases hu
          exact (h.send _ (by rfl)).finish

/-! ### The room server -/

theorem onClose : Quiet j s (t.onClose env k) := by
  unfold Sys.onClose
  split
  · exact h
  · have hc := (h.onCore (·.updConn k fun x => { x with closed := true }) rfl).updConduct (k := k)
      (fun c => { c with joinTimer := false, persistTimer := false }) fun _ => ⟨rfl, rfl⟩
    exact hc.persistDetached.onCore _ rfl

theorem joinTimeout : Quiet j s (t.joinTimeout k) := by
  unfold Sys.joinTimeout
  dsimp only
  split
  · exact h.updConduct _ (by exact fun _ => ⟨rfl, rfl⟩)
  · exact (h.updConduct _ (by exact fun _ => ⟨rfl, rfl⟩)).close _ _

theorem heartbeat : Quiet j s (t.heartbeat k) := by
  unfold Sys.heartbeat
  dsimp only
  split
  · exact h.terminate
  · exact h.updConduct _ (by exact fun _ => ⟨rfl, rfl⟩)

end basic

/-! ### Methods that signal -/

section own

variable (h : Quiet (some (env, k)) s t)
include h

theorem signalIf (b : Bool) (name : Signal) :
    Quiet (some (env, k)) s (t.signalIf env k b name) := by
  unfold Sys.signalIf
  split
  · exact h.signal rfl name
  · exact h

theorem joinVerify (v : Option String) : Quiet (some (env, k)) s (t.joinVerify env k v) := by
  unfold Sys.joinVerify
  split
  · split
    · exact h.signal rfl _
    · exact h.start _
  · exact h

theorem decideSignals (l : SendLocals) : Quiet (some (env, k)) s (t.decideSignals env k l) := by
  unfold Sys.decideSignals
  dsimp only
  refine Quiet.updConduct (Quiet.signalIf (Quiet.updConduct (Quiet.signalIf (Quiet.signalIf
    (Quiet.updConduct h _ ?_) _ _) _ _) _ ?_) _ _) _ ?_
  · exact fun _ => ⟨rfl, rfl⟩
  · exact fun _ => ⟨rfl, rfl⟩
  · exact fun _ => ⟨rfl, rfl⟩

theorem ping (ts : ℤ) : Quiet (some (env, k)) s (t.ping env k ts) := by
  unfold Sys.ping
  dsimp only
  split
  · refine ((h.updConduct _ ?_).signalIf _ _).finish
    intro c
    split
    · exact ⟨rfl, rfl⟩
    · exact ⟨rfl, rfl⟩
  · refine (((h.updConduct _ ?_).signalIf _ _).send _ (by rfl)).finish
    intro c
    split
    · exact ⟨rfl, rfl⟩
    · exact ⟨rfl, rfl⟩

theorem invalid (binary : Bool) : Quiet (some (env, k)) s (t.invalid env k binary) := by
  unfold Sys.invalid
  dsimp only
  split_ifs
  · exact (((h.updConduct _ (by exact fun _ => ⟨rfl, rfl⟩)).signal rfl _).send _
      (by rfl)).close _ _
  · exact ((h.updConduct _ (by exact fun _ => ⟨rfl, rfl⟩)).signal rfl _).send _ (by rfl)
  · exact (((h.updConduct _ (by exact fun _ => ⟨rfl, rfl⟩)).signal rfl _).send _
      (by rfl)).close _ _
  · exact ((h.updConduct _ (by exact fun _ => ⟨rfl, rfl⟩)).signal rfl _).send _ (by rfl)

theorem onFrame (raw : Raw) : Quiet (some (env, k)) s (t.onFrame env k raw) := by
  unfold Sys.onFrame
  dsimp only
  have hf := h.updConduct (k := k) (fun c => { c with lastFrameAt := t.clock, alive := true })
    fun _ => ⟨rfl, rfl⟩
  split
  · exact hf.invalid true
  · split
    · split
      · exact (hf.updConduct _ (by exact fun _ => ⟨rfl, rfl⟩)).signal rfl _
      · exact hf
    · exact hf.updSide fun _ => ⟨rfl, ⟨rfl, rfl⟩⟩

theorem sendResume {p : SendPc} (hu : t.sendResume env k p = some u)
    (hr : ∀ e reply, p = .reply e reply → reply.shared = false) :
    Quiet (some (env, k)) s u := by
  cases p with
  | hit l p =>
      obtain ⟨a, -, rfl⟩ := Option.map_eq_some_iff.mp hu
      dsimp only
      split
      · exact (h.signal rfl _).decided _ _
      · split
        · exact (h.decideSignals _).suspend _
        · exact (h.decideSignals _).decideEscalate _ _
  | dup l p =>
      obtain ⟨a, -, rfl⟩ := Option.map_eq_some_iff.mp hu
      exact (h.signalIf _ _).decideEscalate _ _
  | escalate l site e => exact h.sendLater rfl hu hr
  | append l room m p => exact h.sendLater rfl hu hr
  | publish l room m p => exact h.sendLater rfl hu hr
  | reply e reply => exact h.sendLater rfl hu hr

end own

/-- What `join` does after it has announced its session. -/
theorem joinWelcome (c : JoinCtx) (r : SessionIdent) (token : Token) (room : DailyRoom)
    (history : List StoredMessage) :
    Quiet (some (env, k)) (s.announce env k (.welcome r token room history))
      (s.joinWelcome env k c r token room history) := by
  unfold Sys.joinWelcome
  dsimp only
  split
  · exact ((Quiet.refl.sendChallenge true).joinVerify _).persistSoon.finish
  · exact (Quiet.refl.joinVerify _).persistSoon.finish


/-- A loop over the connections of a server. -/
theorem forConns {i : InstanceId} {f : ConnKey → Sys → Sys}
    (hf : ∀ k {u : Sys}, Quiet j s u → Quiet j s (f k u)) :
    ∀ ns : List ℕ, ∀ {t : Sys}, Quiet j s t → Quiet j s (t.forConns i f ns)
  | [], _, h => h
  | n :: ns, _, h => forConns hf ns (hf ⟨i, n⟩ h)

section server

variable (h : Quiet j s t) (i : InstanceId)
include h

theorem heartbeats : Quiet j s (t.heartbeats i) := forConns (fun _ _ hu => hu.heartbeat) _ h

theorem onBus (e : BusEvent) : Quiet j s (t.onBus i e) := by
  cases e with
  | message m =>
      refine h.onCore (·.onMessage i m) ?_
      unfold Core.onMessage
      split
      · rfl
      · rfl
  | kick origin sid reason =>
      unfold Sys.onBus
      dsimp only
      refine forConns (fun k u hu => ?_) _ h
      split
      · exact hu.blocked _ _
      · exact hu

theorem resetBatches (prev next : DailyRoom) (rest : List ℕ) :
    Quiet j s (t.resetBatches env i prev next rest) := by
  unfold Sys.resetBatches
  split
  · exact h.onCore _ rfl
  · refine onCore ?_ _ rfl
    refine forConns (fun k u hu => hu.onCore _ ?_) _ h
    rcases Core.rollover_cases env u.toCore k next
      ((u.side k).conduct.score.value env.halfPow u.clock) with he | ⟨-, -, input, -, he⟩
    · rw [he]
    · rw [he]
      rfl

theorem resetResume {p : RollingPc} (hu : t.resetResume env i p = some u) : Quiet j s u := by
  cases p with
  | acquire prev next p =>
      cases p with
      | pending => cases hu
      | rejected =>
          cases hu
          exact h.resetBatches _ _ _ _
      | fulfilled b =>
          cases b with
          | true =>
              cases hu
              exact h.onCore _ rfl
          | false =>
              cases hu
              exact h.resetBatches _ _ _ _
  | cleanup prev next p =>
      cases p with
      | pending => cases hu
      | rejected =>
          cases hu
          exact h.resetBatches _ _ _ _
      | fulfilled a =>
          cases hu
          exact h.onCore _ rfl
  | log prev next p =>
      obtain ⟨a, -, rfl⟩ := Option.map_eq_some_iff.mp hu
      exact h.resetBatches _ _ _ _
  | batch prev next current rest =>
      replace hu : (if t.batchDone i current then
          some (t.onCore (·.setReset i (some (.breathe prev next rest)))) else none) = some u := hu
      split at hu
      · cases hu
        exact h.onCore _ rfl
      · cases hu
  | breathe prev next rest =>
      cases hu
      exact h.resetBatches _ _ _ _

theorem stop : Quiet j s (t.stop i) := by
  unfold Sys.stop
  split
  · exact h
  · exact (h.onCore _ rfl).start _

theorem drain : Quiet j s (t.drain k) := by
  unfold Sys.drain
  dsimp only
  refine close ?_ _ _
  exact h.state rfl rfl

theorem stopEnd : Quiet j s (t.stopEnd i) :=
  (forConns (fun _ _ hu => hu.terminate) _ h).onCore _ rfl

end server

end Sys.Quiet

end RoomBackend
