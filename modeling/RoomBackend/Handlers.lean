import RoomBackend.Connection
import RoomBackend.Sessions

/-! # Frame handlers (`gateway/connection.ts`)

`join`, `handleSend` with `decide`, `challengeResponse`, `report`, `ping`, and
`Connection.rollover`. Each handler starts when its frame is taken from the queue of the
connection and is over when `handler` is `none` again. What a method does to the shared part
of the state alone is a function on `Core`. -/

namespace RoomBackend

open Async Day RateLimit Suspicion

namespace Core

variable (env : Env) (c : Core) (k : ConnKey)

/-! ### The room boundary -/

/-- The synchronous part of `RoomServer.rollover`: switch to the new room first, then wait for
the lock of the old one. -/
def switchRoom (i : InstanceId) (next : DailyRoom) : Core :=
  c.updSrv i fun v =>
    { v with room := next, resets := v.resets + 1, rolling := some (.acquire v.room next .pending) }

/-- `RoomServer.checkRoom`: roll over once when the instant is of another room. -/
def checkRoom (i : InstanceId) : Core :=
  let next := env.roomAt c.clock
  if (c.srv i).rolling.isSome then c
  else if next.roomId = (c.srv i).room.roomId then c
  else c.switchRoom i next

/-! ### Joining -/

/-- One attempt of the loop of `join`. -/
def joinAttempt (j : JoinCtx) (token : Option Token) : Core :=
  match token with
  | some t => c.suspend k (.join (.resume j t (resumeSession (c.roomOf k) t)))
  | none => c.suspend k (.join (.newsess j (c.roomOf k) .pending))

/-- `join`, up to its first await. -/
def join (resume : Option Token) (verification : Option String) : Core :=
  if (c.conn k).joined then c.finish k
  else c.joinAttempt k { now := c.clock, attempt := 0, verification := verification } resume

/-- The end of an attempt: go on with the session if it is of the server's room, else try
again once without a token. -/
def joinCheck (j : JoinCtx) (r : SessionRecord) (token : Token) : Core :=
  if r.roomId = (c.roomOf k).roomId then
    if (c.conn k).closed then c.finish k
    else c.suspend k (.join (.block j r token .pending))
  else if j.attempt + 1 < 2 then c.joinAttempt k { j with attempt := j.attempt + 1 } none
  else c.finish k

/-- `sessions.resume` within `join`, after an await; `room` is the room of the attempt. -/
def joinResumed (j : JoinCtx) (room : DailyRoom) (token : Token) : ResumeRes → Core
  | .wait r => c.suspend k (.join (.resume j token r))
  | .done none => c.suspend k (.join (.newsess j room .pending))
  | .done (some record) => c.suspend k (.join (.rejoin j record token .pending))

/-- `create` within `join`: a session made with the pseudonym of the admission. -/
def joinCreate (j : JoinCtx) (room : DailyRoom) (suspicion : ℚ) : Core :=
  let info := (c.conn k).info
  let input : NewSessionInput :=
    { ipHash := info.net.dailyHash
      country := info.country
      now := j.now
      suspicion := suspicion
      challengePending := false }
  c.draw.suspend k (.join (.create j (createSession env c.draws room input)))

/-- `create` within `join`, after an await. -/
def joinCreated (j : JoinCtx) (r : CreateRes × ℕ) : Core :=
  let c : Core := { c with draws := r.2 }
  match r.1 with
  | .wait p => c.suspend k (.join (.create j p))
  | .done record token => c.joinCheck k j record token
  | .threw => c.finish k

/-- The session is taken up: `rec`, `joined`, and `onJoined`. -/
def enter (r : SessionRecord) (token : Token) : Core :=
  let c := c.updConn k fun x =>
    { x with
      record := some r.toSessionIdent
      standing := Function.update x.standing r.sid r.toStanding
      resumeToken := some token
      joined := true
      held := x.held ++ [r.toSessionIdent] }
  c.updSrv k.inst fun v => { v with joinedCount := v.joinedCount + 1 }

/-! ### Midnight -/

/-- `Connection.rollover`, up to its first await. -/
def rollover (next : DailyRoom) (suspicion : ℚ) : Core :=
  let x := c.conn k
  match x.record with
  | none => c
  | some r =>
      if !x.joined || x.closed then c
      else
        let input : NewSessionInput :=
          { ipHash := x.info.net.dailyHash
            country := x.info.country
            now := c.clock
            suspicion := suspicion
            challengePending := (x.standing r.sid).challengePending }
        c.draw.updConn k fun x =>
          { x with
            rolling := some
              { now := c.clock, next := next, create := createSession env c.draws next input } }

/-- The new identity is taken up and announced. `prev` is the room the server left. -/
def rolloverEnter (sent : Bool) (p : RolloverPc) (prev : DailyRoom) (r : SessionRecord)
    (token : Token) : Core :=
  let old := (c.conn k).record.getD r.toSessionIdent
  let c := c.updConn k fun x =>
    { x with
      record := some r.toSessionIdent
      standing := Function.update x.standing r.sid r.toStanding
      resumeToken := some token
      held := x.held ++ [r.toSessionIdent]
      rolling := none }
  (c.observe (.rolled k (c.srv k.inst).resets prev old r.toSessionIdent)).announce k sent
    (.reset r.toSessionIdent token p.next)

/-- `Connection.rollover` waits on, or is over. -/
def setRolling (p : Option RolloverPc) : Core := c.updConn k fun x => { x with rolling := p }

end Core

namespace Sys

variable (env : Env) (s : Sys) (k : ConnKey)

def checkRoom (i : InstanceId) : Sys := s.onCore (·.checkRoom env i)

/-! ### Joining -/

/-- The session is taken up: the suspicion it carries counts, then `Core.enter`, and the
history is asked for. -/
def joinEnter (j : JoinCtx) (r : SessionRecord) (token : Token) : Sys :=
  let stored := SuspicionScore.value env.halfPow ⟨r.suspicion, r.suspicionAt⟩ j.now
  let carry := fun (c : Conduct) =>
    let v := c.score.value env.halfPow j.now
    if stored > v then { c with score := c.score.add env.halfPow (stored - v) j.now false } else c
  let s := s.updSide k fun d =>
    { d with
      rating := Function.update d.rating r.sid r.toRating
      conduct :=
        ({ carry d.conduct with joinedAt := j.now, joinTimer := false } : Conduct).applyTier env
          j.now }
  (s.onCore (·.enter k r token)).suspend k
    (.join (.history j r.toSessionIdent token (s.roomOf k) .pending))

/-- The background verification that follows a join; an empty one is missing. -/
def joinVerify (verification : Option String) : Sys :=
  if env.provider = some .turnstile then
    match verification.filter (· ≠ "") with
    | none => s.signal env k .verificationMissing
    | some t => s.start (.verify k t .pending)
  else s

/-- The welcome: sent once the history has been read. -/
def joinWelcome (j : JoinCtx) (r : SessionIdent) (token : Token) (room : DailyRoom)
    (history : List StoredMessage) : Sys :=
  let s := s.announce env k (.welcome r token room history)
  let s := if ((s.conn k).standing r.sid).challengePending then s.sendChallenge env k true else s
  ((s.joinVerify env k j.verification).persistSoon k).finish k

/-- `join` after an await. -/
def joinResume : JoinPc → Option Sys
  | .resume j token r => r.resume.map fun x => s.onCore (·.joinResumed k j r.room token x)
  | .rejoin j record token p =>
      (p.orElse 0).map fun churn =>
        (s.signalIf env k (churn > 12) .reconnectChurn).onCore (·.joinCheck k j record token)
  | .newsess j room p =>
      (p.orElse 0).map fun created =>
        if created > env.config.newSessionsPerIpHour * 3 then
          ((s.send k (.error "try_later" "Too many new sessions from your network.")).close k
            Close.tryLater "session flood").finish k
        else
          let s := s.signalIf env k (created > env.config.newSessionsPerIpHour)
            .manyNewSessionsFromNetwork
          s.onCore (·.joinCreate env k j room ((s.side k).conduct.score.value env.halfPow j.now))
  | .create j c => (c.resume env s.draws).map fun r => s.onCore (·.joinCreated k j r)
  | .block j record token p =>
      (p.orElse 0).map fun ttl =>
        if ttl > 0 then (s.blocked k ttl none).finish k else s.joinEnter env k j record token
  | .history j record token room p =>
      (p.orElse []).map fun history => s.joinWelcome env k j record token room history

/-! ### Midnight -/

/-- `Connection.rollover`, up to its first await. -/
def rollover (next : DailyRoom) : Sys :=
  s.onCore (·.rollover env k next ((s.side k).conduct.score.value env.halfPow s.clock))

/-- The new identity is taken up and announced. -/
def rolloverEnter (p : RolloverPc) (prev : DailyRoom) (r : SessionRecord) (token : Token) : Sys :=
  let s := s.updSide k fun d =>
    { d with
      rating := Function.update d.rating r.sid r.toRating
      conduct := { d.conduct with rolledAt := p.now, replies := [], recentOwn := [] } }
  let frame := s.announcementFrame env k (.reset r.toSessionIdent token p.next)
  let s := (s.onCore (·.rolloverEnter k (s.up k) p prev r token)).send k frame
  if r.challengePending then s.sendChallenge env k true else s

/-- `Connection.rollover` after an await. A failure closes the connection so it rejoins. -/
def rolloverResume (prev : DailyRoom) (p : RolloverPc) : Option Sys :=
  (p.create.resume env s.draws).map fun r =>
    let s : Sys := { s with draws := r.2 }
    match r.1 with
    | .wait c => s.onCore (·.setRolling k (some { p with create := c }))
    | .done record token =>
        if (s.conn k).closed then s.onCore (·.setRolling k none)
        else s.rolloverEnter env k p prev record token
    | .threw => (s.onCore (·.setRolling k none)).close k Close.tryLater "reset"

/-! ### Sending -/

/-- `reject`: a hint of `0` milliseconds is left out. -/
def rejectWith (e : SendEvent) (reason : RejectReason) (retryAfterMs : Option ℤ) : ServerEvent :=
  .reject e.clientId reason (retryAfterMs.filter (· ≠ 0))

/-- The message of an accepted send. -/
def acceptedMessage (draws : ℕ) (l : SendLocals) : StoredMessage :=
  { id := env.newMessageId draws, author := l.record.name, text := l.text, ts := l.now
    country := l.record.country, sid := l.record.sid }

/-- `decide` returns a reply. -/
def decided (e : SendEvent) (reply : ServerEvent) : Sys := s.suspend k (.send (.reply e reply))

/-- `decide` awaits `escalate`. -/
def decideEscalate (l : SendLocals) (site : EscalateSite) : Sys :=
  let r := s.escalate env k l.now
  r.1.suspend k (.send (.escalate l site r.2))

/-- `decide`, step 4: cooldown and token bucket. -/
def decideRate (l : SendLocals) : Sys :=
  let now := l.now
  let c := (s.side k).conduct
  if now < c.cooldownUntil then
    if now - c.lastIgnoredSignal ≥ 250 then
      ((s.updConduct k fun c => { c with lastIgnoredSignal := now }).signal env k
        .ignoredCooldown).decideEscalate env k l .limited
    else s.decided k l.event (rejectWith l.event .rateLimited (some (c.cooldownUntil - now)))
  else
    let t := c.bucket.take env.round now 1
    let s := s.updConduct k fun c => { c with bucket := t.2 }
    if t.1 > 0 then
      let strikes := (if now - c.lastStrikeAt > 60000 then 0 else c.strikes) + 1
      let s := s.updConduct k fun c =>
        { c with
          strikes := strikes
          lastStrikeAt := now
          cooldownUntil := now + max t.1 (violationCooldownMs strikes) }
      (s.signal env k .rateLimitHit).decideEscalate env k l .limited
    else s.suspend k (.send (.hit l .pending))

/-- `decide`, steps 1 to 3: day boundary, enforcement state, content. -/
def decideSend (e : SendEvent) (r : SessionIdent) : Sys :=
  let now := s.clock
  let room := s.roomOf k
  let c := s.conn k
  if (env.roomAt now).roomId ≠ room.roomId then
    (s.checkRoom env k.inst).decided k e (rejectWith e .staleRoom none)
  else if e.day.any (· ≠ room.day) then s.decided k e (rejectWith e .staleRoom none)
  else if e.day = none ∧ now - (s.side k).conduct.rolledAt < STALE_ROOM_GRACE_MS then
    s.decided k e (rejectWith e .staleRoom none)
  else if r.roomId ≠ room.roomId then s.decided k e (rejectWith e .staleRoom none)
  else if c.blockedUntil > now then
    s.decided k e (rejectWith e .blocked (some (c.blockedUntil - now)))
  else if (c.standing r.sid).challengePending then
    (s.sendChallenge env k false).decided k e (rejectWith e .challengeRequired none)
  else
    match env.normalizeText e.text env.config.maxMessageLength env.config.maxMessageLines with
    | .error reason => s.decided k e (rejectWith e reason none)
    | .ok text =>
        s.decideRate env k
          { event := e, now := now, record := r, text := text
            resets := (s.srv k.inst).resets, mark := s.world.journal.length }

/-- `decide`, step 6 up to the shared duplicate check: the signals of cadence, of a send right
after the join, and of an own duplicate. -/
def decideSignals (l : SendLocals) : Sys :=
  let now := l.now
  let t := (s.side k).conduct.timing.record now
  let s := (s.updConduct k fun c => { c with timing := t.2 }).signalIf env k t.1
    .machineRegularTiming
  let s := s.signalIf env k (now - (s.side k).conduct.joinedAt < 400) .instantAfterJoin
  let fp := env.fingerprint l.text
  let recent := (s.side k).conduct.recentOwn.filter fun m => now - m.2 < 60000
  let s := (s.updConduct k fun c => { c with recentOwn := recent }).signalIf env k
    (recent.any fun m => m.1 = fp) .ownDuplicate
  s.updConduct k fun c =>
    let own := c.recentOwn ++ [(fp, now)]
    { c with recentOwn := if own.length > 8 then own.tail else own }

/-- `decide`, step 8: the message, to be appended to the room now in force. -/
def decideAccept (l : SendLocals) : Sys :=
  s.onCore fun c => c.draw.suspend k
    (.send (.append l (c.roomOf k) (acceptedMessage env c.draws l) .pending))

/-- `replies.set`, keeping the insertion order of the map, and the eviction of the oldest of
more than 64 replies. -/
def cacheReply (replies : List (String × ServerEvent)) (clientId : String) (r : ServerEvent) :
    List (String × ServerEvent) :=
  let replies :=
    if replies.any (fun p => p.1 = clientId) then
      replies.map fun p => if p.1 = clientId then (clientId, r) else p
    else replies ++ [(clientId, r)]
  if replies.length > 64 then replies.tail else replies

/-- `handleSend`, up to its await. -/
def handleSend (e : SendEvent) : Sys :=
  let c := s.conn k
  match c.record with
  | none => ((s.signal env k .sendBeforeJoin).send k (.reject e.clientId .invalid none)).finish k
  | some r =>
      if !c.joined then
        ((s.signal env k .sendBeforeJoin).send k (.reject e.clientId .invalid none)).finish k
      else
        match (s.side k).conduct.replies.find? fun p => p.1 = e.clientId with
        | some prior => (s.send k prior.2).finish k
        | none => (s.onCore (·.observe (.deciding k c.handled e))).decideSend env k e r

/-- `handleSend` after `decide`: cache the reply, then send it. -/
def handleSendReply (e : SendEvent) (reply : ServerEvent) : Sys :=
  let s :=
    if s.up k then s.onCore (·.observe (.replied k (s.conn k).handled reply)) else s
  ((s.updConduct k fun c =>
    { c with replies := cacheReply c.replies e.clientId reply }).send k reply).finish k

/-- `decide` after an await. -/
def sendResume : SendPc → Option Sys
  | .hit l p =>
      (p.orElse 0).map fun netCount =>
        if netCount > NETWORK_MSG_LIMIT then
          (s.signal env k .networkFlood).decided k l.event
            (rejectWith l.event .rateLimited (some 5000))
        else
          let s := s.decideSignals env k l
          if (env.fingerprint l.text).length ≥ CROSS_DUP_MIN_CHARS then
            s.suspend k (.send (.dup l .pending))
          else s.decideEscalate env k l .accept
  | .dup l p =>
      (p.orElse 0).map fun senders =>
        (s.signalIf env k (senders ≥ CROSS_DUP_SESSIONS)
          .crossSessionDuplicate).decideEscalate env k l .accept
  | .escalate l site e =>
      match e with
      | .returned (some reason) => some (s.decided k l.event (rejectWith l.event reason none))
      | .returned none =>
          match site with
          | .limited =>
              some (s.decided k l.event (rejectWith l.event .rateLimited
                (some ((s.side k).conduct.cooldownUntil - l.now))))
          | .accept => some (s.decideAccept env k l)
      | e => (s.escalateResume env k e).map fun r => r.1.suspend k (.send (.escalate l site r.2))
  | .append l room m p =>
      match p with
      | .pending => none
      | .rejected => some (s.decided k l.event (rejectWith l.event .invalid none))
      | .fulfilled _ => some (s.suspend k (.send (.publish l room m .pending)))
  | .publish l _ m p =>
      match p with
      | .pending => none
      | .rejected => some (s.decided k l.event (rejectWith l.event .invalid none))
      | .fulfilled _ => some (s.decided k l.event (.ack l.event.clientId (toPublic m)))
  | .reply e reply => some (s.handleSendReply k e reply)

/-! ### Answering a challenge -/

/-- `challengeResponse`, up to its first await. -/
def challengeResponse (token : String) : Sys :=
  let c := s.conn k
  match c.record with
  | none => s.finish k
  | some r =>
      if !(c.standing r.sid).challengePending then s.finish k
      else if s.clock - (s.side k).conduct.lastChallengeAttempt < 1000 then s.finish k
      else
        (s.updConduct k fun c => { c with lastChallengeAttempt := s.clock }).suspend k
          (.challenge (.verify token r s.clock .pending))

/-- A passed challenge: the captured record, the score, the cooldown and the bucket are
reset, then `persist`. -/
def challengePassed (r : SessionIdent) (now : ℤ) : Sys :=
  let s := s.onCore (·.pass k r (now + TRUST_WINDOW_MS))
  let s := s.updConduct k fun c =>
    let c := ({ c with score := SuspicionScore.reset now, strikes := 0, cooldownUntil := 0 } :
      Conduct).applyTier env now
    { c with bucket := TokenBucket.new c.tier.capacity c.tier.refillPerSec now }
  let q := s.persist env k
  q.1.suspend k (.challenge (.passed q.2 (savePromise q.2)))

/-- A failed challenge: the third failure blocks. -/
def challengeFailed (r : SessionIdent) : Sys :=
  let s := (s.onCore (·.fail k r)).send k (.challengeResult false)
  if ((s.conn k).standing r.sid).challengeFails ≥ 3 then
    match (s.conn k).record with
    | none => s.finish k
    | some r =>
        let b := s.toCore.tempBlock k r "challenge_failed"
        s.onCore fun _ => b.1.suspend k (.challenge (.block b.2))
  else
    let q := s.persist env k
    q.1.suspend k (.challenge (.failed q.2 (savePromise q.2)))

/-- `challengeResponse` after an await. -/
def challengeResume : ChallengePc → Option Sys
  | .verify _ r now p =>
      (p.orElse false).map fun ok =>
        if (s.conn k).closed then s.finish k
        else if ok then s.challengePassed env k r now
        else s.challengeFailed env k r
  | .passed _ p => (p.orElse ()).map fun _ => (s.send k (.challengeResult true)).finish k
  | .failed _ p => (p.orElse ()).map fun _ => s.finish k
  | .block b =>
      (s.tempBlockResume env k b).map fun r =>
        match r.2 with
        | .inl b => r.1.suspend k (.challenge (.block b))
        | .inr b => (r.1.tempBlockEnd k b).finish k

/-! ### Reports and pings -/

/-- `report`, up to its first await. -/
def report (id : MsgId) (reason : String) : Sys :=
  match (s.conn k).record with
  | none => s.finish k
  | some r => s.suspend k (.report (.hit r id reason .pending))

/-- `report` after an await; a failure to log the event fails the handler. -/
def reportResume : ReportPc → Option Sys
  | .hit r id reason p =>
      (p.orElse 0).map fun n =>
        if n > 20 then (s.send k (.error "rate_limited" "Too many reports.")).finish k
        else s.suspend k (.report (.recent r id reason (s.roomOf k).roomId .pending))
  | .recent r id reason _ p =>
      (p.orElse []).map fun recent =>
        match recent.find? fun m => m.id = id with
        | none =>
            (s.send k (.error "not_found" "That message is no longer available.")).finish k
        | some m =>
            s.suspend k (.report (.event id (.report reason (s.roomOf k).roomId id m.author m.text
              m.sid (env.logTag r.sid)) .pending))
  | .event id _ p =>
      match p with
      | .pending => none
      | .rejected => some (s.finish k)
      | .fulfilled _ => some ((s.send k (.reported id)).finish k)

/-- `ping`: at most six answers a second. -/
def ping (t : ℤ) : Sys :=
  let now := s.clock
  let s := s.updConduct k fun c =>
    let c := if now - c.pingStart > 1000 then { c with pingStart := now, pingCount := 0 } else c
    { c with pingCount := c.pingCount + 1 }
  let n := (s.side k).conduct.pingCount
  let s := s.signalIf env k (n = 6) .pingFlood
  (if n > 6 then s else s.send k (.pong t)).finish k

/-! ### Inbound frames -/

/-- `invalid`. -/
def invalid (binary : Bool) : Sys :=
  let s := (s.updConduct k fun c => { c with invalidFrames := c.invalidFrames + 1 }).signal env k
    (if binary then .binaryFrame else .malformedFrame)
  let s := s.send k
    (.error "bad_request" (if binary then "Text frames only." else "Malformed event."))
  if (s.side k).conduct.invalidFrames ≥ MAX_INVALID_FRAMES then
    s.close k Close.policy "malformed"
  else s

/-- The frames a connection has queued and not finished. -/
def queued : ℕ := (s.side k).queue.length + if (s.conn k).handler.isSome then 1 else 0

/-- `onFrame`. -/
def onFrame (raw : Raw) : Sys :=
  let now := s.clock
  let s := s.updConduct k fun c => { c with lastFrameAt := now, alive := true }
  if raw = .binary then s.invalid env k true
  else if s.queued k ≥ MAX_QUEUED_FRAMES then
    if now - (s.side k).conduct.lastIgnoredSignal ≥ 250 then
      (s.updConduct k fun c => { c with lastIgnoredSignal := now }).signal env k .ignoredCooldown
    else s
  else s.updSide k fun d => { d with queue := d.queue ++ [raw] }

/-- `handle`, up to its first await, on the frame just taken from the queue. -/
def handle (raw : Raw) : Sys :=
  if (s.conn k).closed then s.finish k
  else
    match raw with
    | .binary => (s.invalid env k true).finish k
    | .notJson => (s.invalid env k false).finish k
    | .notEvent => (s.invalid env k false).finish k
    | .event (.join resume verification) => s.onCore (·.join k resume verification)
    | .event (.send e) => s.handleSend env k e
    | .event (.challengeResponse token) => s.challengeResponse k token
    | .event (.ping t) => s.ping env k t
    | .event (.report id reason) => s.report k id reason

/-- A frame handler after an await. -/
def handlerResume : Handler → Option Sys
  | .join p => s.joinResume env k p
  | .send p => s.sendResume env k p
  | .challenge p => s.challengeResume env k p
  | .report p => s.reportResume env k p

/-- The pong handler. -/
def onPong : Sys := s.updConduct k fun c => { c with alive := true, lastFrameAt := s.clock }

/-- `heartbeat`. -/
def heartbeat : Sys :=
  let c := (s.side k).conduct
  if !c.alive ∨ s.clock - c.lastFrameAt > IDLE_TIMEOUT_MS then s.terminate k
  else s.updConduct k fun c => { c with alive := false }

end Sys

end RoomBackend
