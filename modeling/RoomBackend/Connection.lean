import RoomBackend.Operations

/-! # One connection (`gateway/connection.ts`)

The methods of `Connection`, as functions on the system state. An `async` method is cut at
its awaits: the part up to the first await has the method's name, the part after an await is
a `resume` function on the suspended method. A method that finishes within a handler ends
with `finish`. Logging and metrics counters are left out. -/

namespace RoomBackend

open Async Day RateLimit Suspicion

/-! ### Constants -/

def IDLE_TIMEOUT_MS : ℤ := 120000
def MAX_QUEUED_FRAMES : ℕ := 16
def MAX_INVALID_FRAMES : ℕ := 5
def STALE_ROOM_GRACE_MS : ℤ := 3000
def TRUST_WINDOW_MS : ℤ := 1800000
def NETWORK_MSG_LIMIT : ℕ := 80
def CROSS_DUP_MIN_CHARS : ℕ := 12
def CROSS_DUP_SESSIONS : ℕ := 4
def EVENT_RETENTION_MS : ℤ := 7 * dayMs

/-! ### Sockets -/

namespace Socket

variable (s : Socket)

/-- `ws.terminate()`. -/
def terminate : Socket := if s.state = .closed then s else { s with state := .closing }

/-- A frame handed to the socket now is sent. -/
def sends : Bool := s.state = .opened && !s.slow

/-- `sendRaw`: nothing is sent unless the socket is open; a slow consumer is terminated. -/
def sendRaw (e : ServerEvent) : Socket :=
  if s.state ≠ .opened then s
  else if s.slow then s.terminate
  else { s with sent := s.sent ++ [e] }

/-- `close`. -/
def close (code : ℕ) (reason : String) : Socket :=
  if s.state = .opened then { s with state := .closing, closeFrame := some (code, reason) } else s

end Socket

/-! ### Scoring -/

namespace Conduct

variable (env : Env) (c : Conduct) (now : ℤ)

/-- `applyTier`. -/
def applyTier : Conduct :=
  let v := c.score.value env.halfPow now
  let next : Tier :=
    if v ≥ Thresholds.severe then .restricted
    else if v ≥ Thresholds.throttle then .throttled
    else .normal
  if next ≠ c.tier then
    { c with
      tier := next
      bucket := c.bucket.reconfigure env.round next.capacity next.refillPerSec now }
  else c

/-- `persistSoon`: arm the timer of the delayed save. -/
def persistSoon (hasRecord : Bool) : Conduct :=
  if !hasRecord || c.persistTimer then c else { c with persistTimer := true }

/-- `signal`. -/
def signal (trusted hasRecord : Bool) (name : Signal) : Conduct :=
  let c := { c with score := c.score.add env.halfPow name.points now trusted }
  (c.applyTier env now).persistSoon hasRecord

end Conduct

/-- `trusted(now)`. -/
def Conn.trusted (c : Conn) (now : ℤ) : Bool :=
  match c.record with
  | none => 0 > now
  | some r => (c.standing r.sid).trustedUntil > now

/-! ### Updates of the shared part -/

namespace Core

variable (c : Core) (k : ConnKey)

def updConn (f : Conn → Conn) : Core :=
  { c with conn := Function.update c.conn k (f (c.conn k)) }

def updSrv (i : InstanceId) (f : Srv → Srv) : Core :=
  { c with srv := Function.update c.srv i (f (c.srv i)) }

def updStanding (sid : Sid) (f : Standing → Standing) : Core :=
  c.updConn k fun x => { x with standing := Function.update x.standing sid (f (x.standing sid)) }

def observe (o : Obs) : Core := { c with world := c.world.record o }

/-- Start a task that nothing waits for. -/
def spawn (b : Task) : Core :=
  { c with task := Function.update c.task c.tasks (some b), tasks := c.tasks + 1 }

/-- One more random draw. -/
def draw : Core := { c with draws := c.draws + 1 }

def setHandler (h : Option Handler) : Core := c.updConn k fun x => { x with handler := h }

/-- The handler goes on to wait at `h`. -/
def suspend (h : Handler) : Core := c.setHandler k (some h)

/-- The handler has returned. -/
def finish : Core := c.setHandler k none

/-- The room of the server a connection belongs to. -/
def roomOf : DailyRoom := (c.srv k.inst).room

/-- The record of the session a connection holds, with the given score fields. -/
def copy (r : SessionIdent) (q : Rating) : SessionRecord := ⟨r, q, (c.conn k).standing r.sid⟩

/-- What `persist` saves: nothing for a session of another room than the server's. -/
def saveReq (q : Rating) : Option SaveReq :=
  match (c.conn k).record with
  | none => none
  | some r =>
      if r.roomId ≠ (c.roomOf k).roomId then none
      else some { record := c.copy k r q, expireAt := (c.roomOf k).endsAt }

/-- The mute that `blocked` sets. -/
def mute (ttlMs : ℤ) : Core := c.updConn k fun x => { x with blockedUntil := c.clock + ttlMs }

/-- The challenge flag of a session is set, by an issued challenge. -/
def issue (r : SessionIdent) : Core :=
  (c.updStanding k r.sid fun st =>
    { st with challengePending := true, flagged := c.world.journal.length + 1 }).observe
    (.issued k r.sid)

/-- The challenge flag of a session is cleared, by a passed challenge. -/
def pass (r : SessionIdent) (trustedUntil : ℤ) : Core :=
  (c.updStanding k r.sid fun st =>
    { st with challengePending := false, challengeFails := 0, trustedUntil := trustedUntil
              flagged := c.world.journal.length + 1 }).observe (.passed k r.sid)

/-- A failed challenge is counted. -/
def fail (r : SessionIdent) : Core :=
  c.updStanding k r.sid fun st => { st with challengeFails := st.challengeFails + 1 }

/-- The duration of the `n`-th temporary block of a session. -/
def blockDuration (n : ℕ) (room : DailyRoom) (now : ℤ) : ℤ :=
  if n = 1 then 600000 else if n = 2 then 3600000 else max 60000 (room.endsAt - now)

/-- `tempBlock`, up to its first await. -/
def tempBlock (r : SessionIdent) (reason : String) : Core × BlockPc :=
  let c := c.updStanding k r.sid fun st => { st with blocks := st.blocks + 1 }
  let ttl := blockDuration ((c.conn k).standing r.sid).blocks (c.roomOf k) c.clock
  (c, .sess { now := c.clock, record := r, ttl := ttl, reason := reason } .pending)

/-- `tempBlock`, its end: `blocked(ttl)`. -/
def blockEnd (b : BlockLocals) : Core := (c.mute k b.ttl).observe (.blocked k b)

/-- An identity-bearing frame, announced if it is sent. -/
def announce (sent : Bool) (a : Announcement) : Core :=
  c.updConn k fun x => { x with announced := if sent then x.announced ++ [a] else x.announced }

end Core

namespace Sys

/-! ### Updates of the state -/

section updates

variable (s : Sys) (k : ConnKey)

def onCore (f : Core → Core) : Sys := { s with toCore := f s.toCore }

def updSide (f : Side → Side) : Sys :=
  { s with side := Function.update s.side k (f (s.side k)) }

def updConduct (f : Conduct → Conduct) : Sys :=
  s.updSide k fun d => { d with conduct := f d.conduct }

def updSocket (f : Socket → Socket) : Sys := s.updSide k fun d => { d with socket := f d.socket }

/-- Start a chore. -/
def start (b : Chore) : Sys :=
  { s with chore := Function.update s.chore s.chores (some b), chores := s.chores + 1 }

def suspend (h : Handler) : Sys := s.onCore (·.suspend k h)

def finish : Sys := s.onCore (·.finish k)

/-- A frame handed to the socket now is sent. -/
def up : Bool := (s.side k).socket.sends

end updates

variable (env : Env) (s : Sys) (k : ConnKey)

/-! ### Transport -/

def send (e : ServerEvent) : Sys := s.updSocket k (·.sendRaw e)

def close (code : ℕ) (reason : String) : Sys := s.updSocket k (·.close code reason)

def terminate : Sys := s.updSocket k (·.terminate)

/-- The frame an announcement is sent as. -/
def announcementFrame (a : Announcement) : ServerEvent :=
  match a with
  | .welcome record token room history =>
      .welcome ⟨record.name, record.country⟩ room.day room.endsAt s.clock
        (max (s.desk k.inst).online 1) (history.map toPublic) token env.config.maxMessageLength
  | .reset record token room =>
      .reset room.day room.endsAt ⟨record.name, record.country⟩ token

/-- Send an identity-bearing frame. -/
def announce (a : Announcement) : Sys :=
  (s.onCore (·.announce k (s.up k) a)).send k (s.announcementFrame env k a)

/-! ### Scoring -/

def signal (name : Signal) : Sys :=
  s.updConduct k fun c =>
    c.signal env s.clock ((s.conn k).trusted s.clock) (s.conn k).record.isSome name

def persistSoon : Sys := s.updConduct k fun c => c.persistSoon (s.conn k).record.isSome

/-- `signal` if a condition holds. -/
def signalIf (b : Bool) (name : Signal) : Sys := if b then s.signal env k name else s

/-! ### Persistence -/

/-- The score fields `persist` assigns: the current score. -/
def snapshot : Rating :=
  { suspicion := (s.side k).conduct.score.snapshot env.halfPow s.clock, suspicionAt := s.clock }

/-- `persist`, up to its await: the record takes the current score and is saved with the end
of the server's room. -/
def persist : Sys × Option SaveReq :=
  let q := s.snapshot env k
  match s.saveReq k q with
  | none => (s, none)
  | some req =>
      (s.updSide k fun d => { d with rating := Function.update d.rating req.record.sid q },
        some req)

/-- The promise of a `persist`: already fulfilled when there was nothing to save. -/
def savePromise (req : Option SaveReq) : Promise Unit :=
  if req.isSome then .pending else .fulfilled ()

/-- `void this.persist()`. -/
def persistDetached : Sys :=
  let r := s.persist env k
  match r.2 with
  | none => r.1
  | some req => r.1.onCore (·.spawn (.persist k req .pending))

/-! ### Challenge -/

/-- `sendChallenge`. -/
def sendChallenge (force : Bool) : Sys :=
  match env.provider with
  | none => s
  | some provider =>
      if !force && s.clock - (s.side k).conduct.lastChallengeSent < 5000 then s
      else
        (s.updConduct k fun c => { c with lastChallengeSent := s.clock }).send k
          (.challenge provider env.siteKey)

/-- The text of the frame `blocked` sends. -/
def pausedText (ttlMs : ℤ) : String :=
  let minutes := max 1 ((ttlMs + 59999) / 60000)
  "You’ve been paused for about " ++ toString minutes ++ " minute"
    ++ (if minutes = 1 then "" else "s") ++ "."

/-- `blocked`: tell the client and disconnect. -/
def blocked (ttlMs : ℤ) (message : Option String) : Sys :=
  ((s.onCore (·.mute k ttlMs)).send k (.error "blocked" (message.getD (pausedText ttlMs)))).close k
    Close.blocked "blocked"

/-! ### Enforcement -/

/-- `tempBlock`, its last part before the save: the abuse event and `persist`. -/
def tempBlockSave (b : BlockLocals) : Sys × BlockPc :=
  let blocks := ((s.conn k).standing b.record.sid).blocks
  let s := s.start
    (.abuse (.block b.reason (env.logTag b.record.sid) b.ttl blocks) EVENT_RETENTION_MS .pending)
  let r := s.persist env k
  (r.1, .save b r.2 (savePromise r.2))

/-- `tempBlock` after an await: it waits on (`inl`), or the block is complete (`inr`). -/
def tempBlockResume : BlockPc → Option (Sys × (BlockPc ⊕ BlockLocals))
  | .sess b p =>
      (p.orElse ()).map fun _ =>
        let blocks := ((s.conn k).standing b.record.sid).blocks
        if blocks ≥ 2 ∨ (s.side k).conduct.score.value env.halfPow b.now ≥ Thresholds.severe then
          (s, .inl (.net b (min 86400000 (900000 * blocks)) .pending))
        else
          let r := s.tempBlockSave env k b
          (r.1, .inl r.2)
  | .net b _ p =>
      (p.orElse ()).map fun _ =>
        let r := s.tempBlockSave env k b
        (r.1, .inl r.2)
  | .save b _ p => (p.orElse ()).map fun _ => (s, .inr b)

/-- `tempBlock`, its end. -/
def tempBlockEnd (b : BlockLocals) : Sys :=
  ((s.onCore (·.blockEnd k b)).send k (.error "blocked" (pausedText b.ttl))).close k
    Close.blocked "blocked"

/-- `startChallenge`, up to its await. -/
def startChallenge (r : SessionIdent) (score : ℚ) : Sys × EscalatePc :=
  if ((s.conn k).standing r.sid).challengePending then (s, .returned (some .challengeRequired))
  else
    let s := (s.onCore (·.issue k r)).start
      (.abuse (.challengeIssued (env.logTag r.sid) ⌊score + 1 / 2⌋) EVENT_RETENTION_MS .pending)
    let q := s.persist env k
    (q.1, .challenge q.2 (savePromise q.2))

/-- `escalate`, up to its first await. -/
def escalate (now : ℤ) : Sys × EscalatePc :=
  let v := (s.side k).conduct.score.value env.halfPow now
  if v < Thresholds.challenge then (s, .returned none)
  else if (s.conn k).trusted now ∧ v < Thresholds.severe then (s, .returned none)
  else
    match (s.conn k).record with
    | none => (s, .returned none)
    | some r =>
        if env.provider.isSome then s.startChallenge env k r v
        else if v ≥ Thresholds.severe then
          let b := s.toCore.tempBlock k r "severe_automation"
          ({ s with toCore := b.1 }, .block b.2)
        else (s, .returned none)

/-- `escalate` after an await. -/
def escalateResume : EscalatePc → Option (Sys × EscalatePc)
  | .returned _ => none
  | .challenge _ p =>
      (p.orElse ()).map fun _ =>
        (s.sendChallenge env k true, .returned (some .challengeRequired))
  | .block b =>
      (s.tempBlockResume env k b).map fun r =>
        match r.2 with
        | .inl b => (r.1, .block b)
        | .inr b => (r.1.tempBlockEnd k b, .returned (some .blocked))

end Sys

end RoomBackend
