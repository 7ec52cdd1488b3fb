import RoomBackend.Handlers

/-! # The room server (`gateway/room-server.ts`, `http/routes.ts`)

Admission and acceptance, fan-out, presence, the daily reset, shutdown, and the two admin
requests that touch sessions. Loops over `conns` run in the order of `conns`. -/

namespace RoomBackend

open Async Day RateLimit Suspicion

def RESET_BATCH : ℕ := 250

/-! ### Fresh objects -/

/-- The copy of a session record before any session is held. -/
def Standing.fresh : Standing :=
  { challengePending := false, challengeFails := 0, trustedUntil := 0, blocks := 0, base := 0
    flagged := 0 }

/-- A `Connection` that was just made. -/
def Conn.new (info : AdmitInfo) : Conn :=
  { info := info, record := none, standing := fun _ => Standing.fresh, joined := false
    resumeToken := none, closed := false, handler := none, rolling := none, blockedUntil := 0
    handled := 0, held := [], announced := [] }

/-- A connection that was never made. -/
def Conn.unborn : Conn := { Conn.new ⟨⟨"", ""⟩, false, false, none, "", ""⟩ with closed := true }

/-- The scoring and timing fields of a new connection. -/
def Conduct.new (now : ℤ) : Conduct :=
  { alive := true, lastFrameAt := now, joinedAt := 0, rolledAt := 0, invalidFrames := 0
    score := { score := 0, setAt := 0 }, timing := TimingAnalyzer.new
    bucket := TokenBucket.new Tier.normal.capacity Tier.normal.refillPerSec now
    tier := .normal, strikes := 0, lastStrikeAt := 0, cooldownUntil := 0, lastIgnoredSignal := 0
    recentOwn := [], replies := [], pingStart := 0, pingCount := 0, lastChallengeAttempt := 0
    lastChallengeSent := 0, persistTimer := false, joinTimer := true }

/-- Its side: an open socket and an empty queue. -/
def Side.new (now : ℤ) : Side :=
  { queue := [], socket := { state := .opened, slow := false, sent := [], closeFrame := none }
    conduct := Conduct.new now, rating := fun _ => { suspicion := 0, suspicionAt := 0 } }

namespace Core

variable (env : Env) (c : Core)

/-! ### Admission -/

/-- The `AdmitInfo` of a request. -/
def admitInfo (i : InstanceId) (req : UpgradeReq) : AdmitInfo :=
  { net := env.networkIdentity (c.srv i).room.roomId (env.networkKey req.ip)
    hasOrigin := req.origin.any (· ≠ "")
    automatedUA := req.automatedUA
    country := if env.config.exposeCountry && env.config.trustProxy then req.ipCountry else none
    network := env.networkKey req.ip
    roomId := (c.srv i).room.roomId }

/-- `admit`, up to its first await: the local checks. -/
def admitRequest (i : InstanceId) (req : UpgradeReq) : UpgradePc :=
  let v := c.srv i
  if v.shuttingDown then .refused 503 "shutting_down"
  else if req.origin.any (fun o => o ≠ "" && !env.isOriginAllowed o) then .refused 403 "origin"
  else if v.conns.length ≥ env.config.maxConnections then .refused 503 "capacity"
  else if (v.perNetwork (c.admitInfo env i req).net.dailyHash).getD 0 ≥
      env.config.maxConnectionsPerIp then .refused 429 "per_network"
  else .netBlock .pending

/-- `onUpgrade`: only `/ws` is upgraded. -/
def onUpgrade (i : InstanceId) (req : UpgradeReq) : Core :=
  let u : Upgrade :=
    { inst := i, info := c.admitInfo env i req, destroyed := false
      pc := if req.path = "/ws" then c.admitRequest env i req else .refused 404 "path" }
  { c with upgrade := Function.update c.upgrade c.upgrades (some u), upgrades := c.upgrades + 1 }

def setUpgrade (n : ℕ) (u : Upgrade) : Core :=
  { c with upgrade := Function.update c.upgrade n (some u) }

/-- `accept`: the connection is made and counted. -/
def accept (i : InstanceId) (info : AdmitInfo) : Core :=
  let k : ConnKey := ⟨i, (c.srv i).seq + 1⟩
  let c := { c.updConn k fun _ => Conn.new info with accepted := c.accepted ++ [k] }
  c.updSrv i fun v =>
    { v with
      seq := v.seq + 1
      conns := v.conns ++ [v.seq + 1]
      perNetwork := Function.update v.perNetwork info.net.dailyHash
        (some ((v.perNetwork info.net.dailyHash).getD 0 + 1)) }

/-- `RoomServer.onClosed`. -/
def onClosed (k : ConnKey) : Core :=
  let x := c.conn k
  c.updSrv k.inst fun v =>
    if k.seq ∈ v.conns then
      let n := (v.perNetwork x.info.net.dailyHash).getD 1 - 1
      { v with
        conns := v.conns.erase k.seq
        joinedCount := if x.joined then v.joinedCount - 1 else v.joinedCount
        perNetwork := Function.update v.perNetwork x.info.net.dailyHash
          (if n ≤ 0 then none else some n) }
    else v

/-! ### Fan-out -/

/-- `onBus`, a message: delayed cross-midnight events never leak into the new room. -/
def onMessage (i : InstanceId) (m : BusMessage) : Core :=
  if m.roomId ≠ (c.srv i).room.roomId then c.observe (.dropped i m (c.srv i).room.roomId)
  else c.updSrv i fun v => { v with outbox := v.outbox ++ [m], flushScheduled := true }

/-- The messages of the outbox that are flushed: those of the current room. -/
def batch (i : InstanceId) : List BusMessage :=
  (c.srv i).outbox.filter fun m => m.roomId = (c.srv i).room.roomId

/-- The other messages of the outbox. -/
def stale (i : InstanceId) : List BusMessage :=
  (c.srv i).outbox.filter fun m => m.roomId ≠ (c.srv i).room.roomId

/-- `flushOutbox`, without the frames. -/
def flushOutbox (i : InstanceId) : Core :=
  let room := (c.srv i).room.roomId
  let log := (c.stale i).map (fun m => Obs.dropped i m room) ++ [.flushed i (c.batch i)]
  let c := c.updSrv i fun v => { v with outbox := [], flushScheduled := false }
  { c with world := { c.world with journal := c.world.journal ++ log } }

/-- A flush sends to this connection: it is joined and its session is of the current room. -/
def receives (i : InstanceId) (k : ConnKey) : Bool :=
  (c.conn k).joined && (c.conn k).record.any (fun r => r.roomId = (c.srv i).room.roomId)

/-! ### The daily reset -/

/-- Set the suspension point of `RoomServer.rollover`; `none` when it has returned. -/
def setReset (i : InstanceId) (p : Option RollingPc) : Core :=
  c.updSrv i fun v => { v with rolling := p }

/-- The joined connections, in order. -/
def live (i : InstanceId) : List ℕ := (c.srv i).conns.filter fun n => (c.conn ⟨i, n⟩).joined

/-- Every `Connection.rollover` of a batch has returned. -/
def batchDone (i : InstanceId) (current : List ℕ) : Bool :=
  current.all fun n => (c.conn ⟨i, n⟩).rolling.isNone

end Core

/-- `encode`: one message, or several in one frame. -/
def encode : List ChatMessage → ServerEvent
  | [m] => .message m
  | ms => .messages ms

/-- The frame of a flush for one connection: senders get a variant without their own
messages, and nothing when no other is left. -/
def flushFrame (batch : List BusMessage) (k : ConnKey) : Option ServerEvent :=
  if batch.any (fun m => m.exclude = some k) then
    let rest := (batch.filter fun m => m.exclude ≠ some k).map BusMessage.message
    if rest = [] then none else some (encode rest)
  else some (encode (batch.map BusMessage.message))

namespace Sys

variable (env : Env) (s : Sys)

/-- Run `f` on the listed connections of an instance, one after another. -/
def forConns (i : InstanceId) (f : ConnKey → Sys → Sys) (ns : List ℕ) : Sys :=
  ns.foldl (fun s n => f ⟨i, n⟩ s) s

/-! ### Admission -/

/-- `admit` and the handshake, after an await. A failing store check fails open. -/
def admitResume (destroyed : Bool) : UpgradePc → Option UpgradePc
  | .netBlock p =>
      match p with
      | .pending => none
      | .rejected => some .admitted
      | .fulfilled netBlock => some (.backoff netBlock .pending)
  | .backoff netBlock p =>
      match p with
      | .pending => none
      | .rejected => some .admitted
      | .fulfilled backoff =>
          if netBlock > 0 then some (.refused 403 "blocked")
          else if backoff > 0 then some (.refused 429 "backoff")
          else some (.attempts .pending)
  | .attempts p =>
      match p with
      | .pending => none
      | .rejected => some .admitted
      | .fulfilled n =>
          if n > env.config.connectAttemptsPerMin then some (.floods .pending) else some .admitted
  | .floods p =>
      match p with
      | .pending => none
      | .rejected => some .admitted
      | .fulfilled n => some (.penalty n .pending)
  | .penalty _ p =>
      match p with
      | .pending => none
      | .rejected => some .admitted
      | .fulfilled _ => some (.refused 429 "connect_flood")
  | .admitted => some (if destroyed then .gone else .handshake)
  | .handshake => some (if destroyed then .gone else .accepted)
  | _ => none

/-- The constructor of `Connection` and `accept`. -/
def accept (i : InstanceId) (info : AdmitInfo) : Sys :=
  let k : ConnKey := ⟨i, (s.srv i).seq + 1⟩
  let s := (s.onCore (·.accept i info)).updSide k fun _ => Side.new s.clock
  (s.signalIf env k info.automatedUA .automationUserAgent).signalIf env k (!info.hasOrigin)
    .missingOrigin

/-- An upgrade after an await. -/
def upgradeResume (n : ℕ) (u : Upgrade) : Option Sys :=
  (admitResume env u.destroyed u.pc).map fun pc =>
    let s := s.onCore (·.setUpgrade n { u with pc := pc })
    if pc = .accepted then s.accept env u.inst u.info else s

/-! ### Closing -/

/-- `Connection.onClose`. -/
def onClose (k : ConnKey) : Sys :=
  if (s.conn k).closed then s
  else
    let s := (s.onCore (·.updConn k fun x => { x with closed := true })).updConduct k fun c =>
      { c with joinTimer := false, persistTimer := false }
    (s.persistDetached env k).onCore (·.onClosed k)

/-- The `close` event of a socket. -/
def closeEvent (k : ConnKey) : Sys :=
  (s.updSocket k fun x => { x with state := .closed }).onClose env k

/-- The join timer. -/
def joinTimeout (k : ConnKey) : Sys :=
  let s := s.updConduct k fun c => { c with joinTimer := false }
  if (s.conn k).joined then s else s.close k Close.policy "join timeout"

/-- The timer of a delayed save. -/
def persistTimeout (k : ConnKey) : Sys :=
  (s.updConduct k fun c => { c with persistTimer := false }).persistDetached env k

/-! ### Fan-out -/

/-- `onBus`. -/
def onBus (i : InstanceId) : BusEvent → Sys
  | .message m => s.onCore (·.onMessage i m)
  | .kick _ sid _ =>
      s.forConns i
        (fun k s =>
          if (s.conn k).record.any (fun r => r.sid = sid) then
            s.blocked k 60000 (some "You’ve been removed from the room for now.")
          else s)
        (s.srv i).conns

/-- `flushOutbox`. -/
def flushOutbox (i : InstanceId) : Sys :=
  let batch := s.batch i
  let s := s.onCore (·.flushOutbox i)
  if batch = [] then s
  else
    s.forConns i
      (fun k s =>
        if s.receives i k then
          match flushFrame batch k with
          | none => s
          | some e => s.send k e
        else s)
      (s.srv i).conns

/-- `broadcastLocal`. -/
def broadcastLocal (i : InstanceId) (e : ServerEvent) : Sys :=
  s.forConns i (fun k s => if (s.conn k).joined then s.send k e else s) (s.srv i).conns

/-! ### Heartbeat and presence -/

/-- `RoomServer.heartbeat`. -/
def heartbeats (i : InstanceId) : Sys := s.forConns i (fun k s => s.heartbeat k) (s.srv i).conns

/-- `refreshPresence`, up to its first await. -/
def refreshPresence (i : InstanceId) : Sys :=
  s.start (.reportPresence i s.clock (s.srv i).joinedCount .pending)

/-- `refreshPresence`, its end. -/
def presenceTotal (i : InstanceId) (total : ℤ) : Sys :=
  if total ≠ (s.desk i).online then
    ({ s with desk := Function.update s.desk i { s.desk i with online := total } } :
      Sys).broadcastLocal i (.presence total)
  else s

/-! ### The daily reset -/

/-- The loop over the batches, up to the next await. -/
def resetBatches (i : InstanceId) (prev next : DailyRoom) (rest : List ℕ) : Sys :=
  if rest = [] then s.onCore (·.setReset i none)
  else
    let current := rest.take RESET_BATCH
    let s := s.forConns i (fun k s => s.rollover env k next) current
    s.onCore (·.setReset i (some (.batch prev next current (rest.drop RESET_BATCH))))

/-- The list of joined connections is taken once the cleanup is over. -/
def resetLive (i : InstanceId) (prev next : DailyRoom) : Sys :=
  s.resetBatches env i prev next (s.live i)

/-- `RoomServer.rollover` after an await. A failing cleanup is skipped. -/
def resetResume (i : InstanceId) : RollingPc → Option Sys
  | .acquire prev next p =>
      match p with
      | .pending => none
      | .fulfilled true => some (s.onCore (·.setReset i (some (.cleanup prev next .pending))))
      | .fulfilled false => some (s.resetLive env i prev next)
      | .rejected => some (s.resetLive env i prev next)
  | .cleanup prev next p =>
      match p with
      | .pending => none
      | .fulfilled _ => some (s.onCore (·.setReset i (some (.log prev next .pending))))
      | .rejected => some (s.resetLive env i prev next)
  | .log prev next p => (p.orElse ()).map fun _ => s.resetLive env i prev next
  | .batch prev next current rest =>
      if s.batchDone i current then
        some (s.onCore (·.setReset i (some (.breathe prev next rest))))
      else none
  | .breathe prev next rest => some (s.resetBatches env i prev next rest)

/-! ### Shutdown -/

/-- `stop`, up to its first await. -/
def stop (i : InstanceId) : Sys :=
  if (s.srv i).shuttingDown then s
  else (s.onCore (·.updSrv i fun v => { v with shuttingDown := true })).start
    (.removePresence i .pending)

/-- `stop` goes on: the timed closes of the connections are due. -/
def stopDrain (i : InstanceId) : Sys :=
  { s with
    desk := Function.update s.desk i
      { s.desk i with draining := (s.srv i).conns, stopping := true } }

/-- One timed close. -/
def drain (k : ConnKey) : Sys :=
  let s : Sys := { s with
    desk := Function.update s.desk k.inst
      { s.desk k.inst with draining := (s.desk k.inst).draining.erase k.seq } }
  s.close k Close.restart "server restart"

/-- The end of `stop`: whoever is left is terminated, then the backplane is closed. -/
def stopEnd (i : InstanceId) : Sys :=
  (s.forConns i (fun k s => s.terminate k) (s.srv i).conns).onCore fun c =>
    { c with world := { c.world with subscribers := c.world.subscribers.filter (· ≠ i) } }

/-! ### Admin requests -/

/-- `/admin/block` once it is known whether the name has an owner. -/
def adminTarget (i : InstanceId) (b : BlockReq) (sid : Option Sid) : Option AdminPc :=
  match sid with
  | some sid => some (.block b sid .pending)
  | none =>
      if b.messageId.isSome then some (.recent b (s.srv i).room.roomId .pending) else none

/-- `/admin/block`, up to its first await. -/
def adminBlock (i : InstanceId) (b : BlockReq) : Option AdminPc :=
  match b.publicName with
  | some name => some (.owner b name (s.srv i).room.roomId .pending)
  | none => s.adminTarget i b none

/-- An admin request after an await: it waits on, or (`some none`) it is answered. -/
def adminResume (i : InstanceId) : AdminPc → Option (Option AdminPc)
  | .owner b _ _ p =>
      match p with
      | .pending => none
      | .rejected => some none
      | .fulfilled sid => some (s.adminTarget i b sid)
  | .recent b _ p =>
      match p with
      | .pending => none
      | .rejected => some none
      | .fulfilled recent =>
          some ((recent.find? fun m => some m.id = b.messageId).map fun m =>
            .block b m.sid .pending)
  | .block b sid p =>
      match p with
      | .pending => none
      | .rejected => some none
      | .fulfilled _ => some (some (.kick b sid .pending))
  | .kick b sid p =>
      match p with
      | .pending => none
      | .rejected => some none
      | .fulfilled _ => some (some (.log b sid .pending))
  | .log _ _ p => (p.orElse ()).map fun _ => none
  | .unblockOwner _ _ p =>
      match p with
      | .pending => none
      | .rejected => some none
      | .fulfilled sid => some (sid.map fun sid => .unblock sid .pending)
  | .unblock _ p => (p.orElse ()).map fun _ => none

/-! ### Detached work -/

/-- A task after an await. -/
def taskResume (n : ℕ) : Task → Option Sys
  | .persist _ _ p =>
      (p.orElse ()).map fun _ => s.onCore fun c => { c with task := Function.update c.task n none }
  | .admin i a =>
      (s.adminResume i a).map fun a => s.onCore fun c =>
        { c with task := Function.update c.task n (a.map (.admin i)) }

/-- The chore is over. -/
def choreDone (n : ℕ) : Sys := { s with chore := Function.update s.chore n none }

/-- A chore after an await. A verification adds points without the factor for the trusted. -/
def choreResume (n : ℕ) : Chore → Option Sys
  | .verify k _ p =>
      match p with
      | .pending => none
      | .rejected => some (s.choreDone n)
      | .fulfilled true =>
          some ((s.choreDone n).updConduct k fun c =>
            { c with score := c.score.add env.halfPow (-15) s.clock false })
      | .fulfilled false => some ((s.choreDone n).signal env k .verificationFailed)
  | .abuse _ _ p => (p.orElse ()).map fun _ => s.choreDone n
  | .reportPresence i now _ p =>
      match p with
      | .pending => none
      | .rejected => some (s.choreDone n)
      | .fulfilled _ =>
          some { s with chore := Function.update s.chore n (some (.totalPresence i now .pending)) }
  | .totalPresence i _ p =>
      match p with
      | .pending => none
      | .rejected => some (s.choreDone n)
      | .fulfilled total => some ((s.choreDone n).presenceTotal i total)
  | .removePresence i p => (p.orElse ()).map fun _ => (s.choreDone n).stopDrain i

end Sys

end RoomBackend
