import RoomBackend.Async
import RoomBackend.RateLimit
import RoomBackend.Suspicion
import RoomBackend.Store

/-! # State of the gateway

The objects of `gateway/connection.ts` and `gateway/room-server.ts`: connections, room
servers, the functions that are suspended at one of their awaits, and the shared world
(store and backplane). Every suspension point of an `async` function is a constructor that
carries the locals in scope there and the promise it waits for.

The state is split in two: `Core` holds what the protocol between connections, server and store
depends on, `Sys` adds the transport, scoring and timing of each connection (`Side`) and work
that nothing waits for.

A handful of fields are history variables: no modelled decision reads them. They are
`Conn.handled`, `Conn.held`, `Conn.announced`, `AdmitInfo.network`, `AdmitInfo.roomId`,
`SendLocals.resets`, `SendLocals.mark`, `Standing.base`, `Standing.flagged`, `World.journal`
and `World.lastSave`. -/

namespace RoomBackend

open Async Day RateLimit Suspicion

/-! ### Environment -/

/-- The configuration values the gateway reads. -/
structure Config where
  historyLimit : ℕ
  maxMessageLength : ℕ
  maxMessageLines : ℕ
  maxConnections : ℕ
  maxConnectionsPerIp : ℕ
  connectAttemptsPerMin : ℕ
  newSessionsPerIpHour : ℕ
  exposeCountry : Bool
  trustProxy : Bool

/-- What a run of the program is given: configuration, calendar, challenge provider, the pure
text, hash and address functions, the rounding of the sums of token buckets, and the outcomes of
the random generators (one draw after another; identifiers never repeat, names may). -/
structure Env where
  config : Config
  zone : Zone
  epochDate : EpochDate
  provider : Option Provider
  siteKey : Option String
  halfPow : ℤ → ℚ
  round : Rounding
  normalizeText : String → ℕ → ℕ → Except RejectReason String
  fingerprint : String → String
  textHash : String → String
  logTag : Sid → String
  hmac : String → String
  networkKey : String → String
  isOriginAllowed : String → Bool
  generatePublicName : ℕ → String
  newSessionId : ℕ → Sid
  newResumeToken : ℕ → Token
  newMessageId : ℕ → MsgId
  newSessionId_injective : Function.Injective newSessionId
  newResumeToken_injective : Function.Injective newResumeToken
  newMessageId_injective : Function.Injective newMessageId

namespace Env

variable (env : Env)

/-- `roomAt(now, ROOM_TIMEZONE, ROOM_EPOCH_DATE)`. -/
def roomAt (now : ℤ) : DailyRoom := Day.roomAt now env.zone env.epochDate

/-- `networkIdentity(SERVER_SECRET, roomId, ip)`, from the network key of the address. -/
def networkIdentity (roomId net : String) : NetworkIdentity :=
  { dailyHash := env.hmac ("d|" ++ roomId ++ "|" ++ net), blockHash := env.hmac ("b|" ++ net) }

end Env

/-- An upgrade request, as far as `onUpgrade` and `admit` read it: the path, the `Origin`
header, what `clientIp` and `looksAutomatedUserAgent` return for it, and the
`cf-ipcountry` header when it is a usable two-letter code. -/
structure UpgradeReq where
  path : String
  origin : Option String
  ip : String
  automatedUA : Bool
  ipCountry : Option String
deriving DecidableEq

/-- `AdmitInfo`. Two history variables: `network`, the network key of the client's address, and
`roomId`, the room of the server when the request was admitted. -/
structure AdmitInfo where
  net : NetworkIdentity
  hasOrigin : Bool
  automatedUA : Bool
  country : Option String
  network : String
  roomId : String
deriving DecidableEq

/-! ### Suspended functions -/

/-- `NewSessionInput`. -/
structure NewSessionInput where
  ipHash : String
  country : Option String
  now : ℤ
  suspicion : ℚ
  challengePending : Bool
deriving DecidableEq

/-- The arguments of a `saveSession` issued by `persist`. -/
structure SaveReq where
  record : SessionRecord
  expireAt : ℤ
deriving DecidableEq

/-- `SessionService.create`, suspended. The two writes of its `Promise.all` are answered one
after the other. -/
inductive CreatePc where
  | claim (room : DailyRoom) (input : NewSessionInput) (sid : Sid) (i : ℕ) (candidate : String)
      (p : Promise Bool)
  | save (room : DailyRoom) (record : SessionRecord) (token : Token) (p : Promise Unit)
  | link (room : DailyRoom) (record : SessionRecord) (token : Token) (saved : Bool)
      (p : Promise Unit)
deriving DecidableEq

/-- `SessionService.resume`, suspended. -/
inductive ResumePc where
  | resolve (room : DailyRoom) (token : Token) (p : Promise (Option Sid))
  | load (room : DailyRoom) (sid : Sid) (p : Promise (Option SessionRecord))
deriving DecidableEq

/-- Locals of `join`: the instant it started, the attempt it is in, the verification. -/
structure JoinCtx where
  now : ℤ
  attempt : ℕ
  verification : Option String
deriving DecidableEq

/-- `Connection.join`, suspended. -/
inductive JoinPc where
  | resume (j : JoinCtx) (token : Token) (r : ResumePc)
  | rejoin (j : JoinCtx) (record : SessionRecord) (token : Token) (p : Promise ℕ)
  | newsess (j : JoinCtx) (room : DailyRoom) (p : Promise ℕ)
  | create (j : JoinCtx) (c : CreatePc)
  | block (j : JoinCtx) (record : SessionRecord) (token : Token) (p : Promise ℤ)
  | history (j : JoinCtx) (record : SessionIdent) (token : Token) (room : DailyRoom)
      (p : Promise (List StoredMessage))
deriving DecidableEq

/-- Locals of `decide` once its day, enforcement and content checks have passed. `resets` and
`mark` are history variables: how often the server had switched rooms, and how long the
journal was, when the checks were made. -/
structure SendLocals where
  event : SendEvent
  now : ℤ
  record : SessionIdent
  text : String
  resets : ℕ
  mark : ℕ
deriving DecidableEq

/-- Locals of `tempBlock`. -/
structure BlockLocals where
  now : ℤ
  record : SessionIdent
  ttl : ℤ
  reason : String
deriving DecidableEq

/-- `Connection.tempBlock`, suspended. -/
inductive BlockPc where
  | sess (b : BlockLocals) (p : Promise Unit)
  | net (b : BlockLocals) (netTtl : ℤ) (p : Promise Unit)
  | save (b : BlockLocals) (req : Option SaveReq) (p : Promise Unit)
deriving DecidableEq

/-- `Connection.escalate`, suspended or just returned. -/
inductive EscalatePc where
  | returned (reason : Option RejectReason)
  | challenge (req : Option SaveReq) (p : Promise Unit)
  | block (b : BlockPc)
deriving DecidableEq

/-- The places `decide` awaits `escalate` from: a rate-limited send, or one to be accepted. -/
inductive EscalateSite where
  | limited
  | accept
deriving DecidableEq, Repr

/-- `Connection.handleSend` and `decide`, suspended. -/
inductive SendPc where
  | hit (l : SendLocals) (p : Promise ℕ)
  | dup (l : SendLocals) (p : Promise ℕ)
  | escalate (l : SendLocals) (site : EscalateSite) (e : EscalatePc)
  | append (l : SendLocals) (room : DailyRoom) (message : StoredMessage) (p : Promise Unit)
  | publish (l : SendLocals) (room : DailyRoom) (message : StoredMessage) (p : Promise Unit)
  | reply (event : SendEvent) (reply : ServerEvent)
deriving DecidableEq

/-- `Connection.challengeResponse`, suspended. -/
inductive ChallengePc where
  | verify (token : String) (record : SessionIdent) (now : ℤ) (p : Promise Bool)
  | passed (req : Option SaveReq) (p : Promise Unit)
  | failed (req : Option SaveReq) (p : Promise Unit)
  | block (b : BlockPc)
deriving DecidableEq

/-- `Connection.report`, suspended. -/
inductive ReportPc where
  | hit (record : SessionIdent) (messageId : MsgId) (reason : String) (p : Promise ℕ)
  | recent (record : SessionIdent) (messageId : MsgId) (reason roomId : String)
      (p : Promise (List StoredMessage))
  | event (messageId : MsgId) (e : AbuseEvent) (p : Promise Unit)
deriving DecidableEq

/-- A frame handler, suspended. -/
inductive Handler where
  | join (p : JoinPc)
  | send (p : SendPc)
  | challenge (p : ChallengePc)
  | report (p : ReportPc)
deriving DecidableEq

/-- `Connection.rollover`, suspended in `SessionService.create`. -/
structure RolloverPc where
  now : ℤ
  next : DailyRoom
  create : CreatePc
deriving DecidableEq

/-! ### Connections -/

/-- `WebSocket.readyState`. -/
inductive ReadyState where
  | opened
  | closing
  | closed
deriving DecidableEq, Repr

/-- The socket: its state, whether more than `SLOW_CONSUMER_BYTES` are buffered, the frames
handed to it, and the close frame. -/
structure Socket where
  state : ReadyState
  slow : Bool
  sent : List ServerEvent
  closeFrame : Option (ℕ × String)
deriving DecidableEq

/-- An identity-bearing frame that was sent: the session and token it names and the room it
takes day and end of day from. -/
inductive Announcement where
  | welcome (record : SessionIdent) (token : Token) (room : DailyRoom)
      (history : List StoredMessage)
  | reset (record : SessionIdent) (token : Token) (room : DailyRoom)
deriving DecidableEq

/-- `Connection`, without the fields of its `Side`. The record object of a session is its
identity (`record`) and its assigned fields (`standing`, and `rating` of the side), by session
id: a connection holds at most one object for a session. -/
structure Conn where
  info : AdmitInfo
  record : Option SessionIdent
  standing : Sid → Standing
  joined : Bool
  resumeToken : Option Token
  closed : Bool
  handler : Option Handler
  rolling : Option RolloverPc
  blockedUntil : ℤ
  handled : ℕ
  held : List SessionIdent
  announced : List Announcement

/-- The private fields of a connection that score, limit and time it. -/
structure Conduct where
  alive : Bool
  lastFrameAt : ℤ
  joinedAt : ℤ
  rolledAt : ℤ
  invalidFrames : ℕ
  score : SuspicionScore
  timing : TimingAnalyzer
  bucket : TokenBucket
  tier : Tier
  strikes : ℕ
  lastStrikeAt : ℤ
  cooldownUntil : ℤ
  lastIgnoredSignal : ℤ
  recentOwn : List (String × ℤ)
  replies : List (String × ServerEvent)
  pingStart : ℤ
  pingCount : ℕ
  lastChallengeAttempt : ℤ
  lastChallengeSent : ℤ
  persistTimer : Bool
  joinTimer : Bool

/-- The other fields of a `Connection`: the frames it has queued, its socket, its conduct, and
the score fields of its session records. -/
structure Side where
  queue : List Raw
  socket : Socket
  conduct : Conduct
  rating : Sid → Rating

/-! ### Room servers -/

/-- `RoomServer.rollover`, suspended. -/
inductive RollingPc where
  | acquire (prev next : DailyRoom) (p : Promise Bool)
  | cleanup (prev next : DailyRoom) (p : Promise Unit)
  | log (prev next : DailyRoom) (p : Promise Unit)
  | batch (prev next : DailyRoom) (current rest : List ℕ)
  | breathe (prev next : DailyRoom) (rest : List ℕ)
deriving DecidableEq

/-- `RoomServer`, without the fields of its `Desk`. `conns` lists the connection numbers in
insertion order; `resets` is the `room_resets_total` counter. Its timers run from `start` to
`stop`. -/
structure Srv where
  started : Bool
  room : DailyRoom
  shuttingDown : Bool
  conns : List ℕ
  perNetwork : String → Option ℤ
  joinedCount : ℤ
  rolling : Option RollingPc
  outbox : List BusMessage
  flushScheduled : Bool
  seq : ℕ
  resets : ℕ

/-- The other fields of a `RoomServer`: the total it last broadcast, and what `stop` has left
to do (the connections whose timed close is due, and that it has reached this point). -/
structure Desk where
  online : ℤ
  draining : List ℕ
  stopping : Bool

/-- `RoomServer.admit` and the handshake that follows it, suspended. -/
inductive UpgradePc where
  | netBlock (p : Promise ℤ)
  | backoff (netBlock : ℤ) (p : Promise ℤ)
  | attempts (p : Promise ℕ)
  | floods (p : Promise ℕ)
  | penalty (n : ℕ) (p : Promise Unit)
  | admitted
  | handshake
  | refused (status : ℕ) (reason : String)
  | accepted
  | gone
deriving DecidableEq

/-- An upgrade request in progress. -/
structure Upgrade where
  inst : InstanceId
  info : AdmitInfo
  destroyed : Bool
  pc : UpgradePc
deriving DecidableEq

/-! ### Detached work -/

/-- The body of `/admin/block`. -/
structure BlockReq where
  publicName : Option String
  messageId : Option MsgId
  minutes : ℤ
  reason : String
deriving DecidableEq

/-- The handlers of `/admin/block` and `/admin/unblock`, suspended. -/
inductive AdminPc where
  | owner (b : BlockReq) (name roomId : String) (p : Promise (Option Sid))
  | recent (b : BlockReq) (roomId : String) (p : Promise (List StoredMessage))
  | block (b : BlockReq) (sid : Sid) (p : Promise Unit)
  | kick (b : BlockReq) (sid : Sid) (p : Promise Unit)
  | log (b : BlockReq) (sid : Sid) (p : Promise Unit)
  | unblockOwner (name roomId : String) (p : Promise (Option Sid))
  | unblock (sid : Sid) (p : Promise Unit)
deriving DecidableEq

/-- Detached work that changes shared state: a delayed save, an admin request. -/
inductive Task where
  | persist (k : ConnKey) (req : SaveReq) (p : Promise Unit)
  | admin (i : InstanceId) (a : AdminPc)
deriving DecidableEq

/-- Detached work that only scores, logs or reports presence. -/
inductive Chore where
  | verify (k : ConnKey) (token : String) (p : Promise Bool)
  | abuse (e : AbuseEvent) (retentionMs : ℤ) (p : Promise Unit)
  | reportPresence (i : InstanceId) (now count : ℤ) (p : Promise Unit)
  | totalPresence (i : InstanceId) (now : ℤ) (p : Promise ℤ)
  | removePresence (i : InstanceId) (p : Promise Unit)
deriving DecidableEq

/-! ### The shared world -/

/-- The last save that changed the enforcement fields of a stored record: the connection
that made it and the revision it made. -/
structure SaveStamp where
  author : ConnKey
  rev : ℕ
deriving DecidableEq

/-- What happened, in order. `n` numbers the frames a connection has handled. -/
inductive Obs where
  | deciding (k : ConnKey) (n : ℕ) (e : SendEvent)
  | appended (k : ConnKey) (n : ℕ) (l : SendLocals) (roomId : String) (message : StoredMessage)
  | published (k : ConnKey) (n : ℕ) (l : SendLocals) (m : BusMessage) (to_ : List InstanceId)
  | replied (k : ConnKey) (n : ℕ) (reply : ServerEvent)
  | blocked (k : ConnKey) (b : BlockLocals)
  | issued (k : ConnKey) (sid : Sid)
  | passed (k : ConnKey) (sid : Sid)
  | linked (token : Token) (sid : Sid)
  | saved (k : ConnKey) (record : SessionRecord) (prior : Option (SessionRecord × SaveStamp))
  | rolled (k : ConnKey) (resets : ℕ) (prev : DailyRoom) (old new : SessionIdent)
  | dropped (i : InstanceId) (m : BusMessage) (roomId : String)
  | flushed (i : InstanceId) (batch : List BusMessage)
deriving DecidableEq

/-- The store, the backplane and the journal. `inFlight` are the bus events still to be
delivered, one entry for each subscribed instance. -/
structure World where
  store : Store
  subscribers : List InstanceId
  inFlight : List (InstanceId × BusEvent)
  journal : List Obs
  lastSave : Sid → Option SaveStamp

/-- The state the protocol depends on: the clock every instance and the store agree on, the
shared world, servers, connections, upgrades, detached tasks, and the number of random draws. -/
structure Core where
  clock : ℤ
  world : World
  srv : InstanceId → Srv
  conn : ConnKey → Conn
  accepted : List ConnKey
  upgrade : ℕ → Option Upgrade
  upgrades : ℕ
  task : ℕ → Option Task
  tasks : ℕ
  draws : ℕ

/-- The whole system. -/
structure Sys extends Core where
  side : ConnKey → Side
  desk : InstanceId → Desk
  chore : ℕ → Option Chore
  chores : ℕ

end RoomBackend
