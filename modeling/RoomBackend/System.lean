import RoomBackend.Lts
import RoomBackend.RoomServer

/-! # The whole system

Any number of room servers, connections, upgrade requests and detached tasks on one store and
one backplane. A label is one choice of the scheduler or of the environment: the clock
advances, a client acts, a timer fires, the operation some function waits for takes effect
(`settle`), or a suspended function runs to its next await (`resume`). Functions run without
interruption between two awaits, so a step is one such stretch. -/

namespace RoomBackend

open Async Day Lts

/-- A function that can be suspended. -/
inductive Thread where
  | handler (k : ConnKey)
  | rollover (k : ConnKey)
  | reset (i : InstanceId)
  | upgrade (n : ℕ)
  | task (n : ℕ)
  | chore (n : ℕ)
deriving DecidableEq

inductive Label where
  | clock (t : ℤ)
  | start (i : InstanceId)
  | upgrade (i : InstanceId) (req : UpgradeReq)
  | destroyed (n : ℕ)
  | settle (th : Thread) (o : Outcome) (verdict : Bool)
  | resume (th : Thread)
  | frame (k : ConnKey) (raw : Raw)
  | handle (k : ConnKey)
  | pong (k : ConnKey)
  | peerClosing (k : ConnKey)
  | closeEvent (k : ConnKey)
  | slow (k : ConnKey) (b : Bool)
  | joinTimeout (k : ConnKey)
  | persistTimeout (k : ConnKey)
  | tick (i : InstanceId)
  | heartbeat (i : InstanceId)
  | presence (i : InstanceId)
  | flush (i : InstanceId)
  | deliver (n : ℕ)
  | stop (i : InstanceId)
  | drain (k : ConnKey)
  | stopEnd (i : InstanceId)
  | adminBlock (i : InstanceId) (b : BlockReq)
  | adminUnblock (i : InstanceId) (name : String)
deriving DecidableEq

/-- The timers of a server run. -/
def Srv.ticking (v : Srv) : Bool := v.started && !v.shuttingDown

namespace Core

variable (env : Env) (c : Core)

/-- The operation a thread waits for takes effect. -/
def settle (o : Outcome) (verdict : Bool) : Thread → Option Core
  | .handler k =>
      (c.conn k).handler.bind fun h =>
        (h.settle env c.clock verdict k (c.conn k).handled (c.conn k).info o c.world).map
          fun r => ({ c with world := r.2 } : Core).suspend k r.1
  | .rollover k =>
      (c.conn k).rolling.bind fun p =>
        (p.settle c.clock k o c.world).map fun r =>
          ({ c with world := r.2 } : Core).setRolling k (some r.1)
  | .reset i =>
      (c.srv i).rolling.bind fun p =>
        (p.settle c.clock o c.world).map fun r =>
          ({ c with world := r.2 } : Core).setReset i (some r.1)
  | .upgrade n =>
      (c.upgrade n).bind fun u =>
        (u.pc.settle c.clock u.info o c.world).map fun r =>
          ({ c with world := r.2 } : Core).setUpgrade n { u with pc := r.1 }
  | .task n =>
      (c.task n).bind fun b =>
        (b.settle env c.clock o c.world).map fun r =>
          { c with world := r.2, task := Function.update c.task n (some r.1) }
  | .chore _ => none

/-- A server starts: it takes the room of the instant and subscribes to the backplane. -/
def start (i : InstanceId) : Core :=
  let c := c.updSrv i fun v => { v with started := true, room := env.roomAt c.clock }
  { c with world := { c.world with subscribers := c.world.subscribers ++ [i] } }

/-- The next frame is taken from the queue. -/
def take (k : ConnKey) : Core := c.updConn k fun x => { x with handled := x.handled + 1 }

end Core

namespace Sys

variable (env : Env) (s : Sys)

/-- The operation a thread waits for takes effect. -/
def settle (o : Outcome) (verdict : Bool) : Thread → Option Sys
  | .chore n =>
      (s.chore n).bind fun b =>
        (b.settle s.clock verdict o s.world).map fun r =>
          { s with world := r.2, chore := Function.update s.chore n (some r.1) }
  | th => (s.toCore.settle env o verdict th).map fun c => { s with toCore := c }

/-- The room the server of a connection leaves while its connections are renewed. -/
def leaving (k : ConnKey) : DailyRoom :=
  match (s.srv k.inst).rolling with
  | some (.batch prev _ _ _) => prev
  | _ => s.roomOf k

/-- A suspended function goes on. -/
def resume : Thread → Option Sys
  | .handler k => (s.conn k).handler.bind fun h => s.handlerResume env k h
  | .rollover k => (s.conn k).rolling.bind fun p => s.rolloverResume env k (s.leaving k) p
  | .reset i => (s.srv i).rolling.bind fun p => s.resetResume env i p
  | .upgrade n => (s.upgrade n).bind fun u => s.upgradeResume env n u
  | .task n => (s.task n).bind fun b => s.taskResume n b
  | .chore n => (s.chore n).bind fun b => s.choreResume env n b

/-- A frame handler starts on the next frame of the queue. -/
def handleNext (k : ConnKey) : Option Sys :=
  match (s.conn k).handler, (s.side k).queue with
  | none, raw :: rest =>
      some (((s.onCore (·.take k)).updSide k fun d => { d with queue := rest }).handle env k raw)
  | _, _ => none

/-- The backplane delivers the `n`-th event in flight. -/
def deliver (n : ℕ) : Option Sys :=
  s.world.inFlight[n]?.map fun e =>
    (s.onCore fun c =>
      { c with world := { c.world with inFlight := c.world.inFlight.eraseIdx n } }).onBus e.1 e.2

/-- One step of the system. -/
def step : Label → Option Sys
  | .clock t => if s.clock ≤ t then some (s.onCore fun c => { c with clock := t }) else none
  | .start i =>
      if (s.srv i).started then none
      else some ((s.onCore (·.start env i)).refreshPresence i)
  | .upgrade i req =>
      if (s.srv i).started then some (s.onCore (·.onUpgrade env i req)) else none
  | .destroyed n =>
      (s.upgrade n).map fun u => s.onCore (·.setUpgrade n { u with destroyed := true })
  | .settle th o verdict => s.settle env o verdict th
  | .resume th => s.resume env th
  | .frame k raw => if (s.side k).socket.state = .closed then none else some (s.onFrame env k raw)
  | .handle k => if k ∈ s.accepted then s.handleNext env k else none
  | .pong k => if (s.side k).socket.state = .closed then none else some (s.onPong k)
  | .peerClosing k =>
      if (s.side k).socket.state = .opened then
        some (s.updSocket k fun x => { x with state := .closing })
      else none
  | .closeEvent k =>
      if (s.side k).socket.state = .closed then none else some (s.closeEvent env k)
  | .slow k b => some (s.updSocket k fun x => { x with slow := b })
  | .joinTimeout k => if (s.side k).conduct.joinTimer then some (s.joinTimeout k) else none
  | .persistTimeout k =>
      if (s.side k).conduct.persistTimer then some (s.persistTimeout env k) else none
  | .tick i => if (s.srv i).ticking then some (s.checkRoom env i) else none
  | .heartbeat i => if (s.srv i).ticking then some (s.heartbeats i) else none
  | .presence i => if (s.srv i).ticking then some (s.refreshPresence i) else none
  | .flush i => if (s.srv i).flushScheduled then some (s.flushOutbox i) else none
  | .deliver n => s.deliver n
  | .stop i => if (s.srv i).started then some (s.stop i) else none
  | .drain k => if k.seq ∈ (s.desk k.inst).draining then some (s.drain k) else none
  | .stopEnd i => if (s.desk i).stopping then some (s.stopEnd i) else none
  | .adminBlock i b =>
      if (s.srv i).started then
        (s.adminBlock i b).map fun a => s.onCore (·.spawn (.admin i a))
      else none
  | .adminUnblock i name =>
      if (s.srv i).started then
        some (s.onCore (·.spawn (.admin i (.unblockOwner name (s.srv i).room.roomId .pending))))
      else none

/-- The system before any server has started. -/
def initial (t : ℤ) : Sys :=
  { clock := t
    world :=
      { store := Store.empty, subscribers := [], inFlight := [], journal := []
        lastSave := fun _ => none }
    srv := fun _ =>
      { started := false, room := ⟨"", 0, 0, 0⟩, shuttingDown := false, conns := []
        perNetwork := fun _ => none, joinedCount := 0, rolling := none, outbox := []
        flushScheduled := false, seq := 0, resets := 0 }
    conn := fun _ => Conn.unborn
    accepted := []
    upgrade := fun _ => none
    upgrades := 0
    task := fun _ => none
    tasks := 0
    draws := 0
    side := fun _ =>
      { Side.new 0 with
        socket := { state := .closed, slow := false, sent := [], closeFrame := none }
        conduct := { Conduct.new 0 with joinTimer := false } }
    desk := fun _ => { online := 0, draining := [], stopping := false }
    chore := fun _ => none
    chores := 0 }

end Sys

/-- The system as a machine. -/
def system (env : Env) : Machine Sys Label :=
  { init := fun s => ∃ t, s = Sys.initial t
    step := Sys.step env }

/-- A successful execution from the initial state shows that its end is reached. -/
theorem exists_reached (env : Env) (c : Sys → Label → Bool) (P : Sys → Bool) (t : ℤ)
    (ls : List Label) (h : ((system env).execs c (Sys.initial t) ls).any P = true) :
    ∃ s, (system env).Reaches (fun s l => c s l = true) s ∧ P s = true := by
  obtain ⟨s, hs, hP⟩ := Option.any_eq_true _ _ |>.mp h
  exact ⟨s, Machine.reaches_of_execs (fun _ _ hc => hc) ⟨t, rfl⟩ hs, hP⟩

theorem exists_reached_free (env : Env) (P : Sys → Bool) (t : ℤ) (ls : List Label)
    (h : ((system env).execs (fun _ _ => true) (Sys.initial t) ls).any P = true) :
    ∃ s, (system env).Reaches Free s ∧ P s = true := by
  obtain ⟨s, hs, hP⟩ := exists_reached env _ P t ls h
  exact ⟨s, hs.mono fun _ _ _ => trivial, hP⟩

/-! ### A deployment to run

Days are UTC days and identifiers are the numbers of their draws. The lists of labels are
stretches of schedules in which every operation is answered at once. -/

namespace Demo

/-- The deployment, with or without a challenge provider. Scores halve every four minutes, in
steps. -/
def env (provider : Option Provider) : Env :=
  { config :=
      { historyLimit := 50, maxMessageLength := 500, maxMessageLines := 10, maxConnections := 2
        maxConnectionsPerIp := 2, connectAttemptsPerMin := 30, newSessionsPerIpHour := 20
        exposeCountry := false, trustProxy := false }
    zone := utc
    epochDate := ⟨2026, 3, 11⟩
    provider := provider
    siteKey := none
    halfPow := fun ms => (1 / 2) ^ (ms / 240000).toNat
    round := .binary64
    normalizeText := fun t _ _ => if t = "" then .error .invalid else .ok t
    fingerprint := id
    textHash := id
    logTag := fun sid => toString sid
    hmac := id
    networkKey := id
    isOriginAllowed := fun _ => true
    generatePublicName := fun n => "guest-" ++ toString n
    newSessionId := id
    newResumeToken := id
    newMessageId := id
    newSessionId_injective := Function.injective_id
    newResumeToken_injective := Function.injective_id
    newMessageId_injective := Function.injective_id }

/-- 2026-09-11, at noon. -/
def noon : ℤ := 1789128000000

/-- The midnight after it. -/
def midnight : ℤ := 1789171200000

/-- The `n`-th connection of instance `0`. -/
def conn (n : ℕ) : ConnKey := ⟨0, n⟩

/-- The operation a thread waits for is answered, and the thread goes on. -/
def turn (th : Thread) : List Label := [.settle th .answered false, .resume th]

/-- The next `n` operations of a handler. -/
def turns (k : ConnKey) : ℕ → List Label
  | 0 => []
  | n + 1 => turn (.handler k) ++ turns k n

/-- The `n`-th upgrade request, from the given address, up to its last store check. -/
def request (n : ℕ) (ip : String) : List Label :=
  [.upgrade 0 { path := "/ws", origin := some "https://room", ip := ip, automatedUA := false
                ipCountry := none }]
    ++ turn (.upgrade n) ++ turn (.upgrade n) ++ turn (.upgrade n)

/-- Its last step: the handshake, which accepts the connection. -/
def handshake (n : ℕ) : List Label := [.resume (.upgrade n), .resume (.upgrade n)]

/-- A frame arrives and its handler starts. -/
def receive (k : ConnKey) (e : ClientEvent) : List Label := [.frame k (.event e), .handle k]

/-- A new client joins, up to the answer of the block lookup. -/
def joinChecked (k : ConnKey) : List Label :=
  receive k (.join none none) ++ turns k 4 ++ [.settle (.handler k) .answered false]

/-- A new client joins: the session is taken up, the history read, the welcome sent. -/
def joined (k : ConnKey) : List Label :=
  joinChecked k ++ [.resume (.handler k)] ++ turns k 1

/-- A joined client sends a short text, up to the append of its message. -/
def sending (k : ConnKey) (text : String) : List Label :=
  receive k (.send { clientId := "c", text := text, day := none }) ++ turns k 1
    ++ [.resume (.handler k)]

/-- The message is appended, published and acknowledged. -/
def sent (k : ConnKey) (text : String) : List Label :=
  sending k text ++ turns k 2 ++ [.resume (.handler k)]

/-- A server with one joined connection. -/
def oneJoined : List Label := [.start 0] ++ request 0 "a" ++ handshake 0 ++ joined (conn 1)

/-- A join settles: the welcome names the session and the room. -/
example : ((system (env none)).execs (fun _ _ => true) (Sys.initial noon) oneJoined).any
    (fun s => (s.conn (conn 1)).joined && (s.srv 0).joinedCount = 1 &&
      ((s.conn (conn 1)).announced.length = 1)) = true := by
  decide +kernel

end Demo

end RoomBackend
