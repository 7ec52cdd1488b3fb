import RoomBackend.Moves

/-! # What one step does to the shared state

`CoreStep env up c l c'`: a step under label `l` can turn the shared state `c` into `c'`; `up`
says which sockets pass frames on. `Sys.coreStep` shows that every step of the system is one of
these, so an invariant of the shared state need only be checked against this list (and against
`Act` for the stretches of frame handlers). -/

namespace RoomBackend

open Async Day RateLimit Suspicion Lts

namespace Core

variable (env : Env) (c : Core)

/-- The listed connections that hold a session are muted for a minute. -/
def muteAll (i : InstanceId) (sid : Sid) (ns : List ℕ) : Core :=
  { c with
    conn := fun k =>
      if k.inst = i ∧ k.seq ∈ ns ∧ (c.conn k).record.any (fun r => r.sid = sid) then
        { c.conn k with blockedUntil := c.clock + 60000 }
      else c.conn k }

/-- `onBus`, a kick. -/
def kick (i : InstanceId) (sid : Sid) : Core := c.muteAll i sid (c.srv i).conns

/-- The connection is closed: `onClose` without its save. -/
def shut (k : ConnKey) : Core := c.updConn k fun x => { x with closed := true }

/-- The event is taken from the backplane. -/
def receive (n : ℕ) : Core :=
  { c with world := { c.world with inFlight := c.world.inFlight.eraseIdx n } }

end Core

theorem Core.checkRoom_cases (env : Env) (c : Core) (i : InstanceId) :
    c.checkRoom env i = c ∨
      (c.srv i).rolling = none ∧ (env.roomAt c.clock).roomId ≠ (c.srv i).room.roomId ∧
        c.checkRoom env i = c.switchRoom i (env.roomAt c.clock) := by
  unfold checkRoom
  dsimp only
  split
  · exact Or.inl rfl
  · rename_i hr
    split
    · exact Or.inl rfl
    · rename_i hn
      exact Or.inr ⟨by simpa using hr, hn, rfl⟩

/-- `Connection.rollover` starts on the listed connections, one after another. -/
inductive Begins (env : Env) (i : InstanceId) (next : DailyRoom) : Core → List ℕ → Core → Prop
  | nil (c : Core) : Begins env i next c [] c
  | cons {c c' : Core} {n : ℕ} {ns : List ℕ} (q : ℚ)
      (h : Begins env i next (c.rollover env ⟨i, n⟩ next q) ns c') :
      Begins env i next c (n :: ns) c'

/-- The loop of `RoomServer.rollover` goes on with the connections `rest`. -/
inductive Batches (env : Env) (i : InstanceId) (prev next : DailyRoom) (c : Core) (rest : List ℕ) :
    Core → Prop
  | ended (h : rest = []) : Batches env i prev next c rest (c.setReset i none)
  | batch {c' : Core} (h : rest ≠ []) (hb : Begins env i next c (rest.take RESET_BATCH) c') :
      Batches env i prev next c rest
        (c'.setReset i (some (.batch prev next (rest.take RESET_BATCH) (rest.drop RESET_BATCH))))

/-- `RoomServer.rollover` goes on. -/
inductive ResetMove (env : Env) (i : InstanceId) (c : Core) : RollingPc → Core → Prop
  | acquired {prev next : DailyRoom} :
      ResetMove env i c (.acquire prev next (.fulfilled true))
        (c.setReset i (some (.cleanup prev next .pending)))
  | cleaned {prev next : DailyRoom} :
      ResetMove env i c (.cleanup prev next (.fulfilled ()))
        (c.setReset i (some (.log prev next .pending)))
  | listed {prev next : DailyRoom} {p : RollingPc} {c' : Core}
      (hp : (∃ q, p = .acquire prev next q) ∨ (∃ q, p = .cleanup prev next q) ∨
        ∃ q, p = .log prev next q)
      (hb : Batches env i prev next c (c.live i) c') : ResetMove env i c p c'
  | batched {prev next : DailyRoom} {current rest : List ℕ} (hd : c.batchDone i current = true) :
      ResetMove env i c (.batch prev next current rest)
        (c.setReset i (some (.breathe prev next rest)))
  | next {prev next : DailyRoom} {rest : List ℕ} {c' : Core}
      (hb : Batches env i prev next c rest c') : ResetMove env i c (.breathe prev next rest) c'

/-- `Connection.rollover` goes on; `prev` is the room the server left. -/
inductive RolloverMove (env : Env) (k : ConnKey) (up : Bool) (prev : DailyRoom) (c : Core)
    (p : RolloverPc) : Core → Prop
  | wait {p' : CreatePc} {d : ℕ} (hp : p.create.resume env c.draws = some (.wait p', d)) :
      RolloverMove env k up prev c p
        ({ c with draws := d }.setRolling k (some { p with create := p' }))
  | closed {r : SessionRecord} {token : Token} {d : ℕ}
      (hp : p.create.resume env c.draws = some (.done r token, d))
      (hc : (c.conn k).closed = true) :
      RolloverMove env k up prev c p ({ c with draws := d }.setRolling k none)
  | enter {r : SessionRecord} {token : Token} {d : ℕ}
      (hp : p.create.resume env c.draws = some (.done r token, d))
      (hc : (c.conn k).closed = false) :
      RolloverMove env k up prev c p ({ c with draws := d }.rolloverEnter k up p prev r token)
  | threw {d : ℕ} (hp : p.create.resume env c.draws = some (.threw, d)) :
      RolloverMove env k up prev c p ({ c with draws := d }.setRolling k none)

/-- One step of the shared state. -/
inductive CoreStep (env : Env) (up : ConnKey → Bool) (c : Core) : Label → Core → Prop
  | same (l : Label) : CoreStep env up c l c
  | clock {t : ℤ} (h : c.clock ≤ t) : CoreStep env up c (.clock t) { c with clock := t }
  | start {i : InstanceId} (h : (c.srv i).started = false) :
      CoreStep env up c (.start i) (c.start env i)
  | upgrade {i : InstanceId} {req : UpgradeReq} (h : (c.srv i).started = true) :
      CoreStep env up c (.upgrade i req) (c.onUpgrade env i req)
  | destroyed {n : ℕ} {u : Upgrade} (hu : c.upgrade n = some u) :
      CoreStep env up c (.destroyed n) (c.setUpgrade n { u with destroyed := true })
  | settle {th : Thread} {o : Outcome} {verdict : Bool} {c' : Core}
      (h : c.settle env o verdict th = some c') : CoreStep env up c (.settle th o verdict) c'
  | settleChore {n : ℕ} {o : Outcome} {verdict : Bool} {b b' : Chore} {w : World}
      (h : b.settle c.clock verdict o c.world = some (b', w)) :
      CoreStep env up c (.settle (.chore n) o verdict) { c with world := w }
  | act {k : ConnKey} {h : Handler} {c₁ : Core} {h' : Option Handler}
      (hh : (c.conn k).handler = some h) (ha : Act env k (up k) c (some h) c₁ h') :
      CoreStep env up c (.resume (.handler k)) (c₁.setHandler k h')
  | handle {k : ConnKey} {c₁ : Core} {h' : Option Handler} (hk : k ∈ c.accepted)
      (hh : (c.conn k).handler = none) (ha : Act env k (up k) (c.take k) none c₁ h') :
      CoreStep env up c (.handle k) (c₁.setHandler k h')
  | rollover {k : ConnKey} {p : RolloverPc} {prev : DailyRoom} {c' : Core}
      (hp : (c.conn k).rolling = some p)
      (hprev : ∀ a b x y, (c.srv k.inst).rolling = some (.batch a b x y) → prev = a)
      (hm : RolloverMove env k (up k) prev c p c') :
      CoreStep env up c (.resume (.rollover k)) c'
  | reset {i : InstanceId} {p : RollingPc} {c' : Core} (hp : (c.srv i).rolling = some p)
      (hm : ResetMove env i c p c') : CoreStep env up c (.resume (.reset i)) c'
  | admitting {n : ℕ} {u : Upgrade} {pc : UpgradePc} (hu : c.upgrade n = some u)
      (hpc : Sys.admitResume env u.destroyed u.pc = some pc) (hne : pc ≠ .accepted) :
      CoreStep env up c (.resume (.upgrade n)) (c.setUpgrade n { u with pc := pc })
  | accept {n : ℕ} {u : Upgrade} (hu : c.upgrade n = some u) (hpc : u.pc = .handshake)
      (hd : u.destroyed = false) :
      CoreStep env up c (.resume (.upgrade n))
        ((c.setUpgrade n { u with pc := .accepted }).accept u.inst u.info)
  | task {n : ℕ} {b : Task} {b' : Option Task} (hb : c.task n = some b)
      (h : b' = none ∨ ∃ i a a', b = .admin i a ∧ b' = some (.admin i a')) :
      CoreStep env up c (.resume (.task n)) { c with task := Function.update c.task n b' }
  | close {k : ConnKey} (hc : (c.conn k).closed = false) :
      CoreStep env up c (.closeEvent k) ((c.shut k).onClosed k)
  | closeSave {k : ConnKey} {q : Rating} {req : SaveReq} (hc : (c.conn k).closed = false)
      (hq : (c.shut k).saveReq k q = some req) :
      CoreStep env up c (.closeEvent k)
        (((c.shut k).spawn (.persist k req .pending)).onClosed k)
  | persist {k : ConnKey} {q : Rating} {req : SaveReq} (hq : c.saveReq k q = some req) :
      CoreStep env up c (.persistTimeout k) (c.spawn (.persist k req .pending))
  | tick {i : InstanceId} (h : (c.srv i).ticking = true) :
      CoreStep env up c (.tick i) (c.checkRoom env i)
  | flush {i : InstanceId} : CoreStep env up c (.flush i) (c.flushOutbox i)
  | message {n : ℕ} {i : InstanceId} {m : BusMessage}
      (hn : c.world.inFlight[n]? = some (i, .message m)) :
      CoreStep env up c (.deliver n) ((c.receive n).onMessage i m)
  | kick {n : ℕ} {i origin : InstanceId} {sid : Sid} {reason : String}
      (hn : c.world.inFlight[n]? = some (i, .kick origin sid reason)) :
      CoreStep env up c (.deliver n) ((c.receive n).kick i sid)
  | stop {i : InstanceId} :
      CoreStep env up c (.stop i) (c.updSrv i fun v => { v with shuttingDown := true })
  | stopEnd {i : InstanceId} :
      CoreStep env up c (.stopEnd i)
        { c with world := { c.world with subscribers := c.world.subscribers.filter (· ≠ i) } }
  | adminBlock {i : InstanceId} {b : BlockReq} {a : AdminPc} :
      CoreStep env up c (.adminBlock i b) (c.spawn (.admin i a))
  | adminUnblock {i : InstanceId} {name : String} {a : AdminPc} :
      CoreStep env up c (.adminUnblock i name) (c.spawn (.admin i a))

/-! ### One connection at a time -/

/-- What a step makes of the connection `j`. -/
inductive ConnStep (env : Env) (up : ConnKey → Bool) (c : Core) (l : Label) (j : ConnKey) :
    Conn → Prop
  | same : ConnStep env up c l j (c.conn j)
  | act {h : Handler} {c₁ : Core} {h' : Option Handler} (hl : l = .resume (.handler j))
      (hh : (c.conn j).handler = some h) (ha : Act env j (up j) c (some h) c₁ h') :
      ConnStep env up c l j { c₁.conn j with handler := h' }
  | handle {c₁ : Core} {h' : Option Handler} (hl : l = .handle j) (hk : j ∈ c.accepted)
      (hh : (c.conn j).handler = none) (ha : Act env j (up j) (c.take j) none c₁ h') :
      ConnStep env up c l j { c₁.conn j with handler := h' }
  | settled {h h' : Handler} {o : Outcome} {v : Bool} {w : World}
      (hl : l = .settle (.handler j) o v) (hh : (c.conn j).handler = some h)
      (hs : h.settle env c.clock v j (c.conn j).handled (c.conn j).info o c.world = some (h', w)) :
      ConnStep env up c l j { c.conn j with handler := some h' }
  | accepted {n : ℕ} {u : Upgrade} (hl : l = .resume (.upgrade n))
      (hj : j = ⟨u.inst, (c.srv u.inst).seq + 1⟩) :
      ConnStep env up c l j (Conn.new u.info)
  | shut (hl : l = .closeEvent j) (hc : (c.conn j).closed = false) :
      ConnStep env up c l j { c.conn j with closed := true }
  | muted {n : ℕ} {i origin : InstanceId} {sid : Sid} {reason : String} (hl : l = .deliver n)
      (hn : c.world.inFlight[n]? = some (i, .kick origin sid reason))
      (hr : (c.conn j).record.any (fun r => r.sid = sid) = true) :
      ConnStep env up c l j { c.conn j with blockedUntil := c.clock + 60000 }
  | begins {next : DailyRoom} {input : NewSessionInput} {d : ℕ} (hd : c.draws ≤ d)
      (hj : (c.conn j).joined = true) (hc : (c.conn j).closed = false)
      (hi : ∀ r, (c.conn j).record = some r →
        input.challengePending = ((c.conn j).standing r.sid).challengePending)
      (hl : ∃ i, l = .resume (.reset i)) (hn : input.ipHash = (c.conn j).info.net.dailyHash) :
      ConnStep env up c l j
        { c.conn j with
          rolling := some
            { now := c.clock, next := next, create := createSession env d next input } }
  | rolling {p p' : RolloverPc} {o : Outcome} {v : Bool} {w : World}
      (hl : l = .settle (.rollover j) o v) (hp : (c.conn j).rolling = some p)
      (hs : p.settle c.clock j o c.world = some (p', w)) :
      ConnStep env up c l j { c.conn j with rolling := some p' }
  | creating {p : RolloverPc} {p' : CreatePc} {d : ℕ} (hp : (c.conn j).rolling = some p)
      (hr : p.create.resume env c.draws = some (.wait p', d)) :
      ConnStep env up c l j { c.conn j with rolling := some { p with create := p' } }
  | rolled {p : RolloverPc} (hp : (c.conn j).rolling = some p) :
      ConnStep env up c l j { c.conn j with rolling := none }
  | renewed {p : RolloverPc} {r : SessionRecord} {token : Token} {d : ℕ}
      (hl : l = .resume (.rollover j)) (hp : (c.conn j).rolling = some p)
      (hr : p.create.resume env c.draws = some (.done r token, d))
      (hc : (c.conn j).closed = false) :
      ConnStep env up c l j
        { c.conn j with
          record := some r.toSessionIdent
          standing := Function.update (c.conn j).standing r.sid r.toStanding
          resumeToken := some token
          held := (c.conn j).held ++ [r.toSessionIdent]
          rolling := none
          announced :=
            if up j then (c.conn j).announced ++ [.reset r.toSessionIdent token p.next]
            else (c.conn j).announced }

namespace Core

variable (c : Core)

@[simp] theorem updConn_conn (k : ConnKey) (f : Conn → Conn) :
    (c.updConn k f).conn k = f (c.conn k) := by
  simp [updConn]

theorem updConn_conn_ne {j k : ConnKey} (h : j ≠ k) (f : Conn → Conn) :
    (c.updConn k f).conn j = c.conn j := by
  simp [updConn, h]

@[simp] theorem updSrv_srv (i : InstanceId) (f : Srv → Srv) :
    (c.updSrv i f).srv i = f (c.srv i) := by
  simp [updSrv]

theorem updSrv_srv_ne {i j : InstanceId} (h : j ≠ i) (f : Srv → Srv) :
    (c.updSrv i f).srv j = c.srv j := by
  simp [updSrv, h]

@[simp] theorem setHandler_conn (k : ConnKey) (h : Option Handler) :
    (c.setHandler k h).conn k = { c.conn k with handler := h } := updConn_conn ..

theorem setHandler_conn_ne {j k : ConnKey} (h : j ≠ k) (x : Option Handler) :
    (c.setHandler k x).conn j = c.conn j := updConn_conn_ne c h _

theorem checkRoom_conn (env : Env) (i : InstanceId) : (c.checkRoom env i).conn = c.conn := by
  rcases c.checkRoom_cases env i with h | ⟨-, -, h⟩ <;> rw [h]
  rfl

theorem onMessage_conn (i : InstanceId) (m : BusMessage) : (c.onMessage i m).conn = c.conn := by
  unfold onMessage
  split <;> rfl

end Core

/-- The connection `k` after `rolloverEnter`. -/
theorem Core.rolloverEnter_conn (c : Core) (k : ConnKey) (sent : Bool) (p : RolloverPc)
    (prev : DailyRoom) (r : SessionRecord) (token : Token) :
    (c.rolloverEnter k sent p prev r token).conn = Function.update c.conn k
      { c.conn k with
        record := some r.toSessionIdent
        standing := Function.update (c.conn k).standing r.sid r.toStanding
        resumeToken := some token
        held := (c.conn k).held ++ [r.toSessionIdent]
        rolling := none
        announced :=
          if sent then (c.conn k).announced ++ [.reset r.toSessionIdent token p.next]
          else (c.conn k).announced } := by
  simp [rolloverEnter, announce, observe, updConn]

theorem Escalates.conn_ne {c c' : Core} {j k : ConnKey} {e : EscalatePc} (h : Escalates c k c' e)
    (hj : j ≠ k) : c'.conn j = c.conn j := by
  cases h with
  | quiet => rfl
  | challenge q hr => exact Function.update_of_ne hj _ _
  | block reason hr => exact Function.update_of_ne hj _ _

theorem EscalateMove.conn_ne {c c' : Core} {j k : ConnKey} {e e' : EscalatePc}
    (h : EscalateMove c k e c' e') (hj : j ≠ k) : c'.conn j = c.conn j := by
  cases h with
  | challenged hp => rfl
  | block hb => rfl
  | blocked hp => exact Function.update_of_ne hj _ _

/-- A handler leaves the other connections alone. -/
theorem Act.conn_ne {env : Env} {j k : ConnKey} {up : Bool} {c c₁ : Core} {h h' : Option Handler}
    (ha : Act env k up c h c₁ h') (hj : j ≠ k) : c₁.conn j = c.conn j := by
  cases ha with
  | joinBlocked hp ht => exact Function.update_of_ne hj _ _
  | joinEnter hp ht => exact Function.update_of_ne hj _ _
  | joinWelcome hp => exact Function.update_of_ne hj _ _
  | sendSwitch hr hj => rw [Core.checkRoom_conn]; rfl
  | sendLimited hl he => exact he.conn_ne hj
  | sendEscalate hh he => exact he.conn_ne hj
  | sendEscalating he => exact he.conn_ne hj
  | sendReply => split <;> rfl
  | passed q => exact Function.update_of_ne hj _ _
  | failed q => exact Function.update_of_ne hj _ _
  | failedOver => exact Function.update_of_ne hj _ _
  | failedBlock reason hr =>
      exact (Function.update_of_ne hj _ _).trans (Function.update_of_ne hj _ _)
  | challengeBlocked hp => exact Function.update_of_ne hj _ _
  | _ => rfl

/-! #### The connection of a method -/

namespace Core

variable (c : Core) (k : ConnKey)

@[simp] theorem updStanding_conn (sid : Sid) (f : Standing → Standing) :
    (c.updStanding k sid f).conn k = { c.conn k with
      standing := Function.update (c.conn k).standing sid (f ((c.conn k).standing sid)) } :=
  Function.update_self ..

@[simp] theorem mute_conn (ttl : ℤ) :
    (c.mute k ttl).conn k = { c.conn k with blockedUntil := c.clock + ttl } :=
  Function.update_self ..

@[simp] theorem observe_conn (o : Obs) : (c.observe o).conn = c.conn := rfl

@[simp] theorem issue_conn (r : SessionIdent) : (c.issue k r).conn k = { c.conn k with
    standing := Function.update (c.conn k).standing r.sid { (c.conn k).standing r.sid with
      challengePending := true, flagged := c.world.journal.length + 1 } } := Function.update_self ..

@[simp] theorem pass_conn (r : SessionIdent) (t : ℤ) : (c.pass k r t).conn k = { c.conn k with
    standing := Function.update (c.conn k).standing r.sid { (c.conn k).standing r.sid with
      challengePending := false, challengeFails := 0, trustedUntil := t
      flagged := c.world.journal.length + 1 } } := Function.update_self ..

@[simp] theorem fail_conn (r : SessionIdent) : (c.fail k r).conn k = { c.conn k with
    standing := Function.update (c.conn k).standing r.sid { (c.conn k).standing r.sid with
      challengeFails := ((c.conn k).standing r.sid).challengeFails + 1 } } :=
  Function.update_self ..

@[simp] theorem tempBlock_conn (r : SessionIdent) (reason : String) :
    (c.tempBlock k r reason).1.conn k = { c.conn k with
      standing := Function.update (c.conn k).standing r.sid { (c.conn k).standing r.sid with
        blocks := ((c.conn k).standing r.sid).blocks + 1 } } := Function.update_self ..

@[simp] theorem blockEnd_conn (b : BlockLocals) :
    (c.blockEnd k b).conn k = { c.conn k with blockedUntil := c.clock + b.ttl } :=
  Function.update_self ..

@[simp] theorem announce_conn (sent : Bool) (a : Announcement) :
    (c.announce k sent a).conn k = { c.conn k with
      announced := if sent then (c.conn k).announced ++ [a] else (c.conn k).announced } :=
  Function.update_self ..

@[simp] theorem enter_conn (r : SessionRecord) (token : Token) :
    (c.enter k r token).conn k = { c.conn k with
      record := some r.toSessionIdent
      standing := Function.update (c.conn k).standing r.sid r.toStanding
      resumeToken := some token
      joined := true
      held := (c.conn k).held ++ [r.toSessionIdent] } := Function.update_self ..

@[simp] theorem take_conn : (c.take k).conn k =
    { c.conn k with handled := (c.conn k).handled + 1 } := Function.update_self ..

end Core

/-- `info`, `closed`, `rolling` and `handled` of a connection stay as they are. -/
structure Conn.Kept (x y : Conn) : Prop where
  info : y.info = x.info
  closed : y.closed = x.closed
  rolling : y.rolling = x.rolling
  handled : y.handled = x.handled

theorem Escalates.kept {c c' : Core} {k : ConnKey} {e : EscalatePc} (h : Escalates c k c' e) :
    (c.conn k).Kept (c'.conn k) := by
  cases h <;> constructor <;> simp

theorem EscalateMove.kept {c c' : Core} {k : ConnKey} {e e' : EscalatePc}
    (h : EscalateMove c k e c' e') : (c.conn k).Kept (c'.conn k) := by
  cases h <;> constructor <;> simp

/-- A handler keeps these fields of its own connection. -/
theorem Act.kept {env : Env} {k : ConnKey} {up : Bool} {c c₁ : Core} {h h' : Option Handler}
    (ha : Act env k up c h c₁ h') : (c.conn k).Kept (c₁.conn k) := by
  cases ha with
  | sendSwitch hr hj =>
      rw [Core.checkRoom_conn]
      exact ⟨rfl, rfl, rfl, rfl⟩
  | sendLimited hl he => exact he.kept
  | sendEscalate hh he => exact he.kept
  | sendEscalating he => exact he.kept
  | sendReply => split <;> exact ⟨rfl, rfl, rfl, rfl⟩
  | failedBlock reason hr => constructor <;> simp
  | _ => constructor <;> simp [Core.draw]

/-- `Connection.rollover` does nothing, or it starts to create a session. -/
theorem Core.rollover_cases (env : Env) (c : Core) (k : ConnKey) (next : DailyRoom) (q : ℚ) :
    c.rollover env k next q = c ∨
      (c.conn k).joined = true ∧ (c.conn k).closed = false ∧ ∃ input : NewSessionInput,
        (input.ipHash = (c.conn k).info.net.dailyHash ∧ ∀ r, (c.conn k).record = some r →
          input.challengePending = ((c.conn k).standing r.sid).challengePending) ∧
        c.rollover env k next q = c.draw.setRolling k
          (some
            { now := c.clock, next := next, create := createSession env c.draws next input }) := by
  unfold rollover
  dsimp only
  split
  · exact Or.inl rfl
  · rename_i r hr
    split
    · exact Or.inl rfl
    · rename_i h
      simp only [Bool.or_eq_true, Bool.not_eq_true', not_or, Bool.not_eq_false,
        Bool.not_eq_true] at h
      refine Or.inr ⟨h.1, h.2, _, ⟨rfl, fun r' hr' => ?_⟩, rfl⟩
      obtain rfl : r = r' := Option.some.inj (hr.symm.trans hr')
      rfl

/-- Starting rollovers changes connections and draws only. -/
theorem Begins.frame {env : Env} {i : InstanceId} {next : DailyRoom} {c c' : Core} {ns : List ℕ}
    (h : Begins env i next c ns c') : c' = { c with conn := c'.conn, draws := c'.draws } := by
  induction h with
  | nil c => rfl
  | @cons c c' n ns q h ih =>
      rw [ih]
      rcases Core.rollover_cases env c ⟨i, n⟩ next q with hc | ⟨-, -, input, -, hc⟩
      · rw [hc]
      · rw [hc]
        rfl

theorem Begins.draws_le {env : Env} {i : InstanceId} {next : DailyRoom} {c c' : Core} {ns : List ℕ}
    (h : Begins env i next c ns c') : c.draws ≤ c'.draws := by
  induction h with
  | nil c => exact le_refl _
  | @cons c c' n ns q h ih =>
      rcases Core.rollover_cases env c ⟨i, n⟩ next q with hc | ⟨-, -, input, -, hc⟩
      · rwa [hc] at ih
      · rw [hc] at ih
        exact (Nat.le_succ _).trans ih

/-- Starting rollovers touches `rolling` of listed, joined and open connections only. -/
theorem Begins.conn {env : Env} {i : InstanceId} {next : DailyRoom} {c c' : Core} {ns : List ℕ}
    (h : Begins env i next c ns c') (j : ConnKey) : c'.conn j = c.conn j ∨
      (c.conn j).joined = true ∧ (c.conn j).closed = false ∧ j.inst = i ∧ j.seq ∈ ns ∧
        ∃ d input, (c.draws ≤ d ∧ input.ipHash = (c.conn j).info.net.dailyHash ∧
            ∀ r, (c.conn j).record = some r →
            input.challengePending = ((c.conn j).standing r.sid).challengePending) ∧
          c'.conn j = { c.conn j with
            rolling := some
              { now := c.clock, next := next, create := createSession env d next input } } := by
  induction h with
  | nil c => exact Or.inl rfl
  | @cons c c' n ns q h ih =>
      rcases Core.rollover_cases env c ⟨i, n⟩ next q with hc | ⟨hj, hcl, input, hi, hc⟩
      · rw [hc] at ih
        rcases ih with ih | ⟨h1, h2, h3, h4, h5⟩
        · exact Or.inl ih
        · exact Or.inr ⟨h1, h2, h3, List.mem_cons_of_mem _ h4, h5⟩
      · rw [hc] at ih
        by_cases hk : j = ⟨i, n⟩
        · subst hk
          refine Or.inr ⟨hj, hcl, rfl, List.mem_cons_self, ?_⟩
          rcases ih with ih | ⟨-, -, -, -, d, input', ⟨hd, hi'⟩, ih⟩
          · exact ⟨c.draws, input, ⟨le_refl _, hi⟩, ih.trans (Function.update_self ..)⟩
          · refine ⟨d, input', ⟨(Nat.le_succ _).trans hd, ?_⟩, ih.trans ?_⟩
            · rw [Core.setRolling, Core.updConn_conn] at hi'
              exact hi'
            · simp [Core.setRolling, Core.updConn, Core.draw]
        · have hne : (c.draw.setRolling ⟨i, n⟩ (some ⟨c.clock, next,
              createSession env c.draws next input⟩)).conn j = c.conn j :=
            Function.update_of_ne hk _ _
          rw [hne] at ih
          rcases ih with ih | ⟨h1, h2, h3, h4, d, input', ⟨hd, hi'⟩, ih⟩
          · exact Or.inl ih
          · exact Or.inr ⟨h1, h2, h3, List.mem_cons_of_mem _ h4, d, input',
              ⟨(Nat.le_succ _).trans hd, hi'⟩, ih⟩

/-- A listed connection that is joined and open with a session is being renewed afterwards. -/
theorem Begins.begun {env : Env} {i : InstanceId} {next : DailyRoom} {c c' : Core} {ns : List ℕ}
    (h : Begins env i next c ns c') {n : ℕ} (hn : n ∈ ns) (hj : (c.conn ⟨i, n⟩).joined = true)
    (hc : (c.conn ⟨i, n⟩).closed = false) (hr : (c.conn ⟨i, n⟩).record ≠ none) :
    (c'.conn ⟨i, n⟩).rolling ≠ none := by
  induction h with
  | nil c => cases hn
  | @cons c c' m ns q h ih =>
      have later := h.conn ⟨i, n⟩
      by_cases he : n = m
      · subst he
        obtain ⟨r, hr⟩ := Option.ne_none_iff_exists'.mp hr
        have hroll : ((c.rollover env ⟨i, n⟩ next q).conn ⟨i, n⟩).rolling ≠ none := by
          simp [Core.rollover, hr, hj, hc]
        rcases later with hx | ⟨-, -, -, -, d, input, -, hx⟩
        · rw [hx]
          exact hroll
        · rw [hx]
          exact Option.some_ne_none _
      · have hx : (c.rollover env ⟨i, m⟩ next q).conn ⟨i, n⟩ = c.conn ⟨i, n⟩ := by
          rcases Core.rollover_cases env c ⟨i, m⟩ next q with hx | ⟨-, -, input, -, hx⟩
          · rw [hx]
          · rw [hx]
            exact Function.update_of_ne (fun hk => he (congrArg ConnKey.seq hk)) _ _
        rw [hx] at ih
        exact ih ((List.mem_cons.mp hn).resolve_left he) hj hc hr

theorem Batches.conn {env : Env} {i : InstanceId} {prev next : DailyRoom} {c c' : Core}
    {rest : List ℕ} (h : Batches env i prev next c rest c') (up : ConnKey → Bool) {l : Label}
    (hl : ∃ i, l = .resume (.reset i)) (j : ConnKey) : ConnStep env up c l j (c'.conn j) := by
  cases h with
  | ended h => exact ConnStep.same
  | batch h hb =>
      rcases hb.conn j with hc | ⟨hj, hcl, -, -, d, input, ⟨hd, hn, hi⟩, hc⟩
      · exact (congrArg (ConnStep env up c l j) hc).mpr ConnStep.same
      · exact (congrArg (ConnStep env up c l j) hc).mpr (ConnStep.begins hd hj hcl hi hl hn)

/-- Every step makes of each connection one of the listed states. -/
theorem CoreStep.conn {env : Env} {up : ConnKey → Bool} {c c' : Core} {l : Label}
    (h : CoreStep env up c l c') (j : ConnKey) : ConnStep env up c l j (c'.conn j) := by
  -- the connection of the step, or another one
  have other : ∀ {k : ConnKey} {d : Core} {x : Conn}, d.conn j = c.conn j → j ≠ k →
      ConnStep env up c l j (Function.update d.conn k x j) := by
    intro k d x hd hk
    rw [Function.update_of_ne hk, hd]
    exact ConnStep.same
  cases h with
  | @act k h c₁ h' hh ha =>
      by_cases hk : j = k
      · subst hk
        rw [Core.setHandler_conn]
        exact ConnStep.act rfl hh ha
      · exact other (ha.conn_ne hk) hk
  | @handle k c₁ h' hacc hh ha =>
      by_cases hk : j = k
      · subst hk
        rw [Core.setHandler_conn]
        exact ConnStep.handle rfl hacc hh ha
      · exact other ((ha.conn_ne hk).trans (Function.update_of_ne hk _ _)) hk
  | @rollover k p prev c' hp hprev hm =>
      by_cases hk : j = k
      · subst hk
        cases hm with
        | wait hr =>
            rw [Core.setRolling, Core.updConn_conn]
            exact ConnStep.creating hp hr
        | closed hr hc =>
            rw [Core.setRolling, Core.updConn_conn]
            exact ConnStep.rolled hp
        | threw hr =>
            rw [Core.setRolling, Core.updConn_conn]
            exact ConnStep.rolled hp
        | enter hr hc =>
            rw [Core.rolloverEnter_conn, Function.update_self]
            exact ConnStep.renewed rfl hp hr hc
      · cases hm with
        | wait hr => exact other rfl hk
        | closed hr hc => exact other rfl hk
        | threw hr => exact other rfl hk
        | enter hr hc =>
            rw [Core.rolloverEnter_conn]
            exact other rfl hk
  | @reset i p c' hp hm =>
      cases hm with
      | acquired => exact ConnStep.same
      | cleaned => exact ConnStep.same
      | listed hp hb => exact hb.conn _ ⟨_, rfl⟩ _
      | batched hd => exact ConnStep.same
      | next hb => exact hb.conn _ ⟨_, rfl⟩ _
  | @settle th o v c' h =>
      cases th with
      | handler k =>
          obtain ⟨h₀, hh, h⟩ := Option.bind_eq_some_iff.mp h
          obtain ⟨⟨h', w⟩, hr, rfl⟩ := Option.map_eq_some_iff.mp h
          by_cases hk : j = k
          · subst hk
            rw [Core.suspend, Core.setHandler_conn]
            exact ConnStep.settled rfl hh hr
          · exact other rfl hk
      | rollover k =>
          obtain ⟨p, hp, h⟩ := Option.bind_eq_some_iff.mp h
          obtain ⟨⟨p', w⟩, hr, rfl⟩ := Option.map_eq_some_iff.mp h
          by_cases hk : j = k
          · subst hk
            rw [Core.setRolling, Core.updConn_conn]
            exact ConnStep.rolling rfl hp hr
          · exact other rfl hk
      | reset i =>
          obtain ⟨p, hp, h⟩ := Option.bind_eq_some_iff.mp h
          obtain ⟨r, hr, rfl⟩ := Option.map_eq_some_iff.mp h
          exact ConnStep.same
      | upgrade n =>
          obtain ⟨u, hu, h⟩ := Option.bind_eq_some_iff.mp h
          obtain ⟨r, hr, rfl⟩ := Option.map_eq_some_iff.mp h
          exact ConnStep.same
      | task n =>
          obtain ⟨b, hb, h⟩ := Option.bind_eq_some_iff.mp h
          obtain ⟨r, hr, rfl⟩ := Option.map_eq_some_iff.mp h
          exact ConnStep.same
      | chore n => cases h
  | @accept n u hu hpc hd =>
      by_cases hk : j = ⟨u.inst, (c.srv u.inst).seq + 1⟩
      · have he : ((c.setUpgrade n { u with pc := .accepted }).accept u.inst u.info).conn j =
            Conn.new u.info := by
          subst hk
          exact Function.update_self ..
        rw [he]
        exact ConnStep.accepted rfl hk
      · exact other (d := c) rfl hk
  | @close k hc =>
      by_cases hk : j = k
      · subst hk
        have he : ((c.shut j).onClosed j).conn j = { c.conn j with closed := true } :=
          Function.update_self ..
        rw [he]
        exact ConnStep.shut rfl hc
      · exact other (d := c) rfl hk
  | @closeSave k q req hc hq =>
      by_cases hk : j = k
      · subst hk
        have he : (((c.shut j).spawn (.persist j req .pending)).onClosed j).conn j =
            { c.conn j with closed := true } := Function.update_self ..
        rw [he]
        exact ConnStep.shut rfl hc
      · exact other (d := c) rfl hk
  | @tick i h =>
      rw [Core.checkRoom_conn]
      exact ConnStep.same
  | message hn =>
      rw [Core.onMessage_conn]
      exact ConnStep.same
  | @kick n i origin sid reason hn =>
      show ConnStep env up c _ j (ite _ _ _)
      split
      · rename_i h
        exact ConnStep.muted rfl hn h.2.2
      · exact ConnStep.same
  | _ => exact ConnStep.same

/-! ### One server at a time -/

/-- The session the `join` of a connection takes up when it goes on. -/
def Core.entering (c : Core) (k : ConnKey) : Option SessionRecord :=
  match (c.conn k).handler with
  | some (.join (.block _ r _ p)) =>
      match p.orElse 0 with
      | some ttl => if ttl ≤ 0 then some r else none
      | none => none
  | _ => none

theorem Core.entering_eq {c : Core} {k : ConnKey} {j : JoinCtx} {r : SessionRecord}
    {token : Token} {p : Promise ℤ} {ttl : ℤ}
    (h : (c.conn k).handler = some (.join (.block j r token p))) (hp : p.orElse 0 = some ttl)
    (ht : ttl ≤ 0) : c.entering k = some r := by
  simp [Core.entering, h, hp, ht]

/-- The steps under which a server may switch rooms: its tick, and a frame of a joined
connection. -/
inductive Switches (c : Core) : Label → InstanceId → Prop
  | tick {i : InstanceId} (h : (c.srv i).ticking = true) : Switches c (.tick i) i
  | handle {k : ConnKey} (hk : k ∈ c.accepted) (hj : (c.conn k).joined = true) :
      Switches c (.handle k) k.inst

/-- What a step makes of the server `i`. -/
inductive SrvStep (env : Env) (c : Core) (l : Label) (i : InstanceId) : Srv → Prop
  | same : SrvStep env c l i (c.srv i)
  | start (hs : (c.srv i).started = false) :
      SrvStep env c l i { c.srv i with started := true, room := env.roomAt c.clock }
  | accept {n : ℕ} {u : Upgrade} (hl : l = .resume (.upgrade n)) (hu : c.upgrade n = some u)
      (hpc : u.pc = .handshake) (hd : u.destroyed = false) (hi : u.inst = i) :
      SrvStep env c l i { c.srv i with
        seq := (c.srv i).seq + 1
        conns := (c.srv i).conns ++ [(c.srv i).seq + 1]
        perNetwork := Function.update (c.srv i).perNetwork u.info.net.dailyHash
          (some (((c.srv i).perNetwork u.info.net.dailyHash).getD 0 + 1)) }
  | close {k : ConnKey} (hl : l = .closeEvent k) (hc : (c.conn k).closed = false)
      (hi : k.inst = i) : SrvStep env c l i (((c.shut k).onClosed k).srv i)
  | enter {k : ConnKey} {r : SessionRecord} (hl : l = .resume (.handler k))
      (he : c.entering k = some r) (hi : k.inst = i) :
      SrvStep env c l i { c.srv i with joinedCount := (c.srv i).joinedCount + 1 }
  | switch {next : DailyRoom} (hl : Switches c l i) (hr : (c.srv i).rolling = none)
      (hn : next.roomId ≠ (c.srv i).room.roomId) (hnext : next = env.roomAt c.clock) :
      SrvStep env c l i { c.srv i with
        room := next
        resets := (c.srv i).resets + 1
        rolling := some (.acquire (c.srv i).room next .pending) }
  | settleReset {p p' : RollingPc} {o : Outcome} {w : World} (hp : (c.srv i).rolling = some p)
      (hs : p.settle c.clock o c.world = some (p', w)) :
      SrvStep env c l i { c.srv i with rolling := some p' }
  | reset {p : RollingPc} {c' : Core} (hl : l = .resume (.reset i))
      (hp : (c.srv i).rolling = some p) (hm : ResetMove env i c p c') :
      SrvStep env c l i { c.srv i with rolling := (c'.srv i).rolling }
  | message {n : ℕ} {m : BusMessage} (hl : l = .deliver n)
      (hn : c.world.inFlight[n]? = some (i, .message m))
      (hm : m.roomId = (c.srv i).room.roomId) :
      SrvStep env c l i { c.srv i with
        outbox := (c.srv i).outbox ++ [m], flushScheduled := true }
  | flush (hl : l = .flush i) :
      SrvStep env c l i { c.srv i with outbox := [], flushScheduled := false }
  | stop (hl : l = .stop i) : SrvStep env c l i { c.srv i with shuttingDown := true }

theorem Escalates.srv {c c' : Core} {k : ConnKey} {e : EscalatePc} (h : Escalates c k c' e) :
    c'.srv = c.srv := by
  cases h <;> rfl

theorem EscalateMove.srv {c c' : Core} {k : ConnKey} {e e' : EscalatePc}
    (h : EscalateMove c k e c' e') : c'.srv = c.srv := by
  cases h <;> rfl

/-- A handler leaves the servers alone, counts a joined connection, or switches the room. -/
theorem Act.srv {env : Env} {k : ConnKey} {up : Bool} {c c₁ : Core} {h h' : Option Handler}
    (ha : Act env k up c h c₁ h') : c₁.srv = c.srv ∨
      (∃ j r token p ttl, h = some (.join (.block j r token p)) ∧ p.orElse 0 = some ttl ∧ ttl ≤ 0 ∧
        c₁ = c.enter k r token) ∨
      (h = none ∧ (c.conn k).joined = true ∧ (c.srv k.inst).rolling = none ∧
        (env.roomAt c.clock).roomId ≠ (c.srv k.inst).room.roomId ∧
        c₁.srv = (c.switchRoom k.inst (env.roomAt c.clock)).srv) := by
  cases ha with
  | joinEnter hp ht => exact Or.inr (Or.inl ⟨_, _, _, _, _, rfl, hp, ht, rfl⟩)
  | @sendSwitch r e hr hj =>
      rcases Core.checkRoom_cases env (c.observe (.deciding k (c.conn k).handled e)) k.inst with
        hc | ⟨hr, hn, hc⟩
      · exact Or.inl (by rw [hc]; rfl)
      · exact Or.inr (Or.inr ⟨rfl, hj, hr, hn, by rw [hc]; rfl⟩)
  | sendLimited hl he => exact Or.inl (by rw [he.srv]; rfl)
  | sendEscalate hh he => exact Or.inl he.srv
  | sendEscalating he => exact Or.inl he.srv
  | sendReply => exact Or.inl (by split <;> rfl)
  | _ => exact Or.inl rfl

theorem Begins.srv {env : Env} {i : InstanceId} {next : DailyRoom} {c c' : Core} {ns : List ℕ}
    (h : Begins env i next c ns c') : c'.srv = c.srv := by rw [h.frame]

theorem Batches.srv {env : Env} {i : InstanceId} {prev next : DailyRoom} {c c' : Core}
    {rest : List ℕ} (h : Batches env i prev next c rest c') :
    c'.srv = Function.update c.srv i { c.srv i with rolling := (c'.srv i).rolling } := by
  cases h with
  | ended h => simp [Core.setReset, Core.updSrv]
  | batch h hb => simp [Core.setReset, Core.updSrv, hb.srv]

theorem ResetMove.srv {env : Env} {i : InstanceId} {c c' : Core} {p : RollingPc}
    (h : ResetMove env i c p c') :
    c'.srv = Function.update c.srv i { c.srv i with rolling := (c'.srv i).rolling } := by
  cases h with
  | acquired => simp [Core.setReset, Core.updSrv]
  | cleaned => simp [Core.setReset, Core.updSrv]
  | listed hp hb => exact hb.srv
  | batched hd => simp [Core.setReset, Core.updSrv]
  | next hb => exact hb.srv

theorem RolloverMove.srv {env : Env} {k : ConnKey} {up : Bool} {prev : DailyRoom} {c c' : Core}
    {p : RolloverPc} (h : RolloverMove env k up prev c p c') : c'.srv = c.srv := by
  cases h <;> rfl

/-- Every step makes of each server one of the listed states. -/
theorem CoreStep.srv {env : Env} {up : ConnKey → Bool} {c c' : Core} {l : Label}
    (h : CoreStep env up c l c') (i : InstanceId) : SrvStep env c l i (c'.srv i) := by
  have same : ∀ {d : Core}, d.srv = c.srv → SrvStep env c l i (d.srv i) := by
    intro d hd
    rw [hd]
    exact SrvStep.same
  have other : ∀ {i' : InstanceId} {v : Srv}, i ≠ i' →
      SrvStep env c l i (Function.update c.srv i' v i) := by
    intro i' v hi
    rw [Function.update_of_ne hi]
    exact SrvStep.same
  have switched : ∀ {i' : InstanceId} {d : Core}, Switches c l i' → (c.srv i').rolling = none →
      (env.roomAt c.clock).roomId ≠ (c.srv i').room.roomId →
      d.srv = (c.switchRoom i' (env.roomAt c.clock)).srv → SrvStep env c l i (d.srv i) := by
    intro i' d hl hr hn hd
    rw [hd]
    by_cases hi : i = i'
    · subst hi
      rw [Core.switchRoom, Core.updSrv_srv]
      exact SrvStep.switch hl hr hn rfl
    · exact other hi
  cases h with
  | @act k h c₁ h' hh ha =>
      rcases ha.srv with hs | ⟨j, r, token, p, ttl, he, hp, ht, rfl⟩ | ⟨he, -⟩
      · exact same hs
      · cases he
        by_cases hi : i = k.inst
        · subst hi
          show SrvStep env c _ k.inst ((c.enter k r token).srv k.inst)
          rw [Core.enter, Core.updSrv_srv]
          exact SrvStep.enter rfl (Core.entering_eq hh hp ht) rfl
        · exact other hi
      · cases he
  | @handle k c₁ h' hk hh ha =>
      rcases ha.srv with hs | ⟨j, r, token, p, ttl, he, -⟩ | ⟨-, hj, hr, hn, hs⟩
      · exact same hs
      · cases he
      · exact switched (Switches.handle hk (by simpa using hj)) hr hn hs
  | @rollover k p prev c' hp hprev hm => exact same hm.srv
  | @reset i' p c' hp hm =>
      rw [hm.srv]
      by_cases hi : i = i'
      · subst hi
        rw [Function.update_self]
        exact SrvStep.reset rfl hp hm
      · exact other hi
  | @settle th o v c' h =>
      cases th with
      | handler k =>
          obtain ⟨h₀, hh, h⟩ := Option.bind_eq_some_iff.mp h
          obtain ⟨r, hr, rfl⟩ := Option.map_eq_some_iff.mp h
          exact SrvStep.same
      | rollover k =>
          obtain ⟨p, hp, h⟩ := Option.bind_eq_some_iff.mp h
          obtain ⟨r, hr, rfl⟩ := Option.map_eq_some_iff.mp h
          exact SrvStep.same
      | reset i' =>
          obtain ⟨p, hp, h⟩ := Option.bind_eq_some_iff.mp h
          obtain ⟨⟨p', w⟩, hr, rfl⟩ := Option.map_eq_some_iff.mp h
          by_cases hi : i = i'
          · subst hi
            rw [Core.setReset, Core.updSrv_srv]
            exact SrvStep.settleReset hp hr
          · exact other hi
      | upgrade n =>
          obtain ⟨u, hu, h⟩ := Option.bind_eq_some_iff.mp h
          obtain ⟨r, hr, rfl⟩ := Option.map_eq_some_iff.mp h
          exact SrvStep.same
      | task n =>
          obtain ⟨b, hb, h⟩ := Option.bind_eq_some_iff.mp h
          obtain ⟨r, hr, rfl⟩ := Option.map_eq_some_iff.mp h
          exact SrvStep.same
      | chore n => cases h
  | @start i' hs =>
      by_cases hi : i = i'
      · subst hi
        show SrvStep env c _ i (Function.update c.srv i _ i)
        rw [Function.update_self]
        exact SrvStep.start hs
      · exact other hi
  | @accept n u hu hpc hd =>
      by_cases hi : i = u.inst
      · subst hi
        show SrvStep env c _ u.inst (Function.update c.srv u.inst _ u.inst)
        rw [Function.update_self]
        exact SrvStep.accept rfl hu hpc hd rfl
      · exact other hi
  | @close k hc =>
      by_cases hi : i = k.inst
      · exact SrvStep.close rfl hc hi.symm
      · exact other hi
  | @closeSave k q req hc hq =>
      by_cases hi : i = k.inst
      · have he : (((c.shut k).spawn (.persist k req .pending)).onClosed k).srv i =
            ((c.shut k).onClosed k).srv i := rfl
        rw [he]
        exact SrvStep.close rfl hc hi.symm
      · exact other hi
  | @tick i' h =>
      rcases Core.checkRoom_cases env c i' with hc | ⟨hr, hn, hc⟩
      · exact same (by rw [hc])
      · exact switched (Switches.tick h) hr hn (by rw [hc])
  | @flush i' =>
      by_cases hi : i = i'
      · subst hi
        show SrvStep env c _ i (Function.update c.srv i _ i)
        rw [Function.update_self]
        exact SrvStep.flush rfl
      · exact other hi
  | @message n i' m hn =>
      show SrvStep env c _ i (Core.srv (Core.onMessage (c.receive n) i' m) i)
      unfold Core.onMessage
      split
      · exact SrvStep.same
      · rename_i hm
        by_cases hi : i = i'
        · subst hi
          rw [Core.updSrv_srv]
          exact SrvStep.message rfl hn (not_not.mp hm)
        · exact other hi
  | @stop i' =>
      by_cases hi : i = i'
      · subst hi
        rw [Core.updSrv_srv]
        exact SrvStep.stop rfl
      · exact other hi
  | _ => exact SrvStep.same

/-! ### What else a step leaves alone -/

theorem Core.checkRoom_frame (env : Env) (c : Core) (i : InstanceId) :
    c.checkRoom env i = { c with srv := (c.checkRoom env i).srv } := by
  rcases c.checkRoom_cases env i with h | ⟨-, -, h⟩
  · rw [h]
  · rw [h]
    rfl

theorem Core.onMessage_frame (c : Core) (i : InstanceId) (m : BusMessage) :
    c.onMessage i m =
      { c with srv := (c.onMessage i m).srv, world := (c.onMessage i m).world } := by
  unfold onMessage
  split <;> rfl

theorem Escalates.frame {c c' : Core} {k : ConnKey} {e : EscalatePc} (h : Escalates c k c' e) :
    c' = { c with conn := c'.conn, world := c'.world } := by
  cases h <;> rfl

theorem EscalateMove.frame {c c' : Core} {k : ConnKey} {e e' : EscalatePc}
    (h : EscalateMove c k e c' e') : c' = { c with conn := c'.conn, world := c'.world } := by
  cases h <;> rfl

/-- A handler changes connections, servers, world and draws only. -/
theorem Act.frame {env : Env} {k : ConnKey} {up : Bool} {c c₁ : Core} {h h' : Option Handler}
    (ha : Act env k up c h c₁ h') :
    c₁ = { c with world := c₁.world, srv := c₁.srv, conn := c₁.conn, draws := c₁.draws } := by
  cases ha with
  | sendSwitch hr hj =>
      rw [Core.checkRoom_frame]
      rfl
  | sendLimited hl he =>
      rw [he.frame]
      rfl
  | sendEscalate hh he => rw [he.frame]
  | sendEscalating he => rw [he.frame]
  | sendReply => split <;> rfl
  | _ => rfl

theorem Batches.frame {env : Env} {i : InstanceId} {prev next : DailyRoom} {c c' : Core}
    {rest : List ℕ} (h : Batches env i prev next c rest c') :
    c' = { c with srv := c'.srv, conn := c'.conn, draws := c'.draws } := by
  cases h with
  | ended h => rfl
  | batch h hb =>
      rw [hb.frame]
      rfl

theorem ResetMove.frame {env : Env} {i : InstanceId} {c c' : Core} {p : RollingPc}
    (h : ResetMove env i c p c') :
    c' = { c with srv := c'.srv, conn := c'.conn, draws := c'.draws } := by
  cases h with
  | acquired => rfl
  | cleaned => rfl
  | listed hp hb => exact hb.frame
  | batched hd => rfl
  | next hb => exact hb.frame

theorem RolloverMove.frame {env : Env} {k : ConnKey} {up : Bool} {prev : DailyRoom} {c c' : Core}
    {p : RolloverPc} (h : RolloverMove env k up prev c p c') :
    c' = { c with world := c'.world, conn := c'.conn, draws := c'.draws } := by
  cases h <;> rfl

/-- Settling changes the world and the suspended function only. -/
theorem Core.settle_frame {env : Env} {c c' : Core} {th : Thread} {o : Outcome} {v : Bool}
    (h : c.settle env o v th = some c') :
    c' = { c with world := c'.world, srv := c'.srv, conn := c'.conn, upgrade := c'.upgrade
                  task := c'.task } := by
  cases th with
  | handler k =>
      obtain ⟨h₀, hh, h⟩ := Option.bind_eq_some_iff.mp h
      obtain ⟨r, hr, rfl⟩ := Option.map_eq_some_iff.mp h
      rfl
  | rollover k =>
      obtain ⟨p, hp, h⟩ := Option.bind_eq_some_iff.mp h
      obtain ⟨r, hr, rfl⟩ := Option.map_eq_some_iff.mp h
      rfl
  | reset i =>
      obtain ⟨p, hp, h⟩ := Option.bind_eq_some_iff.mp h
      obtain ⟨r, hr, rfl⟩ := Option.map_eq_some_iff.mp h
      rfl
  | upgrade n =>
      obtain ⟨u, hu, h⟩ := Option.bind_eq_some_iff.mp h
      obtain ⟨r, hr, rfl⟩ := Option.map_eq_some_iff.mp h
      rfl
  | task n =>
      obtain ⟨b, hb, h⟩ := Option.bind_eq_some_iff.mp h
      obtain ⟨r, hr, rfl⟩ := Option.map_eq_some_iff.mp h
      rfl
  | chore n => cases h

/-! ### Upgrade requests -/

/-- The request may still be accepted. -/
def UpgradePc.inFlight : UpgradePc → Bool
  | .refused _ _ => false
  | .accepted => false
  | .gone => false
  | _ => true

/-- A request in flight was in flight before it moved on. -/
theorem UpgradePc.inFlight_of_settle {now : ℤ} {info : AdmitInfo} {o : Outcome}
    {p p' : UpgradePc} {w w' : World} (h : p.settle now info o w = some (p', w')) :
    p.inFlight = true := by
  cases p <;> first | rfl | cases h

theorem UpgradePc.inFlight_of_resume {env : Env} {destroyed : Bool} {p p' : UpgradePc}
    (h : Sys.admitResume env destroyed p = some p') : p.inFlight = true := by
  cases p <;> first | rfl | cases h

/-- What a step makes of the requests. -/
theorem CoreStep.requests {env : Env} {up : ConnKey → Bool} {c c' : Core} {l : Label}
    (h : CoreStep env up c l c') (hl : ∀ i req, l ≠ .upgrade i req) :
    c'.upgrades = c.upgrades ∧ (c'.upgrade = c.upgrade ∨
      ∃ n u u', c.upgrade n = some u ∧ u'.inst = u.inst ∧ u'.info = u.info ∧
        (u'.pc.inFlight = true → u.pc.inFlight = true) ∧
        c'.upgrade = Function.update c.upgrade n (some u')) := by
  cases h with
  | upgrade hst => exact absurd rfl (hl _ _)
  | @destroyed n u hu =>
      exact ⟨rfl, Or.inr ⟨n, u, { u with destroyed := true }, hu, rfl, rfl, id, rfl⟩⟩
  | @admitting n u pc hu hpc hne =>
      exact ⟨rfl, Or.inr ⟨n, u, { u with pc := pc }, hu, rfl, rfl,
        fun _ => UpgradePc.inFlight_of_resume hpc, rfl⟩⟩
  | @accept n u hu hpc hd =>
      exact ⟨rfl, Or.inr ⟨n, u, { u with pc := .accepted }, hu, rfl, rfl,
        fun h => Bool.noConfusion h, rfl⟩⟩
  | @settle th o v c' h =>
      cases th with
      | upgrade n =>
          obtain ⟨u, hu, h⟩ := Option.bind_eq_some_iff.mp h
          obtain ⟨r, hr, rfl⟩ := Option.map_eq_some_iff.mp h
          exact ⟨rfl, Or.inr
            ⟨n, u, { u with pc := r.1 }, hu, rfl, rfl,
              fun _ => UpgradePc.inFlight_of_settle hr, rfl⟩⟩
      | handler k =>
          obtain ⟨h₀, hh, h⟩ := Option.bind_eq_some_iff.mp h
          obtain ⟨r, hr, rfl⟩ := Option.map_eq_some_iff.mp h
          exact ⟨rfl, Or.inl rfl⟩
      | rollover k =>
          obtain ⟨p, hp, h⟩ := Option.bind_eq_some_iff.mp h
          obtain ⟨r, hr, rfl⟩ := Option.map_eq_some_iff.mp h
          exact ⟨rfl, Or.inl rfl⟩
      | reset i =>
          obtain ⟨p, hp, h⟩ := Option.bind_eq_some_iff.mp h
          obtain ⟨r, hr, rfl⟩ := Option.map_eq_some_iff.mp h
          exact ⟨rfl, Or.inl rfl⟩
      | task n =>
          obtain ⟨b, hb, h⟩ := Option.bind_eq_some_iff.mp h
          obtain ⟨r, hr, rfl⟩ := Option.map_eq_some_iff.mp h
          exact ⟨rfl, Or.inl rfl⟩
      | chore n => cases h
  | act hh ha => rw [ha.frame]; exact ⟨rfl, Or.inl rfl⟩
  | handle hk hh ha => rw [ha.frame]; exact ⟨rfl, Or.inl rfl⟩
  | rollover hp hprev hm => rw [hm.frame]; exact ⟨rfl, Or.inl rfl⟩
  | reset hp hm => rw [hm.frame]; exact ⟨rfl, Or.inl rfl⟩
  | tick h => rw [Core.checkRoom_frame]; exact ⟨rfl, Or.inl rfl⟩
  | message hn => rw [Core.onMessage_frame]; exact ⟨rfl, Or.inl rfl⟩
  | _ => exact ⟨rfl, Or.inl rfl⟩

/-- A step makes a connection in one way: a handshake that was not interrupted. -/
theorem CoreStep.accepted {env : Env} {up : ConnKey → Bool} {c c' : Core} {l : Label}
    (h : CoreStep env up c l c') : c'.accepted = c.accepted ∨
      ∃ n u, l = .resume (.upgrade n) ∧ c.upgrade n = some u ∧ u.pc = .handshake ∧
        u.destroyed = false ∧
          c' = (c.setUpgrade n { u with pc := .accepted }).accept u.inst u.info := by
  cases h with
  | accept hu hpc hd => exact Or.inr ⟨_, _, rfl, hu, hpc, hd, rfl⟩
  | settle h => exact Or.inl (by rw [Core.settle_frame h])
  | act hh ha => exact Or.inl (by rw [ha.frame]; rfl)
  | handle hk hh ha => exact Or.inl (by rw [ha.frame]; rfl)
  | rollover hp hprev hm => exact Or.inl (by rw [hm.frame])
  | reset hp hm => exact Or.inl (by rw [hm.frame])
  | tick h => exact Or.inl (by rw [Core.checkRoom_frame])
  | message hn => exact Or.inl (by rw [Core.onMessage_frame]; rfl)
  | _ => exact Or.inl rfl

theorem CoreStep.mem_accepted {env : Env} {up : ConnKey → Bool} {c c' : Core} {l : Label}
    (h : CoreStep env up c l c') {k : ConnKey} (hk : k ∈ c.accepted) : k ∈ c'.accepted := by
  rcases h.accepted with he | ⟨n, u, -, -, -, -, rfl⟩
  · rw [he]
    exact hk
  · exact List.mem_append_left _ hk

/-! ### Every step is one of these -/

namespace Sys

variable {env : Env} {s : Sys}

theorem toCore_forConns {i : InstanceId} {f : ConnKey → Sys → Sys}
    (hf : ∀ k s, (f k s).toCore = s.toCore) (ns : List ℕ) :
    (s.forConns i f ns).toCore = s.toCore := by
  induction ns generalizing s with
  | nil => rfl
  | cons n ns ih => exact (ih (s := f ⟨i, n⟩ s)).trans (hf _ _)

@[simp] theorem toCore_heartbeats (i : InstanceId) : (s.heartbeats i).toCore = s.toCore := by
  refine toCore_forConns (fun k s => ?_) _
  unfold heartbeat
  dsimp only
  split <;> rfl

@[simp] theorem toCore_broadcastLocal (i : InstanceId) (e : ServerEvent) :
    (s.broadcastLocal i e).toCore = s.toCore := by
  refine toCore_forConns (fun k s => ?_) _
  split <;> rfl

@[simp] theorem toCore_presenceTotal (i : InstanceId) (total : ℤ) :
    (s.presenceTotal i total).toCore = s.toCore := by
  unfold presenceTotal
  split
  · rw [toCore_broadcastLocal]
  · rfl

@[simp] theorem toCore_flushOutbox (i : InstanceId) :
    (s.flushOutbox i).toCore = s.toCore.flushOutbox i := by
  unfold flushOutbox
  dsimp only
  split
  · rfl
  · refine toCore_forConns (fun k s => ?_) _
    split
    · split <;> rfl
    · rfl

theorem toCore_onFrame (k : ConnKey) (raw : Raw) : (s.onFrame env k raw).toCore = s.toCore := by
  unfold onFrame
  dsimp only
  split
  · simp
  · split
    · split <;> rfl
    · rfl

/-- The loop over the connections of a kick mutes those that hold the session. -/
theorem toCore_kickLoop {i : InstanceId} {sid : Sid} {text : Option String} (ns : List ℕ) :
    (s.forConns i
      (fun k s =>
        if (s.conn k).record.any (fun r => r.sid = sid) then s.blocked k 60000 text else s)
      ns).toCore = s.toCore.muteAll i sid ns := by
  induction ns generalizing s with
  | nil => simp [forConns, Core.muteAll]
  | cons n ns ih =>
      rw [forConns, List.foldl_cons]
      refine ih.trans ?_
      have hne : ∀ k : ConnKey, k ≠ ⟨i, n⟩ → k.inst = i → k.seq ≠ n := by
        rintro k hk rfl rfl
        exact hk rfl
      split
      · rename_i hn
        simp only [Core.muteAll, toCore_blocked, Core.mute, Core.updConn]
        congr 1
        funext k
        by_cases hk : k = ⟨i, n⟩
        · subst hk
          simp [hn]
        · simp only [Function.update_of_ne hk, List.mem_cons]
          by_cases hi : k.inst = i
          · simp [hi, hne k hk hi]
          · simp [hi]
      · rename_i hn
        simp only [Core.muteAll]
        congr 1
        funext k
        by_cases hk : k = ⟨i, n⟩
        · subst hk
          simp [hn]
        · by_cases hi : k.inst = i
          · simp [hi, hne k hk hi]
          · simp [hi]

/-- The loop that starts the rollovers of a batch. -/
theorem begins_forConns {i : InstanceId} {next : DailyRoom} (ns : List ℕ) :
    Begins env i next s.toCore ns (s.forConns i (fun k s => s.rollover env k next) ns).toCore := by
  induction ns generalizing s with
  | nil => exact Begins.nil _
  | cons n ns ih =>
      exact Begins.cons ((s.side ⟨i, n⟩).conduct.score.value env.halfPow s.clock)
        (ih (s := s.rollover env ⟨i, n⟩ next))

theorem batches_resetBatches {i : InstanceId} {prev next : DailyRoom} (rest : List ℕ) :
    Batches env i prev next s.toCore rest (s.resetBatches env i prev next rest).toCore := by
  unfold resetBatches
  split
  · rename_i h
    exact Batches.ended h
  · rename_i h
    exact Batches.batch h (begins_forConns _)

theorem resetMove {i : InstanceId} {p : RollingPc} {t : Sys} (h : s.resetResume env i p = some t) :
    ResetMove env i s.toCore p t.toCore := by
  cases p with
  | acquire prev next p =>
      cases p with
      | pending => cases h
      | rejected =>
          obtain rfl := Option.some.inj h
          exact ResetMove.listed (Or.inl ⟨_, rfl⟩) (batches_resetBatches _)
      | fulfilled b =>
          cases b with
          | true =>
              obtain rfl := Option.some.inj h
              exact ResetMove.acquired
          | false =>
              obtain rfl := Option.some.inj h
              exact ResetMove.listed (Or.inl ⟨_, rfl⟩) (batches_resetBatches _)
  | cleanup prev next p =>
      cases p with
      | pending => cases h
      | rejected =>
          obtain rfl := Option.some.inj h
          exact ResetMove.listed (Or.inr (Or.inl ⟨_, rfl⟩)) (batches_resetBatches _)
      | fulfilled u =>
          obtain rfl := Option.some.inj h
          exact ResetMove.cleaned
  | log prev next p =>
      obtain ⟨a, ha, rfl⟩ := Option.map_eq_some_iff.mp h
      exact ResetMove.listed (Or.inr (Or.inr ⟨_, rfl⟩)) (batches_resetBatches _)
  | batch prev next current rest =>
      simp only [resetResume] at h
      split at h
      · rename_i hd
        obtain rfl := Option.some.inj h
        exact ResetMove.batched hd
      · cases h
  | breathe prev next rest =>
      obtain rfl := Option.some.inj h
      exact ResetMove.next (batches_resetBatches _)

theorem toCore_rolloverEnter {k : ConnKey} {p : RolloverPc} {prev : DailyRoom} {r : SessionRecord}
    {token : Token} : (s.rolloverEnter env k p prev r token).toCore =
      s.toCore.rolloverEnter k (s.up k) p prev r token := by
  have hup : ∀ f : Side → Side, (∀ x, (f x).socket = x.socket) →
      (s.updSide k f).up k = s.up k := by
    intro f hf
    simp [up, updSide, hf]
  unfold rolloverEnter
  dsimp only
  split
  · rw [toCore_sendChallenge, toCore_send, toCore_onCore, hup _ (by intro x; rfl)]
    rfl
  · rw [toCore_send, toCore_onCore, hup _ (by intro x; rfl)]
    rfl

theorem rolloverMove {k : ConnKey} {prev : DailyRoom} {p : RolloverPc} {t : Sys}
    (h : s.rolloverResume env k prev p = some t) :
    RolloverMove env k (s.up k) prev s.toCore p t.toCore := by
  obtain ⟨⟨r, d⟩, hr, rfl⟩ := Option.map_eq_some_iff.mp h
  cases r with
  | wait p' => exact RolloverMove.wait hr
  | threw => exact RolloverMove.threw hr
  | done r token =>
      dsimp only
      split
      · rename_i hc
        exact RolloverMove.closed hr hc
      · rename_i hc
        rw [toCore_rolloverEnter]
        exact RolloverMove.enter hr (by simpa using hc)

theorem toCore_accept (i : InstanceId) (info : AdmitInfo) :
    (s.accept env i info).toCore = s.toCore.accept i info := by
  unfold accept
  rw [toCore_signalIf, toCore_signalIf]
  rfl

/-- A detached `persist` saves the record of the moment, or does nothing. -/
theorem persistDetached_cases (k : ConnKey) :
    (s.persistDetached env k).toCore = s.toCore ∨
      ∃ q req, s.toCore.saveReq k q = some req ∧
        (s.persistDetached env k).toCore = s.toCore.spawn (.persist k req .pending) := by
  unfold persistDetached
  dsimp only
  rw [persist_snd]
  split
  · exact Or.inl (toCore_persist ..)
  · rename_i req hq
    refine Or.inr ⟨_, req, hq, ?_⟩
    rw [toCore_onCore, toCore_persist]

theorem coreStep_close {k : ConnKey} {up : ConnKey → Bool} :
    CoreStep env up s.toCore (.closeEvent k) (s.closeEvent env k).toCore := by
  unfold closeEvent onClose
  split
  · exact CoreStep.same _
  · rename_i hc
    have hc' : (s.conn k).closed = false := by simpa using hc
    rw [toCore_onCore]
    generalize hs : ((((s.updSocket k fun x => { x with state := .closed }).onCore
        (·.updConn k fun x => { x with closed := true })).updConduct k fun c =>
          { c with joinTimer := false, persistTimer := false })) = s'
    have hcore : s'.toCore = s.toCore.shut k := by rw [← hs]; rfl
    rcases @persistDetached_cases env s' k with h | ⟨q, req, hq, h⟩
    · rw [h, hcore]
      exact CoreStep.close hc'
    · rw [h, hcore]
      rw [hcore] at hq
      exact CoreStep.closeSave hc' hq

theorem coreStep_upgrade {n : ℕ} {u : Upgrade} {t : Sys} {up : ConnKey → Bool}
    (hu : s.upgrade n = some u) (h : s.upgradeResume env n u = some t) :
    CoreStep env up s.toCore (.resume (.upgrade n)) t.toCore := by
  obtain ⟨pc, hpc, rfl⟩ := Option.map_eq_some_iff.mp h
  dsimp only
  split
  · rename_i ha
    subst ha
    rw [toCore_accept]
    have hm : u.pc = .handshake ∧ u.destroyed = false := by
      cases hp : u.pc with
      | handshake =>
          rw [hp] at hpc
          cases hd : u.destroyed with
          | true => simp [admitResume, hd] at hpc
          | false => exact ⟨rfl, rfl⟩
      | netBlock p => rw [hp] at hpc; cases p <;> simp [admitResume] at hpc
      | backoff b p =>
          rw [hp] at hpc
          cases p with
          | fulfilled v =>
              simp only [admitResume] at hpc
              split at hpc
              · cases hpc
              · split at hpc <;> cases hpc
          | pending => cases hpc
          | rejected => cases hpc
      | attempts p =>
          rw [hp] at hpc
          cases p with
          | fulfilled v =>
              simp only [admitResume] at hpc
              split at hpc <;> cases hpc
          | pending => cases hpc
          | rejected => cases hpc
      | floods p => rw [hp] at hpc; cases p <;> simp [admitResume] at hpc
      | penalty m p => rw [hp] at hpc; cases p <;> simp [admitResume] at hpc
      | admitted => rw [hp] at hpc; cases hd : u.destroyed <;> simp [admitResume, hd] at hpc
      | refused a b => rw [hp] at hpc; cases hpc
      | accepted => rw [hp] at hpc; cases hpc
      | gone => rw [hp] at hpc; cases hpc
    exact CoreStep.accept hu hm.1 hm.2
  · rename_i ha
    exact CoreStep.admitting hu hpc ha

theorem coreStep_task {n : ℕ} {b : Task} {t : Sys} {up : ConnKey → Bool}
    (hb : s.task n = some b) (h : s.taskResume n b = some t) :
    CoreStep env up s.toCore (.resume (.task n)) t.toCore := by
  cases b with
  | persist k req p =>
      obtain ⟨a, ha, rfl⟩ := Option.map_eq_some_iff.mp h
      exact CoreStep.task hb (Or.inl rfl)
  | admin i a =>
      obtain ⟨a', ha, rfl⟩ := Option.map_eq_some_iff.mp h
      refine CoreStep.task hb ?_
      cases a' with
      | none => exact Or.inl rfl
      | some a' => exact Or.inr ⟨i, a, a', rfl, rfl⟩

theorem toCore_choreResume {n : ℕ} {b : Chore} {t : Sys} (h : s.choreResume env n b = some t) :
    t.toCore = s.toCore := by
  cases b with
  | verify k token p =>
      cases p with
      | pending => cases h
      | rejected =>
          obtain rfl := Option.some.inj h
          rfl
      | fulfilled ok =>
          cases ok <;>
          · obtain rfl := Option.some.inj h
            rfl
  | abuse e r p =>
      obtain ⟨a, ha, rfl⟩ := Option.map_eq_some_iff.mp h
      rfl
  | reportPresence i now count p =>
      cases p with
      | pending => cases h
      | rejected =>
          obtain rfl := Option.some.inj h
          rfl
      | fulfilled u =>
          obtain rfl := Option.some.inj h
          rfl
  | totalPresence i now p =>
      cases p with
      | pending => cases h
      | rejected =>
          obtain rfl := Option.some.inj h
          rfl
      | fulfilled total =>
          obtain rfl := Option.some.inj h
          exact toCore_presenceTotal ..
  | removePresence i p =>
      obtain ⟨a, ha, rfl⟩ := Option.map_eq_some_iff.mp h
      rfl

theorem coreStep_resume {th : Thread} {t : Sys} (h : s.resume env th = some t) :
    CoreStep env s.up s.toCore (.resume th) t.toCore := by
  cases th with
  | handler k =>
      obtain ⟨hd, hh, ht⟩ := Option.bind_eq_some_iff.mp h
      obtain ⟨c₁, h', ha, he⟩ := acts_handlerResume ht
      rw [he]
      exact CoreStep.act hh ha
  | rollover k =>
      obtain ⟨p, hp, ht⟩ := Option.bind_eq_some_iff.mp h
      refine CoreStep.rollover hp ?_ (rolloverMove ht)
      intro a b x y hb
      simp [leaving, hb]
  | reset i =>
      obtain ⟨p, hp, ht⟩ := Option.bind_eq_some_iff.mp h
      exact CoreStep.reset hp (resetMove ht)
  | upgrade n =>
      obtain ⟨u, hu, ht⟩ := Option.bind_eq_some_iff.mp h
      exact coreStep_upgrade hu ht
  | task n =>
      obtain ⟨b, hb, ht⟩ := Option.bind_eq_some_iff.mp h
      exact coreStep_task hb ht
  | chore n =>
      obtain ⟨b, hb, ht⟩ := Option.bind_eq_some_iff.mp h
      rw [toCore_choreResume ht]
      exact CoreStep.same _

theorem coreStep_settle {th : Thread} {o : Outcome} {v : Bool} {t : Sys}
    (h : s.settle env o v th = some t) :
    CoreStep env s.up s.toCore (.settle th o v) t.toCore := by
  have core : (s.toCore.settle env o v th).map (fun c => ({ s with toCore := c } : Sys)) = some t →
      CoreStep env s.up s.toCore (.settle th o v) t.toCore := by
    intro h
    obtain ⟨c, hc, rfl⟩ := Option.map_eq_some_iff.mp h
    exact CoreStep.settle hc
  cases th with
  | chore n =>
      obtain ⟨b, hb, ht⟩ := Option.bind_eq_some_iff.mp h
      obtain ⟨⟨b', w⟩, hw, rfl⟩ := Option.map_eq_some_iff.mp ht
      exact CoreStep.settleChore hw
  | handler k => exact core h
  | rollover k => exact core h
  | reset i => exact core h
  | upgrade n => exact core h
  | task n => exact core h

theorem coreStep_handle {k : ConnKey} {t : Sys} (hk : k ∈ s.accepted)
    (h : s.handleNext env k = some t) : CoreStep env s.up s.toCore (.handle k) t.toCore := by
  unfold handleNext at h
  split at h
  · rename_i raw rest hh hq
    obtain rfl := Option.some.inj h
    obtain ⟨c₁, h', ha, he⟩ := @acts_handle env _ k raw (s.up k)
    rw [he]
    exact CoreStep.handle hk hh ha
  · cases h

theorem coreStep_deliver {n : ℕ} {t : Sys} (h : s.deliver n = some t) :
    CoreStep env s.up s.toCore (.deliver n) t.toCore := by
  obtain ⟨⟨i, e⟩, he, rfl⟩ := Option.map_eq_some_iff.mp h
  cases e with
  | message m => exact CoreStep.message he
  | kick origin sid reason =>
      have hk := @toCore_kickLoop (s.onCore fun c => c.receive n) i sid
        (some "You’ve been removed from the room for now.") (s.srv i).conns
      simp only [onBus]
      exact hk ▸ CoreStep.kick he

/-- Every step of the system is a step of the shared state. -/
theorem coreStep {l : Label} {t : Sys} (h : s.step env l = some t) :
    CoreStep env s.up s.toCore l t.toCore := by
  cases l with
  | settle th o v => exact coreStep_settle h
  | resume th => exact coreStep_resume h
  | handle k =>
      simp only [step, Option.ite_none_right_eq_some] at h
      exact coreStep_handle h.1 h.2
  | deliver n => exact coreStep_deliver h
  | clock t' =>
      simp only [step, Option.ite_none_right_eq_some, Option.some.injEq] at h
      obtain ⟨hc, rfl⟩ := h
      exact CoreStep.clock hc
  | start i =>
      simp only [step, Option.ite_none_left_eq_some, Option.some.injEq] at h
      obtain ⟨hc, rfl⟩ := h
      exact CoreStep.start (by simpa using hc)
  | upgrade i req =>
      simp only [step, Option.ite_none_right_eq_some, Option.some.injEq] at h
      obtain ⟨hs, rfl⟩ := h
      exact CoreStep.upgrade hs
  | destroyed n =>
      obtain ⟨u, hu, rfl⟩ := Option.map_eq_some_iff.mp h
      exact CoreStep.destroyed hu
  | frame k raw =>
      simp only [step, Option.ite_none_left_eq_some, Option.some.injEq] at h
      obtain ⟨-, rfl⟩ := h
      rw [toCore_onFrame]
      exact CoreStep.same _
  | pong k =>
      simp only [step, Option.ite_none_left_eq_some, Option.some.injEq] at h
      obtain ⟨-, rfl⟩ := h
      exact CoreStep.same _
  | peerClosing k =>
      simp only [step, Option.ite_none_right_eq_some, Option.some.injEq] at h
      obtain ⟨-, rfl⟩ := h
      exact CoreStep.same _
  | closeEvent k =>
      simp only [step, Option.ite_none_left_eq_some, Option.some.injEq] at h
      obtain ⟨-, rfl⟩ := h
      exact coreStep_close
  | slow k b =>
      obtain rfl := Option.some.inj h
      exact CoreStep.same _
  | joinTimeout k =>
      simp only [step, Option.ite_none_right_eq_some, Option.some.injEq] at h
      obtain ⟨-, rfl⟩ := h
      unfold joinTimeout
      dsimp only
      split <;> exact CoreStep.same _
  | persistTimeout k =>
      simp only [step, Option.ite_none_right_eq_some, Option.some.injEq] at h
      obtain ⟨-, rfl⟩ := h
      unfold persistTimeout
      rcases @persistDetached_cases env _ k with h | ⟨q, req, hq, h⟩
      · rw [h]
        exact CoreStep.same _
      · rw [h]
        exact CoreStep.persist hq
  | tick i =>
      simp only [step, Option.ite_none_right_eq_some, Option.some.injEq] at h
      obtain ⟨ht, rfl⟩ := h
      exact CoreStep.tick ht
  | heartbeat i =>
      simp only [step, Option.ite_none_right_eq_some, Option.some.injEq] at h
      obtain ⟨-, rfl⟩ := h
      rw [toCore_heartbeats]
      exact CoreStep.same _
  | presence i =>
      simp only [step, Option.ite_none_right_eq_some, Option.some.injEq] at h
      obtain ⟨-, rfl⟩ := h
      exact CoreStep.same _
  | flush i =>
      simp only [step, Option.ite_none_right_eq_some, Option.some.injEq] at h
      obtain ⟨-, rfl⟩ := h
      rw [toCore_flushOutbox]
      exact CoreStep.flush
  | stop i =>
      simp only [step, Option.ite_none_right_eq_some, Option.some.injEq] at h
      obtain ⟨-, rfl⟩ := h
      unfold stop
      split
      · exact CoreStep.same _
      · exact CoreStep.stop
  | drain k =>
      simp only [step, Option.ite_none_right_eq_some, Option.some.injEq] at h
      obtain ⟨-, rfl⟩ := h
      exact CoreStep.same _
  | stopEnd i =>
      simp only [step, Option.ite_none_right_eq_some, Option.some.injEq] at h
      obtain ⟨-, rfl⟩ := h
      unfold stopEnd
      rw [toCore_onCore, toCore_forConns (fun k s => toCore_terminate s k)]
      exact CoreStep.stopEnd
  | adminBlock i b =>
      simp only [step, Option.ite_none_right_eq_some] at h
      obtain ⟨-, h⟩ := h
      obtain ⟨a, ha, rfl⟩ := Option.map_eq_some_iff.mp h
      exact CoreStep.adminBlock
  | adminUnblock i name =>
      simp only [step, Option.ite_none_right_eq_some, Option.some.injEq] at h
      obtain ⟨-, rfl⟩ := h
      exact CoreStep.adminUnblock

end Sys

end RoomBackend
