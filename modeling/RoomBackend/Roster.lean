import RoomBackend.Steps

/-! # Who is connected, joined and in which room

The roster is the part of the shared state that says which connections exist, which of them
have joined with which session, what was announced to them, and which room each server serves.
Most steps leave it alone; `Sys.rosterStep` lists the others. -/

namespace RoomBackend

open Async Day Lts

/-! ### The phases of a `join` -/

/-- The handler is a `join` that has not taken up a session yet. -/
def beforeEntry : Option Handler → Bool
  | some (.join (.history _ _ _ _ _)) => false
  | some (.join _) => true
  | _ => false

/-- The handler is a `join` that waits for the history. -/
def awaitsHistory : Option Handler → Bool
  | some (.join (.history _ _ _ _ _)) => true
  | _ => false

/-! ### The roster -/

namespace Core

/-- The roster of a state: everything else is set to fixed values. -/
def roster (c : Core) : Core :=
  { clock := 0
    world :=
      { store := Store.empty, subscribers := [], inFlight := [], journal := []
        lastSave := fun _ => none }
    srv := fun i => { c.srv i with started := true, outbox := [], flushScheduled := false }
    conn := fun k =>
      { c.conn k with
        standing := fun _ => Standing.fresh, handler := none, blockedUntil := 0, handled := 0 }
    accepted := []
    upgrade := fun _ => none
    upgrades := 0
    task := fun _ => none
    tasks := 0
    draws := 0 }

variable (c : Core) (k : ConnKey) (i : InstanceId)

theorem roster_updConn {f : Conn → Conn}
    (hf : ∀ x, { f x with standing := fun _ => Standing.fresh, handler := none, blockedUntil := 0,
                          handled := 0 } =
      { x with standing := fun _ => Standing.fresh, handler := none, blockedUntil := 0,
               handled := 0 }) : (c.updConn k f).roster = c.roster := by
  unfold roster updConn
  congr 1
  funext j
  by_cases hj : j = k
  · subst hj
    simpa using hf (c.conn j)
  · simp [hj]

theorem roster_updSrv {f : Srv → Srv}
    (hf : ∀ v, { f v with started := true, outbox := [], flushScheduled := false } =
      { v with started := true, outbox := [], flushScheduled := false }) :
    (c.updSrv i f).roster = c.roster := by
  unfold roster updSrv
  congr 1
  funext j
  by_cases hj : j = i
  · subst hj
    simpa using hf (c.srv j)
  · simp [hj]

@[simp] theorem roster_setHandler (h : Option Handler) : (c.setHandler k h).roster = c.roster :=
  c.roster_updConn k fun _ => rfl

@[simp] theorem roster_take : (c.take k).roster = c.roster := c.roster_updConn k fun _ => rfl

@[simp] theorem roster_mute (ttl : ℤ) : (c.mute k ttl).roster = c.roster :=
  c.roster_updConn k fun _ => rfl

@[simp] theorem roster_updStanding (sid : Sid) (f : Standing → Standing) :
    (c.updStanding k sid f).roster = c.roster := c.roster_updConn k fun _ => rfl

@[simp] theorem roster_observe (o : Obs) : (c.observe o).roster = c.roster := rfl
@[simp] theorem roster_spawn (b : Task) : (c.spawn b).roster = c.roster := rfl
@[simp] theorem roster_setUpgrade (n : ℕ) (u : Upgrade) : (c.setUpgrade n u).roster = c.roster :=
  rfl

@[simp] theorem roster_issue (r : SessionIdent) : (c.issue k r).roster = c.roster := by
  simp [issue]

@[simp] theorem roster_pass (r : SessionIdent) (t : ℤ) : (c.pass k r t).roster = c.roster := by
  simp [pass]

@[simp] theorem roster_fail (r : SessionIdent) : (c.fail k r).roster = c.roster := by
  simp [fail]

@[simp] theorem roster_tempBlock (r : SessionIdent) (reason : String) :
    (c.tempBlock k r reason).1.roster = c.roster := by
  simp [tempBlock]

@[simp] theorem roster_blockEnd (b : BlockLocals) : (c.blockEnd k b).roster = c.roster := by
  simp [blockEnd]

@[simp] theorem roster_muteAll (sid : Sid) (ns : List ℕ) :
    (c.muteAll i sid ns).roster = c.roster := by
  unfold roster muteAll
  congr 1
  funext k
  dsimp only
  split <;> rfl

theorem roster_onMessage (m : BusMessage) : (c.onMessage i m).roster = c.roster := by
  unfold onMessage
  split
  · simp
  · exact c.roster_updSrv i fun _ => rfl

theorem roster_flushOutbox : (c.flushOutbox i).roster = c.roster :=
  c.roster_updSrv i (f := fun v => { v with outbox := [], flushScheduled := false }) fun _ => rfl

end Core

theorem Escalates.roster {c c' : Core} {k : ConnKey} {e : EscalatePc} (h : Escalates c k c' e) :
    c'.roster = c.roster := by
  cases h <;> simp

theorem EscalateMove.roster {c c' : Core} {k : ConnKey} {e e' : EscalatePc}
    (h : EscalateMove c k e c' e') : c'.roster = c.roster := by
  cases h <;> simp

/-! ### Stretches of a handler and the roster -/

/-- What a stretch of a handler does to the roster. -/
inductive RosterAct (env : Env) (k : ConnKey) (up : Bool) (c : Core) :
    Option Handler → Core → Option Handler → Prop
  | same {h h' : Option Handler} {c₁ : Core} (hc : c₁.roster = c.roster)
      (hh : awaitsHistory h = false) (hh' : awaitsHistory h' = false)
      (hb : beforeEntry h' = true → beforeEntry h = true ∨ (c.conn k).joined = false) :
      RosterAct env k up c h c₁ h'
  | switch {h' : Option Handler} {c₁ : Core} {next : DailyRoom} (hj : (c.conn k).joined = true)
      (hnext : next = env.roomAt c.clock)
      (hr : (c.srv k.inst).rolling = none) (hn : next.roomId ≠ (c.srv k.inst).room.roomId)
      (hc : c₁.roster = (c.switchRoom k.inst next).roster)
      (hh' : awaitsHistory h' = false) (hb : beforeEntry h' = false) :
      RosterAct env k up c none c₁ h'
  | enter {j : JoinCtx} {r : SessionRecord} {token : Token} {p : Promise ℤ} {ttl : ℤ}
      (hp : p.orElse 0 = some ttl) (ht : ttl ≤ 0) :
      RosterAct env k up c (some (.join (.block j r token p))) (c.enter k r token)
        (some (.join (.history j r.toSessionIdent token (c.roomOf k) .pending)))
  | welcome {j : JoinCtx} {r : SessionIdent} {token : Token} {room : DailyRoom}
      {p : Promise (List StoredMessage)} {history : List StoredMessage}
      (hp : p.orElse [] = some history) :
      RosterAct env k up c (some (.join (.history j r token room p)))
        (c.announce k up (.welcome r token room history)) none

theorem JoinMove.beforeEntry {env : Env} {c : Core} {k : ConnKey} {p p' : JoinPc} {d : ℕ}
    (h : JoinMove env c k p p' d) :
    beforeEntry (some (.join p)) = true ∧ beforeEntry (some (.join p')) = true := by
  cases h <;> exact ⟨rfl, rfl⟩

theorem awaitsHistory_of_beforeEntry {h : Option Handler} (hb : beforeEntry h = true) :
    awaitsHistory h = false := by
  unfold beforeEntry at hb
  split at hb
  · cases hb
  · rename_i p hp
    cases p with
    | history j r t room q => exact absurd rfl (hp _ _ _ _ _)
    | _ => rfl
  · cases hb

theorem Act.roster {env : Env} {k : ConnKey} {up : Bool} {c c₁ : Core} {h h' : Option Handler}
    (ha : Act env k up c h c₁ h') : RosterAct env k up c h c₁ h' := by
  -- a stretch of `handleSend`, `challengeResponse` or `report`: the handler is no `join`
  have other : awaitsHistory h = false → awaitsHistory h' = false → beforeEntry h' = false →
      c₁.roster = c.roster → RosterAct env k up c h c₁ h' := by
    intro hh hh' hb hc
    exact RosterAct.same hc hh hh' fun h => by rw [hb] at h; cases h
  cases ha with
  | idle hs hj =>
      refine RosterAct.same rfl ?_ rfl fun h => by cases h
      unfold awaitsHistory
      split
      · exact absurd rfl (hj _ _ _ _ _)
      · rfl
  | joinStart hj => exact RosterAct.same rfl rfl rfl fun _ => Or.inr hj
  | joinFresh hj => exact RosterAct.same rfl rfl rfl fun _ => Or.inr hj
  | joinMove hp =>
      obtain ⟨hb, hb'⟩ := hp.beforeEntry
      exact RosterAct.same rfl (awaitsHistory_of_beforeEntry hb) (awaitsHistory_of_beforeEntry hb')
        fun _ => Or.inl hb
  | joinOver hp => exact RosterAct.same rfl rfl rfl fun h => by cases h
  | joinBlocked hp ht => exact RosterAct.same (by simp) rfl rfl fun h => by cases h
  | joinEnter hp ht => exact RosterAct.enter hp ht
  | joinWelcome hp => exact RosterAct.welcome hp
  | sendSwitch hr hj =>
      rcases Core.checkRoom_cases env (c.observe (.deciding k (c.conn k).handled _)) k.inst with
        hc | ⟨hr, hn, hc⟩
      · exact other rfl rfl rfl (by rw [hc, Core.roster_observe])
      · exact RosterAct.switch hj rfl hr hn (by rw [hc]; rfl) rfl rfl
  | sendReply =>
      refine other rfl rfl rfl ?_
      split <;> simp
  | sendLimited hl he => exact other rfl rfl rfl (by rw [he.roster, Core.roster_observe])
  | sendEscalate hh he =>
      rcases hh with ⟨p, rfl⟩ | ⟨p, rfl⟩
      · exact other rfl rfl rfl he.roster
      · exact other rfl rfl rfl he.roster
  | sendEscalating he => exact other rfl rfl rfl he.roster
  | failedBlock reason hr => exact other rfl rfl rfl (by simp)
  | _ => exact other rfl rfl rfl (by first | rfl | simp)

/-! ### Steps and the roster -/

/-- What a step does to the roster. -/
inductive RosterStep (env : Env) (up : ConnKey → Bool) (c : Core) : Label → Core → Prop
  | same {l : Label} {c' : Core} (hc : c'.roster = c.roster) : RosterStep env up c l c'
  | start {i : InstanceId} {c' : Core} (hs : (c.srv i).started = false)
      (hc : c'.roster = (c.start env i).roster) : RosterStep env up c (.start i) c'
  | accept {n : ℕ} {u : Upgrade} {c' : Core} (hu : c.upgrade n = some u) (hpc : u.pc = .handshake)
      (hd : u.destroyed = false) (hc : c'.roster = (c.accept u.inst u.info).roster) :
      RosterStep env up c (.resume (.upgrade n)) c'
  | close {k : ConnKey} {c' : Core} (hk : (c.conn k).closed = false)
      (hc : c'.roster = ((c.shut k).onClosed k).roster) : RosterStep env up c (.closeEvent k) c'
  | enter {k : ConnKey} {r : SessionRecord} {token : Token} {c' : Core}
      (he : c.entering k = some r) (hc : c'.roster = (c.enter k r token).roster) :
      RosterStep env up c (.resume (.handler k)) c'
  | welcome {k : ConnKey} {j : JoinCtx} {r : SessionIdent} {token : Token} {room : DailyRoom}
      {p : Promise (List StoredMessage)} {history : List StoredMessage} {c' : Core}
      (hh : (c.conn k).handler = some (.join (.history j r token room p)))
      (hp : p.orElse [] = some history)
      (hc : c'.roster = (c.announce k (up k) (.welcome r token room history)).roster) :
      RosterStep env up c (.resume (.handler k)) c'
  | switch {l : Label} {i : InstanceId} {next : DailyRoom} {c' : Core} (hl : Switches c l i)
      (hnext : next = env.roomAt c.clock)
      (hr : (c.srv i).rolling = none) (hn : next.roomId ≠ (c.srv i).room.roomId)
      (hc : c'.roster = (c.switchRoom i next).roster) : RosterStep env up c l c'
  | settleRollover {k : ConnKey} {o : Outcome} {v : Bool} {p p' : RolloverPc} {w : World}
      {c' : Core} (hp : (c.conn k).rolling = some p)
      (hs : p.settle c.clock k o c.world = some (p', w))
      (hc : c'.roster = (c.setRolling k (some p')).roster) :
      RosterStep env up c (.settle (.rollover k) o v) c'
  | rollover {k : ConnKey} {p : RolloverPc} {prev : DailyRoom} {c' : Core}
      (hp : (c.conn k).rolling = some p)
      (hprev : ∀ a b x y, (c.srv k.inst).rolling = some (.batch a b x y) → prev = a)
      (hm : RolloverMove env k (up k) prev c p c') :
      RosterStep env up c (.resume (.rollover k)) c'
  | settleReset {i : InstanceId} {o : Outcome} {v : Bool} {p p' : RollingPc} {w : World}
      {c' : Core} (hp : (c.srv i).rolling = some p) (hs : p.settle c.clock o c.world = some (p', w))
      (hc : c'.roster = (c.setReset i (some p')).roster) :
      RosterStep env up c (.settle (.reset i) o v) c'
  | reset {i : InstanceId} {p : RollingPc} {c' : Core} (hp : (c.srv i).rolling = some p)
      (hm : ResetMove env i c p c') : RosterStep env up c (.resume (.reset i)) c'
  | stop {i : InstanceId} {c' : Core}
      (hc : c'.roster = (c.updSrv i fun v => { v with shuttingDown := true }).roster) :
      RosterStep env up c (.stop i) c'

/-- The operation a thread waits for changes the roster only when it is a rollover's. -/
theorem Core.roster_settle {env : Env} {up : ConnKey → Bool} {c c' : Core} {th : Thread}
    {o : Outcome} {v : Bool} (h : c.settle env o v th = some c') :
    RosterStep env up c (.settle th o v) c' := by
  cases th with
  | handler k =>
      obtain ⟨h₀, hh, h⟩ := Option.bind_eq_some_iff.mp h
      obtain ⟨r, hr, rfl⟩ := Option.map_eq_some_iff.mp h
      exact RosterStep.same (Core.roster_setHandler ..)
  | rollover k =>
      obtain ⟨p, hp, h⟩ := Option.bind_eq_some_iff.mp h
      obtain ⟨r, hr, rfl⟩ := Option.map_eq_some_iff.mp h
      exact RosterStep.settleRollover hp hr rfl
  | reset i =>
      obtain ⟨p, hp, h⟩ := Option.bind_eq_some_iff.mp h
      obtain ⟨r, hr, rfl⟩ := Option.map_eq_some_iff.mp h
      exact RosterStep.settleReset hp hr rfl
  | upgrade n =>
      obtain ⟨u, hu, h⟩ := Option.bind_eq_some_iff.mp h
      obtain ⟨r, hr, rfl⟩ := Option.map_eq_some_iff.mp h
      exact RosterStep.same rfl
  | task n =>
      obtain ⟨b, hb, h⟩ := Option.bind_eq_some_iff.mp h
      obtain ⟨r, hr, rfl⟩ := Option.map_eq_some_iff.mp h
      exact RosterStep.same rfl
  | chore n => cases h

theorem CoreStep.roster {env : Env} {up : ConnKey → Bool} {c c' : Core} {l : Label}
    (h : CoreStep env up c l c') : RosterStep env up c l c' := by
  cases h with
  | same l => exact RosterStep.same rfl
  | start h => exact RosterStep.start h rfl
  | act hh ha =>
      cases ha.roster with
      | same hc => exact RosterStep.same (by rw [Core.roster_setHandler, hc])
      | enter hp ht =>
          exact RosterStep.enter (Core.entering_eq hh hp ht) (Core.roster_setHandler ..)
      | welcome hp => exact RosterStep.welcome hh hp (Core.roster_setHandler ..)
  | @handle k c₁ h' hk hh ha =>
      cases ha.roster with
      | same hc =>
          exact RosterStep.same (by rw [Core.roster_setHandler, hc, Core.roster_take])
      | switch hj hnext hr hn hc =>
          refine RosterStep.switch (Switches.handle hk (by simpa using hj)) hnext hr hn ?_
          rw [Core.roster_setHandler, hc]
          exact Core.roster_take (c.switchRoom k.inst _) k
  | rollover hp hprev hm => exact RosterStep.rollover hp hprev hm
  | reset hp hm => exact RosterStep.reset hp hm
  | accept hu hpc hd => exact RosterStep.accept hu hpc hd rfl
  | close hc => exact RosterStep.close hc rfl
  | closeSave hc hq => exact RosterStep.close hc rfl
  | @tick i h =>
      rcases Core.checkRoom_cases env c i with hc | ⟨hr, hn, hc⟩
      · exact RosterStep.same (by rw [hc])
      · exact RosterStep.switch (Switches.tick h) rfl hr hn (by rw [hc])
  | message hn => exact RosterStep.same (Core.roster_onMessage ..)
  | flush => exact RosterStep.same (Core.roster_flushOutbox ..)
  | stop => exact RosterStep.stop rfl
  | kick hn => exact RosterStep.same (Core.roster_muteAll ..)
  | settle h => exact Core.roster_settle h
  | _ => exact RosterStep.same rfl

end RoomBackend
