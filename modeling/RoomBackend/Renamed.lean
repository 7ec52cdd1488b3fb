import RoomBackend.Renaming

/-! # Methods on a renamed state

The methods of a connection up to the join and the reset of midnight commute with a renaming of
the session ids (`Renaming`): what a method does to the renamed state, in the renamed environment,
is the renaming of what it does. -/

namespace RoomBackend

open Async Day RateLimit Suspicion Lts Expiring

/-! ### The shared part -/

section core

variable (π : Sid ↪ Sid)

theorem SessionIdent.rename_sid (r : SessionIdent) : (r.rename π).sid = π r.sid := rfl

theorem SessionRecord.rename_sid (r : SessionRecord) : (r.rename π).sid = π r.sid := rfl

theorem BlockLocals.rename_sid (b : BlockLocals) : (b.rename π).record.sid = π b.record.sid := rfl

namespace Conn

variable (x : Conn)

theorem rename_record : (x.rename π).record = x.record.map (SessionIdent.rename π) := rfl

@[simp] theorem rename_standing (sid : Sid) : (x.rename π).standing (π sid) = x.standing sid :=
  π.injective.extend_apply x.standing (fun _ => Standing.fresh) sid

@[simp] theorem rename_new (info : AdmitInfo) : (Conn.new info).rename π = Conn.new info := by
  unfold Conn.new rename
  rw [extend_const]
  rfl

@[simp] theorem rename_unborn : Conn.unborn.rename π = Conn.unborn := by
  unfold Conn.unborn
  exact congrArg (fun x : Conn => { x with closed := true }) (rename_new π _)

theorem rename_update (sid : Sid) (t : Standing) :
    ({ x.rename π with standing := Function.update (x.rename π).standing (π sid) t } : Conn) =
      ({ x with standing := Function.update x.standing sid t } : Conn).rename π := by
  rw [show (x.rename π).standing = Function.extend π x.standing fun _ => Standing.fresh from rfl,
    ← extend_update]
  rfl

@[simp] theorem rename_trusted (now : ℤ) : (x.rename π).trusted now = x.trusted now := by
  unfold trusted
  rw [rename_record]
  cases x.record with
  | none => rfl
  | some r =>
      show decide (((x.rename π).standing (π r.sid)).trustedUntil > now) = _
      rw [rename_standing]

end Conn

theorem Side.rename_conduct (d : Side) : (d.rename π).conduct = d.conduct := rfl

/-- A side without scores of sessions holds no session id. -/
theorem Side.rename_unrated {d : Side} (h : d.rating = fun _ => ⟨0, 0⟩) : d.rename π = d := by
  unfold Side.rename
  rw [h, extend_const, ← h]

namespace Core

variable (c : Core) (k : ConnKey)

@[simp] theorem rename_conn : (c.rename π).conn k = (c.conn k).rename π := rfl

theorem updConn_rename {f g : Conn → Conn} (h : g ((c.conn k).rename π) = (f (c.conn k)).rename π) :
    (c.rename π).updConn k g = (c.updConn k f).rename π := by
  unfold updConn
  rw [rename_conn, h]
  exact congrArg (fun x => ({ c.rename π with conn := x } : Core))
    (Function.comp_update (Conn.rename π) c.conn k (f (c.conn k))).symm

theorem updStanding_rename (sid : Sid) (f : Standing → Standing) :
    (c.rename π).updStanding k (π sid) f = (c.updStanding k sid f).rename π := by
  refine c.updConn_rename π k ?_
  rw [Conn.rename_standing, Conn.rename_update]

theorem observe_rename (o : Obs) : (c.rename π).observe (o.rename π) = (c.observe o).rename π :=
  congrArg (fun w => ({ c.rename π with world := w } : Core)) (c.world.record_rename π o)

theorem spawn_rename (b : Task) : (c.rename π).spawn (b.rename π) = (c.spawn b).rename π :=
  congrArg (fun x => ({ c.rename π with task := x, tasks := c.tasks + 1 } : Core))
    (Function.comp_update (Option.map (Task.rename π)) c.task c.tasks (some b)).symm

theorem setHandler_rename (h : Option Handler) :
    (c.rename π).setHandler k (h.map (Handler.rename π)) = (c.setHandler k h).rename π :=
  c.updConn_rename π k rfl

theorem suspend_rename {h h' : Handler} (hh : h' = h.rename π) :
    (c.rename π).suspend k h' = (c.suspend k h).rename π := by
  rw [hh]
  exact c.setHandler_rename π k (some h)

theorem finish_rename : (c.rename π).finish k = (c.finish k).rename π :=
  c.setHandler_rename π k none

theorem copy_rename (r : SessionIdent) (q : Rating) :
    (c.rename π).copy k (r.rename π) q = (c.copy k r q).rename π := by
  unfold copy
  rw [rename_conn, SessionIdent.rename_sid, Conn.rename_standing]
  rfl

theorem saveReq_rename (q : Rating) :
    (c.rename π).saveReq k q = (c.saveReq k q).map (SaveReq.rename π) := by
  unfold saveReq
  rw [rename_conn, Conn.rename_record,
    show (c.rename π).roomOf k = c.roomOf k from rfl]
  cases (c.conn k).record with
  | none => rfl
  | some r =>
      show (if r.roomId ≠ (c.roomOf k).roomId then none else some _) = _
      dsimp only
      split
      · rfl
      · rw [copy_rename]
        rfl

theorem mute_rename (ttlMs : ℤ) : (c.rename π).mute k ttlMs = (c.mute k ttlMs).rename π :=
  c.updConn_rename π k rfl

theorem journal_length_rename :
    (c.rename π).world.journal.length = c.world.journal.length := List.length_map ..

theorem issue_rename (r : SessionIdent) :
    (c.rename π).issue k (r.rename π) = (c.issue k r).rename π := by
  unfold issue
  rw [journal_length_rename, SessionIdent.rename_sid, updStanding_rename]
  exact observe_rename π _ (.issued k r.sid)

theorem pass_rename (r : SessionIdent) (t : ℤ) :
    (c.rename π).pass k (r.rename π) t = (c.pass k r t).rename π := by
  unfold pass
  rw [journal_length_rename, SessionIdent.rename_sid, updStanding_rename]
  exact observe_rename π _ (.passed k r.sid)

theorem fail_rename (r : SessionIdent) :
    (c.rename π).fail k (r.rename π) = (c.fail k r).rename π :=
  c.updStanding_rename π k r.sid _

theorem tempBlock_rename (r : SessionIdent) (reason : String) :
    (c.rename π).tempBlock k (r.rename π) reason =
      ((c.tempBlock k r reason).1.rename π, (c.tempBlock k r reason).2.rename π) := by
  unfold tempBlock
  dsimp only
  rw [SessionIdent.rename_sid, updStanding_rename, rename_conn,
    Conn.rename_standing]
  rfl

theorem blockEnd_rename (b : BlockLocals) :
    (c.rename π).blockEnd k (b.rename π) = (c.blockEnd k b).rename π := by
  unfold blockEnd
  rw [show (b.rename π).ttl = b.ttl from rfl, mute_rename]
  exact observe_rename π _ (.blocked k b)

theorem announce_rename (sent : Bool) (a : Announcement) :
    (c.rename π).announce k sent (a.rename π) = (c.announce k sent a).rename π := by
  refine c.updConn_rename π k ?_
  unfold Conn.rename
  cases sent with
  | false => rfl
  | true =>
      dsimp only
      rw [if_pos rfl, if_pos rfl, List.map_append]
      rfl

end Core

/-! ### Sessions -/

def CreateRes.rename : CreateRes → CreateRes
  | wait p => wait (p.rename π)
  | done record token => done (record.rename π) token
  | threw => threw

def ResumeRes.rename : ResumeRes → ResumeRes
  | wait r => wait (r.rename π)
  | done record => done (record.map (SessionRecord.rename π))

variable {env : Env}

theorem CreatePc.resume_rename (d : ℕ) (p : CreatePc) :
    (p.rename π).resume (env.rename π) d =
      (p.resume env d).map (Prod.map (CreateRes.rename π) id) := by
  cases p with
  | claim room input sid i candidate p =>
      cases p with
      | pending => rfl
      | rejected => rfl
      | fulfilled b =>
          cases b with
          | true => rfl
          | false =>
              show (if i + 1 < 10 then some _ else some _) =
                Option.map _ (if i + 1 < 10 then _ else _)
              split <;> rfl
  | save room record token p => cases p <;> rfl
  | link room record token saved p =>
      cases p with
      | pending => rfl
      | rejected => rfl
      | fulfilled => cases saved <;> rfl

theorem ResumePc.room_rename (p : ResumePc) : (p.rename π).room = p.room := by
  cases p with
  | resolve => rfl
  | load => rfl

theorem ResumePc.resume_rename (p : ResumePc) :
    (p.rename π).resume = p.resume.map (ResumeRes.rename π) := by
  cases p with
  | resolve room token p =>
      cases p with
      | pending => rfl
      | rejected => rfl
      | fulfilled sid => cases sid <;> rfl
  | load room sid p =>
      cases p with
      | pending => rfl
      | rejected => rfl
      | fulfilled r =>
          cases r with
          | none => rfl
          | some r =>
              show some (ResumeRes.done ((some (r.rename π)).filter _)) =
                some (ResumeRes.done (((some r).filter _).map _))
              rw [Option.filter_some, Option.filter_some]
              show some (ResumeRes.done
                (if decide (r.roomId = room.roomId) = true then _ else _)) = _
              split <;> rfl

namespace Core

variable (c : Core) (k : ConnKey)

/-! ### Joining and midnight -/

theorem checkRoom_rename (i : InstanceId) :
    (c.rename π).checkRoom (env.rename π) i = (c.checkRoom env i).rename π := by
  unfold checkRoom
  show (if (c.srv i).rolling.isSome = true then c.rename π
    else if (env.roomAt c.clock).roomId = (c.srv i).room.roomId then c.rename π else _) = _
  dsimp only
  split
  · rfl
  · split <;> rfl

theorem joinAttempt_rename (j : JoinCtx) (token : Option Token) :
    (c.rename π).joinAttempt k j token = (c.joinAttempt k j token).rename π := by
  cases token with
  | none => exact c.suspend_rename π k rfl
  | some t => exact c.suspend_rename π k rfl

theorem join_rename (token : Option Token) (verification : Option String) :
    (c.rename π).join k token verification = (c.join k token verification).rename π := by
  unfold join
  rw [show ((c.rename π).conn k).joined = (c.conn k).joined from rfl]
  split
  · exact c.finish_rename π k
  · exact c.joinAttempt_rename π k _ token

theorem joinCheck_rename (j : JoinCtx) (r : SessionRecord) (token : Token) :
    (c.rename π).joinCheck k j (r.rename π) token = (c.joinCheck k j r token).rename π := by
  unfold joinCheck
  rw [show (r.rename π).roomId = r.roomId from rfl,
    show (c.rename π).roomOf k = c.roomOf k from rfl,
    show ((c.rename π).conn k).closed = (c.conn k).closed from rfl]
  split
  · split
    · exact c.finish_rename π k
    · exact c.suspend_rename π k rfl
  · split
    · exact c.joinAttempt_rename π k _ none
    · exact c.finish_rename π k

theorem joinResumed_rename (j : JoinCtx) (room : DailyRoom) (token : Token) (r : ResumeRes) :
    (c.rename π).joinResumed k j room token (r.rename π) =
      (c.joinResumed k j room token r).rename π := by
  cases r with
  | wait r => exact c.suspend_rename π k rfl
  | done record =>
      cases record with
      | none => exact c.suspend_rename π k rfl
      | some r => exact c.suspend_rename π k rfl

theorem joinCreate_rename (j : JoinCtx) (room : DailyRoom) (q : ℚ) :
    (c.rename π).joinCreate (env.rename π) k j room q = (c.joinCreate env k j room q).rename π :=
  c.draw.suspend_rename π k rfl

theorem joinCreated_rename (j : JoinCtx) (r : CreateRes × ℕ) :
    (c.rename π).joinCreated k j (Prod.map (CreateRes.rename π) id r) =
      (c.joinCreated k j r).rename π := by
  obtain ⟨r, d⟩ := r
  cases r with
  | wait p => exact suspend_rename π { c with draws := d } k rfl
  | done record token => exact joinCheck_rename π { c with draws := d } k j record token
  | threw => exact finish_rename π { c with draws := d } k

theorem enter_rename (r : SessionRecord) (token : Token) :
    (c.rename π).enter k (r.rename π) token = (c.enter k r token).rename π := by
  have hu : (c.rename π).updConn k (fun x => { x with
      record := some (r.rename π).toSessionIdent
      standing := Function.update x.standing (π r.sid) r.toStanding
      resumeToken := some token
      joined := true
      held := x.held ++ [(r.rename π).toSessionIdent] }) =
      (c.updConn k fun x => { x with
        record := some r.toSessionIdent
        standing := Function.update x.standing r.sid r.toStanding
        resumeToken := some token
        joined := true
        held := x.held ++ [r.toSessionIdent] }).rename π := by
    refine c.updConn_rename π k ?_
    unfold Conn.rename
    rw [List.map_append, ← extend_update]
    rfl
  unfold enter
  dsimp only
  rw [SessionRecord.rename_sid,
    show (r.rename π).toStanding = r.toStanding from rfl,
    hu]
  rfl

theorem rollover_rename (next : DailyRoom) (q : ℚ) :
    (c.rename π).rollover (env.rename π) k next q = (c.rollover env k next q).rename π := by
  unfold rollover
  dsimp only
  rw [rename_conn, Conn.rename_record]
  cases hr : (c.conn k).record with
  | none => rfl
  | some r =>
      dsimp only [Option.map_some]
      rw [show ((c.conn k).rename π).joined = (c.conn k).joined from rfl,
        show ((c.conn k).rename π).closed = (c.conn k).closed from rfl,
        SessionIdent.rename_sid, Conn.rename_standing]
      split
      · rfl
      · exact c.draw.updConn_rename π k rfl

theorem setRolling_rename (p : Option RolloverPc) :
    (c.rename π).setRolling k (p.map (RolloverPc.rename π)) = (c.setRolling k p).rename π :=
  c.updConn_rename π k rfl

theorem rolloverEnter_rename (sent : Bool) (p : RolloverPc) (prev : DailyRoom) (r : SessionRecord)
    (token : Token) : (c.rename π).rolloverEnter k sent (p.rename π) prev (r.rename π) token =
      (c.rolloverEnter k sent p prev r token).rename π := by
  have hu : (c.rename π).updConn k (fun x => { x with
      record := some (r.rename π).toSessionIdent
      standing := Function.update x.standing (π r.sid) r.toStanding
      resumeToken := some token
      held := x.held ++ [(r.rename π).toSessionIdent]
      rolling := none }) =
      (c.updConn k fun x => { x with
        record := some r.toSessionIdent
        standing := Function.update x.standing r.sid r.toStanding
        resumeToken := some token
        held := x.held ++ [r.toSessionIdent]
        rolling := none }).rename π := by
    refine c.updConn_rename π k ?_
    unfold Conn.rename
    rw [List.map_append, ← extend_update]
    rfl
  have hold : ((c.rename π).conn k).record.getD (r.rename π).toSessionIdent =
      ((c.conn k).record.getD r.toSessionIdent).rename π := by
    show ((c.conn k).record.map _).getD _ = _
    cases (c.conn k).record <;> rfl
  unfold rolloverEnter
  dsimp only
  rw [SessionRecord.rename_sid,
    show (r.rename π).toStanding = r.toStanding from rfl,
    hu, hold]
  refine (congrArg (fun d : Core => d.announce k sent _) (observe_rename π _
    (.rolled k _ prev ((c.conn k).record.getD r.toSessionIdent) r.toSessionIdent))).trans ?_
  exact announce_rename π _ k sent (.reset r.toSessionIdent token p.next)

/-! ### The room server -/

theorem onUpgrade_rename (i : InstanceId) (req : UpgradeReq) :
    (c.rename π).onUpgrade (env.rename π) i req = (c.onUpgrade env i req).rename π := rfl

theorem accept_rename (i : InstanceId) (info : AdmitInfo) :
    (c.rename π).accept i info = (c.accept i info).rename π := by
  have hu : (c.rename π).updConn ⟨i, (c.srv i).seq + 1⟩ (fun _ => Conn.new info) =
      (c.updConn ⟨i, (c.srv i).seq + 1⟩ fun _ => Conn.new info).rename π :=
    c.updConn_rename π _ (Conn.rename_new π info).symm
  unfold accept
  dsimp only
  rw [show (c.rename π).srv i = c.srv i from rfl, hu]
  rfl

theorem onClosed_rename : (c.rename π).onClosed k = (c.onClosed k).rename π := rfl

theorem onMessage_rename (i : InstanceId) (m : BusMessage) :
    (c.rename π).onMessage i m = (c.onMessage i m).rename π := by
  unfold onMessage
  rw [show (c.rename π).srv i = c.srv i from rfl]
  split
  · exact c.observe_rename π (.dropped i m (c.srv i).room.roomId)
  · rfl

theorem flushOutbox_rename (i : InstanceId) :
    (c.rename π).flushOutbox i = (c.flushOutbox i).rename π := by
  have hlog : (c.rename π).world.journal ++
      ((c.stale i).map (fun m => Obs.dropped i m (c.srv i).room.roomId) ++
        [Obs.flushed i (c.batch i)]) = (c.world.journal ++
      ((c.stale i).map (fun m => Obs.dropped i m (c.srv i).room.roomId) ++
        [Obs.flushed i (c.batch i)])).map (Obs.rename π) := by
    rw [List.map_append, List.map_append, List.map_map]
    rfl
  refine (congrArg (fun j => ({ (c.rename π).updSrv i fun v =>
    { v with outbox := [], flushScheduled := false } with
    world := { c.world.rename π with journal := j } } : Core)) hlog).trans rfl

theorem receives_rename (i : InstanceId) : (c.rename π).receives i k = c.receives i k := by
  unfold receives
  rw [rename_conn, Conn.rename_record]
  cases (c.conn k).record <;> rfl

theorem batchDone_rename (i : InstanceId) (current : List ℕ) :
    (c.rename π).batchDone i current = c.batchDone i current := by
  unfold batchDone
  congr 1
  funext n
  show ((c.conn ⟨i, n⟩).rolling.map (RolloverPc.rename π)).isNone = _
  cases (c.conn ⟨i, n⟩).rolling <;> rfl

end Core

end core

/-! ### Updates of the state -/

section methods

variable (π : Sid ↪ Sid)

/-- Both branches renamed. -/
theorem rename_ite {α β : Type} {ρ : α → β} {p q : Prop} [Decidable p] [Decidable q] {x y : α}
    {x' y' : β} (h : q ↔ p) (hx : x' = ρ x) (hy : y' = ρ y) :
    (if q then x' else y') = ρ (if p then x else y) := by
  by_cases hp : p
  · rw [if_pos hp, if_pos (h.mpr hp), hx]
  · rw [if_neg hp, if_neg fun hq => hp (h.mp hq), hy]

/-- What is done with an answer, renamed. -/
theorem rename_map {α β γ δ : Type} {ρ : α → β} {ρ' : γ → δ} {f : α → γ} {g : β → δ}
    {x : Option α} {x' : Option β} (hx : x' = x.map ρ) (h : ∀ a, g (ρ a) = ρ' (f a)) :
    x'.map g = (x.map f).map ρ' := by
  rw [hx, Option.map_map, Option.map_map]
  congr 1
  funext a
  exact h a

/-- The same for an answer without session ids. -/
theorem rename_map_same {α γ δ : Type} {ρ' : γ → δ} {f : α → γ} {g : α → δ} {x : Option α}
    (h : ∀ a, g a = ρ' (f a)) : x.map g = (x.map f).map ρ' :=
  rename_map (ρ := id) (Option.map_id ▸ rfl) h

/-- A function of a suspended one, renamed. -/
theorem rename_bind {α β γ δ : Type} {ρ : α → β} {ρ' : γ → δ} {f : α → Option γ}
    {g : β → Option δ} {x : Option α} {x' : Option β} (hx : x' = x.map ρ)
    (h : ∀ a, g (ρ a) = (f a).map ρ') : x'.bind g = (x.bind f).map ρ' := by
  rw [hx]
  cases x with
  | none => rfl
  | some a => exact h a

/-- The same for one that holds no session id. -/
theorem rename_bind_same {α γ δ : Type} {ρ' : γ → δ} {f : α → Option γ} {g : α → Option δ}
    {x : Option α} (h : ∀ a, g a = (f a).map ρ') : x.bind g = (x.bind f).map ρ' :=
  rename_bind (ρ := id) (Option.map_id ▸ rfl) h

theorem Conn.rename_isSome (x : Conn) : (x.rename π).record.isSome = x.record.isSome :=
  Option.isSome_map

namespace Sys

variable (s : Sys) (k : ConnKey)

theorem rename_conn : (s.rename π).conn k = (s.conn k).rename π := rfl

theorem rename_side : (s.rename π).side k = (s.side k).rename π := rfl

theorem onCore_rename {f g : Core → Core} (h : g (s.toCore.rename π) = (f s.toCore).rename π) :
    (s.rename π).onCore g = (s.onCore f).rename π :=
  congrArg (fun c => ({ s.rename π with toCore := c } : Sys)) h

theorem updSide_rename {f g : Side → Side} (h : g ((s.side k).rename π) = (f (s.side k)).rename π) :
    (s.rename π).updSide k g = (s.updSide k f).rename π := by
  unfold updSide
  rw [rename_side, h]
  exact congrArg (fun x => ({ s.rename π with side := x } : Sys))
    (Function.comp_update (Side.rename π) s.side k (f (s.side k))).symm

theorem updConduct_rename (f : Conduct → Conduct) :
    (s.rename π).updConduct k f = (s.updConduct k f).rename π := s.updSide_rename π k rfl

theorem updSocket_rename (f : Socket → Socket) :
    (s.rename π).updSocket k f = (s.updSocket k f).rename π := s.updSide_rename π k rfl

theorem start_rename {b b' : Chore} (h : b' = b.rename π) :
    (s.rename π).start b' = (s.start b).rename π := by
  rw [h]
  exact congrArg (fun x => ({ s.rename π with chore := x, chores := s.chores + 1 } : Sys))
    (Function.comp_update (Option.map (Chore.rename π)) s.chore s.chores (some b)).symm

theorem suspend_rename {h h' : Handler} (hh : h' = h.rename π) :
    (s.rename π).suspend k h' = (s.suspend k h).rename π :=
  s.onCore_rename π (s.toCore.suspend_rename π k hh)

theorem finish_rename : (s.rename π).finish k = (s.finish k).rename π :=
  s.onCore_rename π (s.toCore.finish_rename π k)

theorem send_rename (e : ServerEvent) : (s.rename π).send k e = (s.send k e).rename π :=
  s.updSocket_rename π k _

theorem close_rename (code : ℕ) (reason : String) :
    (s.rename π).close k code reason = (s.close k code reason).rename π :=
  s.updSocket_rename π k _

theorem terminate_rename : (s.rename π).terminate k = (s.terminate k).rename π :=
  s.updSocket_rename π k _

variable {env : Env}

/-- A frame holds no session id. -/
theorem announcementFrame_rename (a : Announcement) :
    (s.rename π).announcementFrame (env.rename π) k (a.rename π) = s.announcementFrame env k a := by
  cases a with
  | welcome record token room history =>
      have hh : (history.map (StoredMessage.rename π)).map toPublic = history.map toPublic := by
        rw [List.map_map]
        rfl
      show ServerEvent.welcome _ _ _ _ _ ((history.map (StoredMessage.rename π)).map toPublic) _ _
        = _
      rw [hh]
      rfl
  | reset => rfl

theorem announce_rename (a : Announcement) :
    (s.rename π).announce (env.rename π) k (a.rename π) = (s.announce env k a).rename π := by
  unfold announce
  rw [announcementFrame_rename, s.onCore_rename π (f := (·.announce k (s.up k) a))
    (s.toCore.announce_rename π k (s.up k) a)]
  exact send_rename π _ k _

/-! ### Scoring and saving -/

theorem signal_rename (name : Signal) :
    (s.rename π).signal (env.rename π) k name = (s.signal env k name).rename π := by
  unfold signal
  rw [rename_conn, Conn.rename_trusted,
    Conn.rename_isSome]
  exact s.updConduct_rename π k _

theorem persistSoon_rename : (s.rename π).persistSoon k = (s.persistSoon k).rename π := by
  unfold persistSoon
  rw [rename_conn, Conn.rename_isSome]
  exact s.updConduct_rename π k _

theorem signalIf_rename (b : Bool) (name : Signal) :
    (s.rename π).signalIf (env.rename π) k b name = (s.signalIf env k b name).rename π := by
  cases b with
  | true => exact s.signal_rename π k name
  | false => rfl

theorem persist_rename : (s.rename π).persist (env.rename π) k =
    ((s.persist env k).1.rename π, (s.persist env k).2.map (SaveReq.rename π)) := by
  unfold persist
  dsimp only
  rw [show (s.rename π).snapshot (env.rename π) k = s.snapshot env k from rfl,
    show (s.rename π).saveReq k (s.snapshot env k) = _ from
      s.toCore.saveReq_rename π k (s.snapshot env k)]
  cases s.saveReq k (s.snapshot env k) with
  | none => rfl
  | some req =>
      have hu : (s.rename π).updSide k (fun d => { d with
          rating := Function.update d.rating (π req.record.sid) (s.snapshot env k) }) =
          (s.updSide k fun d => { d with
            rating := Function.update d.rating req.record.sid (s.snapshot env k) }).rename π := by
        refine s.updSide_rename π k ?_
        unfold Side.rename
        rw [extend_update]
      exact Prod.ext hu rfl

theorem savePromise_rename (req : Option SaveReq) :
    savePromise (req.map (SaveReq.rename π)) = savePromise req := by
  cases req <;> rfl

theorem persistDetached_rename :
    (s.rename π).persistDetached (env.rename π) k = (s.persistDetached env k).rename π := by
  unfold persistDetached
  dsimp only
  rw [persist_rename]
  cases (s.persist env k).2 with
  | none => rfl
  | some req => exact onCore_rename π _ (Core.spawn_rename π _ (.persist k req .pending))

/-! ### Challenges and enforcement -/

theorem sendChallenge_rename (force : Bool) :
    (s.rename π).sendChallenge (env.rename π) k force = (s.sendChallenge env k force).rename π := by
  unfold sendChallenge
  rw [show (env.rename π).provider = env.provider from rfl]
  cases env.provider with
  | none => rfl
  | some provider =>
      show (if !force && s.clock - (s.side k).conduct.lastChallengeSent < 5000 then _ else _) = _
      dsimp only
      split
      · rfl
      · rw [updConduct_rename]
        exact send_rename π _ k _

theorem blocked_rename (ttlMs : ℤ) (message : Option String) :
    (s.rename π).blocked k ttlMs message = (s.blocked k ttlMs message).rename π := by
  unfold blocked
  rw [s.onCore_rename π (f := (·.mute k ttlMs)) (s.toCore.mute_rename π k ttlMs), send_rename,
    close_rename]

theorem tempBlockSave_rename (b : BlockLocals) :
    (s.rename π).tempBlockSave (env.rename π) k (b.rename π) =
      ((s.tempBlockSave env k b).1.rename π, (s.tempBlockSave env k b).2.rename π) := by
  unfold tempBlockSave
  dsimp only
  rw [rename_conn,
    BlockLocals.rename_sid, Conn.rename_standing]
  have hs : (s.rename π).start (.abuse (.block (b.rename π).reason
      ((env.rename π).logTag (π b.record.sid)) (b.rename π).ttl
      ((s.conn k).standing b.record.sid).blocks) EVENT_RETENTION_MS .pending) = _ :=
    s.start_rename π (b := .abuse (.block b.reason (env.logTag b.record.sid) b.ttl
      ((s.conn k).standing b.record.sid).blocks) EVENT_RETENTION_MS .pending) rfl
  rw [hs, persist_rename, savePromise_rename]
  rfl

/-- Where `tempBlock` waits, or its locals at the end. -/
def renameBlock : BlockPc ⊕ BlockLocals → BlockPc ⊕ BlockLocals :=
  Sum.map (BlockPc.rename π) (BlockLocals.rename π)

theorem tempBlockResume_rename (b : BlockPc) :
    (s.rename π).tempBlockResume (env.rename π) k (b.rename π) =
      (s.tempBlockResume env k b).map (Prod.map (Sys.rename π) (renameBlock π)) := by
  cases b with
  | sess b p =>
      refine rename_map_same fun u => ?_
      rw [rename_conn, BlockLocals.rename_sid, Conn.rename_standing, tempBlockSave_rename]
      exact rename_ite (ρ := Prod.map (Sys.rename π) (renameBlock π)) Iff.rfl rfl rfl
  | net b netTtl p =>
      refine rename_map_same fun u => ?_
      rw [tempBlockSave_rename]
      rfl
  | save b req p => exact rename_map_same fun u => rfl

theorem tempBlockEnd_rename (b : BlockLocals) :
    (s.rename π).tempBlockEnd k (b.rename π) = (s.tempBlockEnd k b).rename π := by
  unfold tempBlockEnd
  rw [s.onCore_rename π (f := (·.blockEnd k b)) (s.toCore.blockEnd_rename π k b), send_rename,
    close_rename]
  rfl

theorem startChallenge_rename (r : SessionIdent) (score : ℚ) :
    (s.rename π).startChallenge (env.rename π) k (r.rename π) score =
      ((s.startChallenge env k r score).1.rename π,
        (s.startChallenge env k r score).2.rename π) := by
  unfold startChallenge
  rw [rename_conn,
    SessionIdent.rename_sid, Conn.rename_standing]
  split
  · rfl
  · have hs : ((s.rename π).onCore (·.issue k (r.rename π))).start (.abuse (.challengeIssued
        ((env.rename π).logTag (π r.sid)) ⌊score + 1 / 2⌋) EVENT_RETENTION_MS .pending) =
        ((s.onCore (·.issue k r)).start (.abuse (.challengeIssued (env.logTag r.sid)
          ⌊score + 1 / 2⌋) EVENT_RETENTION_MS .pending)).rename π := by
      rw [s.onCore_rename π (f := (·.issue k r)) (s.toCore.issue_rename π k r)]
      exact start_rename π _ (b := .abuse (.challengeIssued (env.logTag r.sid) ⌊score + 1 / 2⌋)
        EVENT_RETENTION_MS .pending) rfl
    dsimp only
    rw [hs, persist_rename, savePromise_rename]
    rfl

theorem escalate_rename (now : ℤ) : (s.rename π).escalate (env.rename π) k now =
    ((s.escalate env k now).1.rename π, (s.escalate env k now).2.rename π) := by
  unfold escalate
  dsimp only
  rw [rename_conn, Conn.rename_trusted,
    rename_side,
    Side.rename_conduct,
    show (env.rename π).halfPow = env.halfPow from rfl,
    show (env.rename π).provider = env.provider from rfl,
    Conn.rename_record]
  split
  · rfl
  · split
    · rfl
    · cases (s.conn k).record with
      | none => rfl
      | some r =>
          dsimp only [Option.map_some]
          split
          · exact s.startChallenge_rename π k r _
          · split
            · have hb := s.toCore.tempBlock_rename π k r "severe_automation"
              rw [show (s.rename π).toCore = s.toCore.rename π from rfl, hb]
              rfl
            · rfl

theorem escalateResume_rename (e : EscalatePc) :
    (s.rename π).escalateResume (env.rename π) k (e.rename π) =
      (s.escalateResume env k e).map (Prod.map (Sys.rename π) (EscalatePc.rename π)) := by
  cases e with
  | returned => rfl
  | challenge req p =>
      exact rename_map_same fun u => Prod.ext (s.sendChallenge_rename π k true) rfl
  | block b =>
      refine rename_map (s.tempBlockResume_rename π k b) fun r => ?_
      obtain ⟨t, x⟩ := r
      cases x with
      | inl b => rfl
      | inr b => exact Prod.ext (t.tempBlockEnd_rename π k b) rfl

/-! ### Joining -/

theorem checkRoom_rename (i : InstanceId) :
    (s.rename π).checkRoom (env.rename π) i = (s.checkRoom env i).rename π :=
  s.onCore_rename π (s.toCore.checkRoom_rename π i)

theorem updRating_rename (sid : Sid) (q : Rating) (f : Conduct → Conduct) :
    (s.rename π).updSide k (fun d => { d with
      rating := Function.update d.rating (π sid) q
      conduct := f d.conduct }) =
      (s.updSide k fun d => { d with
        rating := Function.update d.rating sid q
        conduct := f d.conduct }).rename π := by
  refine s.updSide_rename π k ?_
  unfold Side.rename
  rw [extend_update]

theorem joinEnter_rename (j : JoinCtx) (r : SessionRecord) (token : Token) :
    (s.rename π).joinEnter (env.rename π) k j (r.rename π) token =
      (s.joinEnter env k j r token).rename π := by
  have hu := s.updRating_rename π k r.sid r.toRating fun c =>
    let persisted := SuspicionScore.value env.halfPow ⟨r.suspicion, r.suspicionAt⟩ j.now
    let current := c.score.value env.halfPow j.now
    let c' : Conduct := if persisted > current then
        { c with score := c.score.add env.halfPow (persisted - current) j.now false }
      else c
    ({ c' with joinedAt := j.now, joinTimer := false } : Conduct).applyTier env j.now
  have he := (congrArg (·.onCore (·.enter k (r.rename π) token)) hu).trans
    (onCore_rename π _ (f := (·.enter k r token)) (Core.enter_rename π _ k r token))
  exact (congrArg (·.suspend k (.join (.history j (r.toSessionIdent.rename π) token (s.roomOf k)
    .pending))) he).trans
      (suspend_rename π _ k (h := .join (.history j r.toSessionIdent token (s.roomOf k) .pending))
        rfl)

theorem joinVerify_rename (verification : Option String) :
    (s.rename π).joinVerify (env.rename π) k verification =
      (s.joinVerify env k verification).rename π := by
  refine rename_ite Iff.rfl ?_ rfl
  cases verification.filter (· ≠ "") with
  | none => exact s.signal_rename π k _
  | some t => exact s.start_rename π rfl

theorem joinWelcome_rename (j : JoinCtx) (r : SessionIdent) (token : Token) (room : DailyRoom)
    (history : List StoredMessage) :
    (s.rename π).joinWelcome (env.rename π) k j (r.rename π) token room
        (history.map (StoredMessage.rename π)) =
      (s.joinWelcome env k j r token room history).rename π := by
  unfold joinWelcome
  dsimp only
  rw [show (s.rename π).announce (env.rename π) k (.welcome (r.rename π) token room
    (history.map (StoredMessage.rename π))) = _ from
      s.announce_rename π k (.welcome r token room history)]
  generalize s.announce env k (.welcome r token room history) = t
  rw [rename_conn,
    SessionIdent.rename_sid, Conn.rename_standing, sendChallenge_rename,
    show (if ((t.conn k).standing r.sid).challengePending = true then
        (t.sendChallenge env k true).rename π else t.rename π) =
      (if ((t.conn k).standing r.sid).challengePending = true then t.sendChallenge env k true
        else t).rename π from rename_ite Iff.rfl rfl rfl,
    joinVerify_rename, persistSoon_rename, finish_rename]

theorem joinResume_rename (p : JoinPc) :
    (s.rename π).joinResume (env.rename π) k (p.rename π) =
      (s.joinResume env k p).map (Sys.rename π) := by
  cases p with
  | resume j token r =>
      refine rename_map (r.resume_rename π) fun x => ?_
      rw [r.room_rename π]
      exact s.onCore_rename π (f := (·.joinResumed k j r.room token x))
        (s.toCore.joinResumed_rename π k j r.room token x)
  | rejoin j record token p =>
      refine rename_map_same fun churn => ?_
      rw [signalIf_rename]
      exact onCore_rename π _ (f := (·.joinCheck k j record token))
        (Core.joinCheck_rename π _ k j record token)
  | newsess j room p =>
      refine rename_map_same fun created => rename_ite Iff.rfl ?_ ?_
      · rw [send_rename, close_rename, finish_rename]
      · dsimp only
        rw [show (env.rename π).config = env.config from rfl, signalIf_rename]
        exact onCore_rename π _ (Core.joinCreate_rename π _ k j room _)
  | create j c =>
      refine rename_map (c.resume_rename π s.draws) fun x => ?_
      exact s.onCore_rename π (f := (·.joinCreated k j x)) (s.toCore.joinCreated_rename π k j x)
  | block j record token p =>
      refine rename_map_same fun ttl => rename_ite Iff.rfl ?_ ?_
      · rw [blocked_rename, finish_rename]
      · exact s.joinEnter_rename π k j record token
  | history j record token room p =>
      refine rename_map (p.orElse_map []) fun history => ?_
      exact s.joinWelcome_rename π k j record token room history

/-! ### Midnight -/

theorem rollover_rename (next : DailyRoom) :
    (s.rename π).rollover (env.rename π) k next = (s.rollover env k next).rename π :=
  s.onCore_rename π (s.toCore.rollover_rename π k next _)

/-- The last part of the renewal: the identity is taken up and announced. -/
theorem rolloverAnnounce_rename (p : RolloverPc) (prev : DailyRoom) (r : SessionRecord)
    (token : Token) : ((s.rename π).onCore (·.rolloverEnter k (s.up k) (p.rename π) prev
      (r.rename π) token)).send k ((s.rename π).announcementFrame (env.rename π) k
        (.reset (r.toSessionIdent.rename π) token p.next)) =
    ((s.onCore (·.rolloverEnter k (s.up k) p prev r token)).send k
      (s.announcementFrame env k (.reset r.toSessionIdent token p.next))).rename π := by
  rw [show (s.rename π).announcementFrame (env.rename π) k
      (.reset (r.toSessionIdent.rename π) token p.next) = _ from
        s.announcementFrame_rename π k (.reset r.toSessionIdent token p.next),
    s.onCore_rename π (f := (·.rolloverEnter k (s.up k) p prev r token))
      (s.toCore.rolloverEnter_rename π k (s.up k) p prev r token), send_rename]

theorem rolloverEnter_rename (p : RolloverPc) (prev : DailyRoom) (r : SessionRecord)
    (token : Token) : (s.rename π).rolloverEnter (env.rename π) k (p.rename π) prev (r.rename π)
      token = (s.rolloverEnter env k p prev r token).rename π := by
  have hu := s.updRating_rename π k r.sid r.toRating fun c =>
    { c with rolledAt := p.now, replies := [], recentOwn := [] }
  have he := (congrArg (fun t : Sys => (t.onCore (·.rolloverEnter k (t.up k) (p.rename π) prev
    (r.rename π) token)).send k (t.announcementFrame (env.rename π) k
      (.reset (r.toSessionIdent.rename π) token p.next))) hu).trans
        (rolloverAnnounce_rename π _ k p prev r token)
  unfold rolloverEnter
  refine rename_ite Iff.rfl ?_ he
  exact (congrArg (·.sendChallenge (env.rename π) k true) he).trans
    (sendChallenge_rename π _ k true)

theorem rolloverResume_rename (prev : DailyRoom) (p : RolloverPc) :
    (s.rename π).rolloverResume (env.rename π) k prev (p.rename π) =
      (s.rolloverResume env k prev p).map (Sys.rename π) := by
  refine rename_map (p.create.resume_rename π s.draws) fun x => ?_
  obtain ⟨x, d⟩ := x
  cases x with
  | wait c =>
      exact onCore_rename π ({ s with draws := d } : Sys)
        (f := (·.setRolling k (some { p with create := c })))
        (Core.setRolling_rename π _ k (some { p with create := c }))
  | done record token =>
      refine rename_ite Iff.rfl ?_ ?_
      · exact onCore_rename π ({ s with draws := d } : Sys) (f := (·.setRolling k none))
          (Core.setRolling_rename π _ k none)
      · exact rolloverEnter_rename π ({ s with draws := d } : Sys) k p prev record token
  | threw =>
      have hs := onCore_rename π ({ s with draws := d } : Sys) (f := (·.setRolling k none))
        (g := (·.setRolling k none)) (Core.setRolling_rename π _ k none)
      exact (congrArg (·.close k Close.tryLater "reset") hs).trans (close_rename π _ k _ _)

end Sys

end methods

end RoomBackend
