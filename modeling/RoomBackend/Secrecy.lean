import RoomBackend.Renamed

/-! # Session ids do not flow to clients

The rest of the methods commute with a renaming of the session ids (`Renaming`), and so does every
step of the system. Frames hold no session id, so that a run and the run with renamed ids, under
the same schedule, hand every socket the same frames. -/

namespace RoomBackend

open Async Day RateLimit Suspicion Lts Expiring

section methods

variable (π : Sid ↪ Sid)

theorem Core.settle_rename (c : Core) {env : Env} (o : Outcome) (verdict : Bool) (th : Thread) :
    (c.rename π).settle (env.rename π) o verdict th =
      (c.settle env o verdict th).map (Core.rename π) := by
  cases th with
  | handler k =>
      refine rename_bind rfl fun h => rename_map (h.settle_rename π) fun r => ?_
      exact Core.suspend_rename π { c with world := r.2 } k rfl
  | rollover k =>
      refine rename_bind rfl fun p => rename_map (p.settle_rename π) fun r => ?_
      exact Core.setRolling_rename π { c with world := r.2 } k (some r.1)
  | reset i => exact rename_bind_same fun p => rename_map (p.settle_rename π) fun r => rfl
  | upgrade n => exact rename_bind_same fun u => rename_map (u.pc.settle_rename π) fun r => rfl
  | task n =>
      refine rename_bind rfl fun b => rename_map (b.settle_rename π) fun r => ?_
      exact congrArg (fun x => ({ c.rename π with world := r.2.rename π, task := x } : Core))
        (Function.comp_update (Option.map (Task.rename π)) c.task n (some r.1)).symm
  | chore n => rfl

namespace Sys

variable (s : Sys) (k : ConnKey) {env : Env}

/-! ### Sending -/

theorem decided_rename (e : SendEvent) (reply : ServerEvent) :
    (s.rename π).decided k e reply = (s.decided k e reply).rename π := s.suspend_rename π k rfl

theorem decideEscalate_rename (l : SendLocals) (site : EscalateSite) :
    (s.rename π).decideEscalate (env.rename π) k (l.rename π) site =
      (s.decideEscalate env k l site).rename π := by
  unfold decideEscalate
  dsimp only
  rw [show (l.rename π).now = l.now from rfl, escalate_rename]
  exact suspend_rename π _ k rfl

theorem decideRate_rename (l : SendLocals) :
    (s.rename π).decideRate (env.rename π) k (l.rename π) =
      (s.decideRate env k l).rename π := by
  unfold decideRate
  refine rename_ite Iff.rfl ?_ ?_
  · refine rename_ite Iff.rfl ?_ ?_
    · rw [updConduct_rename, signal_rename, decideEscalate_rename]
      rfl
    · exact s.decided_rename π k _ _
  · refine rename_ite Iff.rfl ?_ ?_
    · dsimp only
      rw [updConduct_rename, updConduct_rename, signal_rename, decideEscalate_rename]
      rfl
    · rw [updConduct_rename]
      exact suspend_rename π _ k (h := .send (.hit l .pending)) rfl

theorem decideSend_rename (e : SendEvent) (r : SessionIdent) :
    (s.rename π).decideSend (env.rename π) k e (r.rename π) =
      (s.decideSend env k e r).rename π := by
  unfold decideSend
  refine rename_ite Iff.rfl ?_ (rename_ite Iff.rfl ?_ (rename_ite Iff.rfl ?_
    (rename_ite Iff.rfl ?_ (rename_ite Iff.rfl ?_ (rename_ite ?_ ?_ ?_)))))
  · rw [checkRoom_rename, decided_rename]
  · exact s.decided_rename π k _ _
  · exact s.decided_rename π k _ _
  · exact s.decided_rename π k _ _
  · exact s.decided_rename π k _ _
  · rw [rename_conn,
      SessionIdent.rename_sid, Conn.rename_standing]
  · rw [sendChallenge_rename, decided_rename]
  · rw [show (env.rename π).normalizeText = env.normalizeText from rfl,
      show (env.rename π).config = env.config from rfl,
      show (s.rename π).world.journal.length = s.world.journal.length from
        s.toCore.journal_length_rename π]
    cases env.normalizeText e.text env.config.maxMessageLength env.config.maxMessageLines with
    | error reason => exact s.decided_rename π k _ _
    | ok text =>
        exact s.decideRate_rename π k
          { event := e, now := s.clock, record := r, text := text
            resets := (s.srv k.inst).resets, mark := s.world.journal.length }

theorem decideSignals_rename (l : SendLocals) :
    (s.rename π).decideSignals (env.rename π) k (l.rename π) =
      (s.decideSignals env k l).rename π := by
  unfold decideSignals
  dsimp only
  rw [updConduct_rename, signalIf_rename, signalIf_rename, updConduct_rename, signalIf_rename,
    updConduct_rename]
  rfl

theorem decideAccept_rename (l : SendLocals) :
    (s.rename π).decideAccept (env.rename π) k (l.rename π) = (s.decideAccept env k l).rename π :=
  s.onCore_rename π (s.toCore.draw.suspend_rename π k rfl)

theorem handleSend_rename (e : SendEvent) :
    (s.rename π).handleSend (env.rename π) k e = (s.handleSend env k e).rename π := by
  unfold handleSend
  dsimp only
  rw [rename_conn, Conn.rename_record,
    show ((s.conn k).rename π).joined = (s.conn k).joined from rfl,
    rename_side,
    Side.rename_conduct]
  cases (s.conn k).record with
  | none =>
      dsimp only [Option.map_none]
      rw [signal_rename, send_rename, finish_rename]
  | some r =>
      dsimp only [Option.map_some]
      refine rename_ite Iff.rfl ?_ ?_
      · rw [signal_rename, send_rename, finish_rename]
      · cases (s.side k).conduct.replies.find? fun p => p.1 = e.clientId with
        | some prior =>
            dsimp only
            rw [send_rename, finish_rename]
        | none =>
            dsimp only
            rw [s.onCore_rename π (f := (·.observe (.deciding k (s.conn k).handled e)))
              (s.toCore.observe_rename π (.deciding k (s.conn k).handled e)), decideSend_rename]

theorem handleSendReply_rename (e : SendEvent) (reply : ServerEvent) :
    (s.rename π).handleSendReply k e reply = (s.handleSendReply k e reply).rename π := by
  unfold handleSendReply
  dsimp only
  have h : (if (s.rename π).up k = true then
      (s.rename π).onCore (·.observe (.replied k ((s.rename π).conn k).handled reply))
      else s.rename π) = Sys.rename π (if s.up k = true then
        s.onCore (·.observe (.replied k (s.conn k).handled reply)) else s) :=
    rename_ite Iff.rfl (s.onCore_rename π (s.toCore.observe_rename π
      (.replied k (s.conn k).handled reply))) rfl
  rw [h, updConduct_rename, send_rename, finish_rename]

theorem sendResume_rename (p : SendPc) :
    (s.rename π).sendResume (env.rename π) k (p.rename π) =
      (s.sendResume env k p).map (Sys.rename π) := by
  cases p with
  | hit l p =>
      refine rename_map_same fun netCount => rename_ite Iff.rfl ?_ ?_
      · rw [signal_rename, decided_rename]
        rfl
      · dsimp only
        rw [decideSignals_rename]
        refine rename_ite Iff.rfl ?_ ?_
        · exact suspend_rename π _ k (h := .send (.dup l .pending)) rfl
        · exact decideEscalate_rename π _ k l .accept
  | dup l p =>
      refine rename_map_same fun senders => ?_
      rw [signalIf_rename, decideEscalate_rename]
  | escalate l site e =>
      cases e with
      | returned reason =>
          cases reason with
          | some reason => exact congrArg some (s.decided_rename π k _ _)
          | none =>
              cases site with
              | limited => exact congrArg some (s.decided_rename π k _ _)
              | accept => exact congrArg some (s.decideAccept_rename π k l)
      | challenge req p =>
          refine rename_map (s.escalateResume_rename π k (.challenge req p)) fun r => ?_
          exact suspend_rename π _ k (h := .send (.escalate l site r.2)) rfl
      | block b =>
          refine rename_map (s.escalateResume_rename π k (.block b)) fun r => ?_
          exact suspend_rename π _ k (h := .send (.escalate l site r.2)) rfl
  | append l room m p =>
      cases p with
      | pending => rfl
      | rejected => exact congrArg some (s.decided_rename π k _ _)
      | fulfilled a => exact congrArg some (s.suspend_rename π k rfl)
  | publish l room m p =>
      cases p with
      | pending => rfl
      | rejected => exact congrArg some (s.decided_rename π k _ _)
      | fulfilled a => exact congrArg some (s.decided_rename π k _ _)
  | reply e reply => exact congrArg some (s.handleSendReply_rename π k e reply)

/-! ### Challenges and reports -/

theorem challengeResponse_rename (token : String) :
    (s.rename π).challengeResponse k token = (s.challengeResponse k token).rename π := by
  unfold challengeResponse
  dsimp only
  rw [rename_conn,
    Conn.rename_record]
  cases (s.conn k).record with
  | none => exact s.finish_rename π k
  | some r =>
      dsimp only [Option.map_some]
      rw [SessionIdent.rename_sid, Conn.rename_standing]
      refine rename_ite Iff.rfl (s.finish_rename π k) (rename_ite Iff.rfl (s.finish_rename π k) ?_)
      rw [updConduct_rename]
      exact suspend_rename π _ k (h := .challenge (.verify token r s.clock .pending)) rfl

theorem challengePassed_rename (r : SessionIdent) (now : ℤ) :
    (s.rename π).challengePassed (env.rename π) k (r.rename π) now =
      (s.challengePassed env k r now).rename π := by
  unfold challengePassed
  dsimp only
  rw [s.onCore_rename π (f := (·.pass k r (now + TRUST_WINDOW_MS)))
      (s.toCore.pass_rename π k r _), updConduct_rename]
  rw [show (env.rename π) = Env.rename π env from rfl, persist_rename, savePromise_rename]
  exact suspend_rename π _ k rfl

theorem challengeFailed_rename (r : SessionIdent) :
    (s.rename π).challengeFailed (env.rename π) k (r.rename π) =
      (s.challengeFailed env k r).rename π := by
  unfold challengeFailed
  dsimp only
  rw [s.onCore_rename π (f := (·.fail k r)) (s.toCore.fail_rename π k r), send_rename]
  generalize (s.onCore (·.fail k r)).send k (.challengeResult false) = t
  rw [rename_conn,
    SessionIdent.rename_sid, Conn.rename_standing]
  refine rename_ite Iff.rfl ?_ ?_
  · rw [Conn.rename_record]
    cases (t.conn k).record with
    | none => exact t.finish_rename π k
    | some r =>
        dsimp only [Option.map_some]
        rw [show (t.rename π).toCore = t.toCore.rename π from rfl, Core.tempBlock_rename]
        exact t.onCore_rename π (f := fun _ => (t.toCore.tempBlock k r "challenge_failed").1.suspend
          k (.challenge (.block (t.toCore.tempBlock k r "challenge_failed").2)))
          (Core.suspend_rename π _ k rfl)
  · rw [persist_rename, savePromise_rename]
    exact suspend_rename π _ k rfl

theorem challengeResume_rename (p : ChallengePc) :
    (s.rename π).challengeResume (env.rename π) k (p.rename π) =
      (s.challengeResume env k p).map (Sys.rename π) := by
  cases p with
  | verify token r now p =>
      refine rename_map_same fun ok => rename_ite Iff.rfl (s.finish_rename π k) ?_
      exact rename_ite Iff.rfl (s.challengePassed_rename π k r now) (s.challengeFailed_rename π k r)
  | passed req p =>
      refine rename_map_same fun u => ?_
      rw [send_rename, finish_rename]
  | failed req p => exact rename_map_same fun u => s.finish_rename π k
  | block b =>
      refine rename_map (s.tempBlockResume_rename π k b) fun r => ?_
      obtain ⟨t, x⟩ := r
      cases x with
      | inl b => exact suspend_rename π t k rfl
      | inr b =>
          show ((t.rename π).tempBlockEnd k (b.rename π)).finish k = _
          rw [tempBlockEnd_rename, finish_rename]

theorem report_rename (id : MsgId) (reason : String) :
    (s.rename π).report k id reason = (s.report k id reason).rename π := by
  unfold report
  rw [rename_conn, Conn.rename_record]
  cases (s.conn k).record with
  | none => exact s.finish_rename π k
  | some r => exact s.suspend_rename π k rfl

theorem reportResume_rename (p : ReportPc) :
    (s.rename π).reportResume (env.rename π) k (p.rename π) =
      (s.reportResume env k p).map (Sys.rename π) := by
  cases p with
  | hit r id reason p =>
      refine rename_map_same fun n => rename_ite Iff.rfl ?_ ?_
      · rw [send_rename, finish_rename]
      · exact s.suspend_rename π k rfl
  | recent r id reason roomId p =>
      refine rename_map (p.orElse_map []) fun recent => ?_
      have hf : (recent.map (StoredMessage.rename π)).find? (fun m => m.id = id) =
          (recent.find? fun m => m.id = id).map (StoredMessage.rename π) := List.find?_map ..
      rw [hf]
      cases recent.find? fun m => m.id = id with
      | none =>
          dsimp only [Option.map_none]
          rw [send_rename, finish_rename]
      | some m => exact s.suspend_rename π k rfl
  | event id e p =>
      cases p with
      | pending => rfl
      | rejected => exact congrArg some (s.finish_rename π k)
      | fulfilled a =>
          refine congrArg some ?_
          rw [send_rename, finish_rename]

/-! ### Frames -/

theorem ping_rename (t : ℤ) : (s.rename π).ping (env.rename π) k t = (s.ping env k t).rename π := by
  unfold ping
  dsimp only
  rw [updConduct_rename, signalIf_rename]
  exact (congrArg (fun t : Sys => t.finish k)
    (rename_ite Iff.rfl rfl (send_rename π _ k _))).trans (finish_rename π _ k)

theorem invalid_rename (binary : Bool) :
    (s.rename π).invalid (env.rename π) k binary = (s.invalid env k binary).rename π := by
  unfold invalid
  dsimp only
  rw [updConduct_rename, signal_rename, send_rename]
  refine rename_ite Iff.rfl ?_ rfl
  exact close_rename π _ k _ _

theorem queued_rename : (s.rename π).queued k = s.queued k := by
  unfold queued
  rw [show ((s.rename π).conn k).handler = (s.conn k).handler.map (Handler.rename π) from rfl,
    Option.isSome_map]
  rfl

theorem onFrame_rename (raw : Raw) :
    (s.rename π).onFrame (env.rename π) k raw = (s.onFrame env k raw).rename π := by
  unfold onFrame
  dsimp only
  rw [updConduct_rename, show (s.rename π).clock = s.clock from rfl]
  generalize (s.updConduct k fun c => { c with lastFrameAt := s.clock, alive := true }) = t
  refine rename_ite Iff.rfl (t.invalid_rename π k true) ?_
  rw [queued_rename]
  refine rename_ite Iff.rfl (rename_ite Iff.rfl ?_ rfl) (t.updSide_rename π k rfl)
  rw [updConduct_rename, signal_rename]

theorem handle_rename (raw : Raw) :
    (s.rename π).handle (env.rename π) k raw = (s.handle env k raw).rename π := by
  unfold handle
  refine rename_ite Iff.rfl (s.finish_rename π k) ?_
  cases raw with
  | binary =>
      dsimp only
      rw [invalid_rename, finish_rename]
  | notJson =>
      dsimp only
      rw [invalid_rename, finish_rename]
  | notEvent =>
      dsimp only
      rw [invalid_rename, finish_rename]
  | event e =>
      cases e with
      | join resume verification =>
          exact s.onCore_rename π (f := (·.join k resume verification))
            (s.toCore.join_rename π k resume verification)
      | send e => exact s.handleSend_rename π k e
      | challengeResponse token => exact s.challengeResponse_rename π k token
      | ping t => exact s.ping_rename π k t
      | report id reason => exact s.report_rename π k id reason

theorem handlerResume_rename (h : Handler) :
    (s.rename π).handlerResume (env.rename π) k (h.rename π) =
      (s.handlerResume env k h).map (Sys.rename π) := by
  cases h with
  | join p => exact s.joinResume_rename π k p
  | send p => exact s.sendResume_rename π k p
  | challenge p => exact s.challengeResume_rename π k p
  | report p => exact s.reportResume_rename π k p

theorem onPong_rename : (s.rename π).onPong k = (s.onPong k).rename π := s.updConduct_rename π k _

theorem heartbeat_rename : (s.rename π).heartbeat k = (s.heartbeat k).rename π :=
  rename_ite Iff.rfl (s.terminate_rename π k) (s.updConduct_rename π k _)

/-! ### The room server -/

/-- A loop over connections whose body commutes with the renaming. -/
theorem forConns_rename {i : InstanceId} {f g : ConnKey → Sys → Sys}
    (h : ∀ k t, g k (Sys.rename π t) = (f k t).rename π) (ns : List ℕ) :
    (s.rename π).forConns i g ns = (s.forConns i f ns).rename π := by
  induction ns generalizing s with
  | nil => rfl
  | cons n ns ih =>
      show (g ⟨i, n⟩ (s.rename π)).forConns i g ns = _
      rw [h]
      exact ih (f ⟨i, n⟩ s)

theorem accept_rename (i : InstanceId) (info : AdmitInfo) :
    (s.rename π).accept (env.rename π) i info = (s.accept env i info).rename π := by
  unfold accept
  dsimp only
  have hn : ((s.onCore (·.accept i info)).rename π).updSide ⟨i, (s.srv i).seq + 1⟩
      (fun _ => Side.new s.clock) = ((s.onCore (·.accept i info)).updSide ⟨i, (s.srv i).seq + 1⟩
        fun _ => Side.new s.clock).rename π := by
    exact updSide_rename π _ _ (Side.rename_unrated π rfl).symm
  rw [s.onCore_rename π (f := (·.accept i info)) (s.toCore.accept_rename π i info),
    show (s.rename π).clock = s.clock from rfl, show (s.rename π).srv i = s.srv i from rfl, hn,
    signalIf_rename, signalIf_rename]

theorem upgradeResume_rename (n : ℕ) (u : Upgrade) :
    (s.rename π).upgradeResume (env.rename π) n u =
      (s.upgradeResume env n u).map (Sys.rename π) := by
  refine rename_map_same fun pc => rename_ite Iff.rfl ?_ rfl
  exact accept_rename π (s.onCore (·.setUpgrade n { u with pc := pc })) u.inst u.info

theorem onClose_rename :
    (s.rename π).onClose (env.rename π) k = (s.onClose env k).rename π := by
  refine rename_ite Iff.rfl rfl ?_
  dsimp only
  rw [s.onCore_rename π (f := (·.updConn k fun x => { x with closed := true }))
      (s.toCore.updConn_rename π k (f := fun x => { x with closed := true }) rfl),
    updConduct_rename, persistDetached_rename]
  exact onCore_rename π _ (Core.onClosed_rename π _ k)

theorem closeEvent_rename :
    (s.rename π).closeEvent (env.rename π) k = (s.closeEvent env k).rename π := by
  unfold closeEvent
  rw [updSocket_rename, onClose_rename]

theorem joinTimeout_rename : (s.rename π).joinTimeout k = (s.joinTimeout k).rename π := by
  unfold joinTimeout
  dsimp only
  rw [updConduct_rename]
  exact rename_ite Iff.rfl rfl (close_rename π _ k _ _)

theorem persistTimeout_rename :
    (s.rename π).persistTimeout (env.rename π) k = (s.persistTimeout env k).rename π := by
  unfold persistTimeout
  rw [updConduct_rename, persistDetached_rename]

/-- A kick compares session ids: the renaming is injective. -/
theorem onBus_rename (i : InstanceId) (e : BusEvent) :
    (s.rename π).onBus i (e.rename π) = (s.onBus i e).rename π := by
  cases e with
  | message m =>
      exact s.onCore_rename π (f := (·.onMessage i m)) (g := (·.onMessage i m))
        (s.toCore.onMessage_rename π i m)
  | kick origin sid reason =>
      dsimp only [BusEvent.rename, onBus]
      refine s.forConns_rename π (fun k t => ?_) _
      refine rename_ite ?_ (t.blocked_rename π k _ _) rfl
      rw [rename_conn, Conn.rename_record]
      cases (t.conn k).record with
      | none => exact Iff.rfl
      | some r =>
          show decide (π r.sid = π sid) = true ↔ decide (r.sid = sid) = true
          rw [decide_eq_true_eq, decide_eq_true_eq, π.injective.eq_iff]

theorem flushOutbox_rename (i : InstanceId) :
    (s.rename π).flushOutbox i = (s.flushOutbox i).rename π := by
  unfold flushOutbox
  dsimp only
  rw [s.onCore_rename π (f := (·.flushOutbox i)) (s.toCore.flushOutbox_rename π i)]
  refine rename_ite Iff.rfl rfl ?_
  refine forConns_rename π (s.onCore (·.flushOutbox i)) (fun k t => ?_) _
  refine rename_ite ?_ ?_ rfl
  · rw [show (t.rename π).receives i k = t.receives i k from t.toCore.receives_rename π k i]
  · rw [show (s.rename π).batch i = s.batch i from rfl]
    cases flushFrame (s.batch i) k with
    | none => rfl
    | some e => exact t.send_rename π k e

theorem broadcastLocal_rename (i : InstanceId) (e : ServerEvent) :
    (s.rename π).broadcastLocal i e = (s.broadcastLocal i e).rename π :=
  s.forConns_rename π (g := fun k t => if (t.conn k).joined then t.send k e else t)
    (fun k t => rename_ite Iff.rfl (t.send_rename π k e) rfl) _

theorem heartbeats_rename (i : InstanceId) :
    (s.rename π).heartbeats i = (s.heartbeats i).rename π :=
  s.forConns_rename π (fun k t => t.heartbeat_rename π k) _

theorem refreshPresence_rename (i : InstanceId) :
    (s.rename π).refreshPresence i = (s.refreshPresence i).rename π := s.start_rename π rfl

theorem presenceTotal_rename (i : InstanceId) (total : ℤ) :
    (s.rename π).presenceTotal i total = (s.presenceTotal i total).rename π := by
  refine rename_ite Iff.rfl ?_ rfl
  exact broadcastLocal_rename π
    ({ s with desk := Function.update s.desk i { s.desk i with online := total } } : Sys) i _

theorem resetBatches_rename (i : InstanceId) (prev next : DailyRoom) (rest : List ℕ) :
    (s.rename π).resetBatches (env.rename π) i prev next rest =
      (s.resetBatches env i prev next rest).rename π := by
  refine rename_ite Iff.rfl rfl ?_
  dsimp only
  rw [s.forConns_rename π (f := fun k t => t.rollover env k next)
    (fun k t => t.rollover_rename π k next)]
  rfl

theorem resetLive_rename (i : InstanceId) (prev next : DailyRoom) :
    (s.rename π).resetLive (env.rename π) i prev next = (s.resetLive env i prev next).rename π :=
  s.resetBatches_rename π i prev next _

theorem resetResume_rename (i : InstanceId) (p : RollingPc) :
    (s.rename π).resetResume (env.rename π) i p =
      (s.resetResume env i p).map (Sys.rename π) := by
  cases p with
  | acquire prev next p =>
      cases p with
      | pending => rfl
      | rejected => exact congrArg some (s.resetLive_rename π i prev next)
      | fulfilled b =>
          cases b with
          | true => rfl
          | false => exact congrArg some (s.resetLive_rename π i prev next)
  | cleanup prev next p =>
      cases p with
      | pending => rfl
      | rejected => exact congrArg some (s.resetLive_rename π i prev next)
      | fulfilled => rfl
  | log prev next p => exact rename_map_same fun u => s.resetLive_rename π i prev next
  | batch prev next current rest =>
      show (if (s.rename π).batchDone i current = true then _ else _) = _
      rw [show (s.rename π).batchDone i current = s.batchDone i current from
        s.toCore.batchDone_rename π i current]
      exact rename_ite (ρ := Option.map (Sys.rename π)) Iff.rfl rfl rfl
  | breathe prev next rest => exact congrArg some (s.resetBatches_rename π i prev next rest)

theorem stop_rename (i : InstanceId) : (s.rename π).stop i = (s.stop i).rename π :=
  rename_ite Iff.rfl rfl
    (start_rename π (s.onCore (·.updSrv i fun v => { v with shuttingDown := true }))
      (b := .removePresence i .pending) rfl)

theorem drain_rename : (s.rename π).drain k = (s.drain k).rename π :=
  close_rename π ({ s with
    desk := Function.update s.desk k.inst
      { s.desk k.inst with draining := (s.desk k.inst).draining.erase k.seq } } : Sys) k _ _

theorem stopEnd_rename (i : InstanceId) : (s.rename π).stopEnd i = (s.stopEnd i).rename π := by
  unfold stopEnd
  rw [show (s.rename π).srv i = s.srv i from rfl,
    s.forConns_rename π (f := fun k t => t.terminate k) fun k t => t.terminate_rename π k]
  rfl

/-! ### Admin requests and detached work -/

theorem adminTarget_rename (i : InstanceId) (b : BlockReq) (sid : Option Sid) :
    (s.rename π).adminTarget i b (sid.map π) = (s.adminTarget i b sid).map (AdminPc.rename π) := by
  cases sid with
  | some sid => rfl
  | none =>
      show (if b.messageId.isSome = true then _ else _) = Option.map _ (if _ then _ else _)
      split <;> rfl

theorem adminBlock_rename (i : InstanceId) (b : BlockReq) :
    (s.rename π).adminBlock i b = (s.adminBlock i b).map (AdminPc.rename π) := by
  unfold adminBlock
  cases b.publicName with
  | some name => rfl
  | none => exact s.adminTarget_rename π i b none

theorem adminResume_rename (i : InstanceId) (a : AdminPc) :
    (s.rename π).adminResume i (a.rename π) =
      (s.adminResume i a).map (Option.map (AdminPc.rename π)) := by
  cases a with
  | owner b name roomId p =>
      cases p with
      | fulfilled sid => exact congrArg some (s.adminTarget_rename π i b sid)
      | _ => rfl
  | recent b roomId p =>
      cases p with
      | pending => rfl
      | rejected => rfl
      | fulfilled recent =>
          have hf : (recent.map (StoredMessage.rename π)).find? (fun m => some m.id = b.messageId) =
              (recent.find? fun m => some m.id = b.messageId).map (StoredMessage.rename π) :=
            List.find?_map ..
          refine congrArg some ?_
          rw [hf]
          cases recent.find? fun m => some m.id = b.messageId <;> rfl
  | block b sid p => cases p <;> rfl
  | kick b sid p => cases p <;> rfl
  | log b sid p => cases p <;> rfl
  | unblockOwner name roomId p =>
      cases p with
      | fulfilled sid => cases sid <;> rfl
      | _ => rfl
  | unblock sid p => cases p <;> rfl

theorem updTask_rename (n : ℕ) (b : Option Task) :
    (s.rename π).onCore (fun c =>
      { c with task := Function.update c.task n (b.map (Task.rename π)) }) =
      (s.onCore fun c => { c with task := Function.update c.task n b }).rename π :=
  s.onCore_rename π (congrArg (fun x => ({ s.toCore.rename π with task := x } : Core))
    (Function.comp_update (Option.map (Task.rename π)) s.task n b).symm)

theorem taskResume_rename (n : ℕ) (b : Task) :
    (s.rename π).taskResume n (b.rename π) = (s.taskResume n b).map (Sys.rename π) := by
  cases b with
  | persist k req p => exact rename_map_same fun u => s.updTask_rename π n none
  | admin i a =>
      refine rename_map (s.adminResume_rename π i a) fun a => ?_
      exact Eq.trans (by cases a <;> rfl) (s.updTask_rename π n (a.map (.admin i)))

theorem updChore_rename (n : ℕ) (b : Option Chore) :
    ({ s.rename π with chore := Function.update (s.rename π).chore n (b.map (Chore.rename π)) } :
      Sys) = Sys.rename π { s with chore := Function.update s.chore n b } :=
  congrArg (fun x => ({ s.rename π with chore := x } : Sys))
    (Function.comp_update (Option.map (Chore.rename π)) s.chore n b).symm

theorem choreDone_rename (n : ℕ) : (s.rename π).choreDone n = (s.choreDone n).rename π :=
  s.updChore_rename π n none

theorem choreResume_rename (n : ℕ) (b : Chore) :
    (s.rename π).choreResume (env.rename π) n (b.rename π) =
      (s.choreResume env n b).map (Sys.rename π) := by
  cases b with
  | verify k token p =>
      cases p with
      | pending => rfl
      | rejected => exact congrArg some (s.choreDone_rename π n)
      | fulfilled b =>
          cases b with
          | true =>
              refine congrArg some ?_
              rw [choreDone_rename]
              exact updConduct_rename π _ k _
          | false =>
              refine congrArg some ?_
              rw [choreDone_rename, signal_rename]
  | abuse e retentionMs p => exact rename_map_same fun u => s.choreDone_rename π n
  | reportPresence i now count p =>
      cases p with
      | pending => rfl
      | rejected => exact congrArg some (s.choreDone_rename π n)
      | fulfilled =>
          exact congrArg some (s.updChore_rename π n (some (.totalPresence i now .pending)))
  | totalPresence i now p =>
      cases p with
      | pending => rfl
      | rejected => exact congrArg some (s.choreDone_rename π n)
      | fulfilled total =>
          refine congrArg some ?_
          rw [choreDone_rename, presenceTotal_rename]
  | removePresence i p =>
      refine rename_map_same fun u => ?_
      rw [choreDone_rename]
      rfl

/-! ### Steps -/

theorem settle_rename (o : Outcome) (verdict : Bool) (th : Thread) :
    (s.rename π).settle (env.rename π) o verdict th =
      (s.settle env o verdict th).map (Sys.rename π) := by
  cases th with
  | chore n =>
      refine rename_bind rfl fun b => rename_map (b.settle_rename π) fun r => ?_
      exact updChore_rename π ({ s with world := r.2 } : Sys) n (some r.1)
  | handler k => exact rename_map (s.toCore.settle_rename π o verdict _) fun c => rfl
  | rollover k => exact rename_map (s.toCore.settle_rename π o verdict _) fun c => rfl
  | reset i => exact rename_map (s.toCore.settle_rename π o verdict _) fun c => rfl
  | upgrade n => exact rename_map (s.toCore.settle_rename π o verdict _) fun c => rfl
  | task n => exact rename_map (s.toCore.settle_rename π o verdict _) fun c => rfl

theorem resume_rename (th : Thread) :
    (s.rename π).resume (env.rename π) th = (s.resume env th).map (Sys.rename π) := by
  cases th with
  | handler k => exact rename_bind rfl fun h => s.handlerResume_rename π k h
  | rollover k => exact rename_bind rfl fun p => s.rolloverResume_rename π k _ p
  | reset i => exact rename_bind_same fun p => s.resetResume_rename π i p
  | upgrade n => exact rename_bind_same fun u => s.upgradeResume_rename π n u
  | task n => exact rename_bind rfl fun b => s.taskResume_rename π n b
  | chore n => exact rename_bind rfl fun b => s.choreResume_rename π n b

theorem handleNext_rename :
    (s.rename π).handleNext (env.rename π) k = (s.handleNext env k).map (Sys.rename π) := by
  unfold handleNext
  rw [show ((s.rename π).conn k).handler = (s.conn k).handler.map (Handler.rename π) from rfl,
    show ((s.rename π).side k).queue = (s.side k).queue from rfl]
  cases (s.conn k).handler with
  | some h => rfl
  | none =>
      cases (s.side k).queue with
      | nil => rfl
      | cons raw rest =>
          refine congrArg some ?_
          have hq : ((s.onCore (·.take k)).rename π).updSide k (fun d => { d with queue := rest }) =
              ((s.onCore (·.take k)).updSide k fun d => { d with queue := rest }).rename π :=
            updSide_rename π _ k rfl
          rw [s.onCore_rename π (f := (·.take k)) (g := (·.take k))
            (s.toCore.updConn_rename π k rfl), hq, handle_rename]

theorem deliver_rename (n : ℕ) :
    (s.rename π).deliver n = (s.deliver n).map (Sys.rename π) := by
  refine rename_map List.getElem?_map fun e => ?_
  have hf : (s.rename π).onCore (fun c =>
      { c with world := { c.world with inFlight := c.world.inFlight.eraseIdx n } }) =
      (s.onCore fun c =>
        { c with world := { c.world with inFlight := c.world.inFlight.eraseIdx n } }).rename π :=
    s.onCore_rename π (congrArg (fun x => ({ s.toCore.rename π with
      world := { s.world.rename π with inFlight := x } } : Core)) (List.eraseIdx_map ..))
  rw [hf]
  exact onBus_rename π _ e.1 e.2

/-- What happens only under a condition, renamed. -/
theorem guard_rename {p : Prop} [Decidable p] {t t' : Sys} (h : t' = t.rename π) :
    (if p then some t' else none) = (if p then some t else none).map (Sys.rename π) :=
  rename_ite Iff.rfl (congrArg some h) rfl

/-- A step of the renamed state, in the renamed environment, is the renamed step. -/
theorem step_rename (l : Label) :
    (s.rename π).step (env.rename π) l = (s.step env l).map (Sys.rename π) := by
  cases l with
  | clock t => exact guard_rename π rfl
  | start i =>
      refine rename_ite Iff.rfl rfl (congrArg some ?_)
      exact refreshPresence_rename π (s.onCore (·.start env i)) i
  | upgrade i req =>
      exact guard_rename π (s.onCore_rename π (f := (·.onUpgrade env i req))
        (s.toCore.onUpgrade_rename π i req))
  | destroyed n => exact rename_map_same fun u => rfl
  | settle th o verdict => exact s.settle_rename π o verdict th
  | resume th => exact s.resume_rename π th
  | frame k raw => exact rename_ite Iff.rfl rfl (congrArg some (s.onFrame_rename π k raw))
  | handle k => exact rename_ite Iff.rfl (s.handleNext_rename π k) rfl
  | pong k => exact rename_ite Iff.rfl rfl (congrArg some (s.onPong_rename π k))
  | peerClosing k => exact guard_rename π (s.updSocket_rename π k _)
  | closeEvent k => exact rename_ite Iff.rfl rfl (congrArg some (s.closeEvent_rename π k))
  | slow k b => exact congrArg some (s.updSocket_rename π k _)
  | joinTimeout k => exact guard_rename π (s.joinTimeout_rename π k)
  | persistTimeout k => exact guard_rename π (s.persistTimeout_rename π k)
  | tick i => exact guard_rename π (s.checkRoom_rename π i)
  | heartbeat i => exact guard_rename π (s.heartbeats_rename π i)
  | presence i => exact guard_rename π (s.refreshPresence_rename π i)
  | flush i => exact guard_rename π (s.flushOutbox_rename π i)
  | deliver n => exact s.deliver_rename π n
  | stop i => exact guard_rename π (s.stop_rename π i)
  | drain k => exact guard_rename π (s.drain_rename π k)
  | stopEnd i => exact guard_rename π (s.stopEnd_rename π i)
  | adminBlock i b =>
      refine rename_ite Iff.rfl (rename_map (s.adminBlock_rename π i b) fun a => ?_) rfl
      exact s.onCore_rename π (s.toCore.spawn_rename π (.admin i a))
  | adminUnblock i name =>
      exact guard_rename π (s.onCore_rename π (s.toCore.spawn_rename π
        (.admin i (.unblockOwner name (s.srv i).room.roomId .pending))))

/-- The initial state holds no session id. -/
theorem initial_rename (t : ℤ) : (Sys.initial t).rename π = Sys.initial t := by
  unfold Sys.initial Sys.rename Core.rename World.rename
  simp only [Conn.rename_unborn, Store.rename_empty, List.map_nil, Option.map_none]
  rw [extend_const, Side.rename_unrated π rfl]

end Sys

end methods

/-! ### Runs -/

/-- The environment with other session ids. -/
def Env.renamed (env : Env) (f : Sid → Sid) (hf : Set.InjOn f (Set.range env.newSessionId)) : Env :=
  { env with
    newSessionId := fun d => f (env.newSessionId d)
    newSessionId_injective := fun a b h => env.newSessionId_injective (hf ⟨a, rfl⟩ ⟨b, rfl⟩ h) }

/-- The environment whose session ids are the numbers of their draws. -/
def Env.numbered (env : Env) : Env :=
  { env with newSessionId := id, newSessionId_injective := Function.injective_id }

/-- The session ids of an environment, by the number of the draw. -/
def Env.ids (env : Env) : Sid ↪ Sid := ⟨env.newSessionId, env.newSessionId_injective⟩

/-- Without log tags, an environment is the numbered one with its session ids. -/
theorem Env.numbered_rename (env : Env) :
    env.numbered.rename env.ids = env.rename (same Sid) := rfl

theorem system_rename (π : Sid ↪ Sid) (env : Env) (s : Sys) (l : Label) :
    (system (env.rename π)).step (s.rename π) l = ((system env).step s l).map (Sys.rename π) :=
  s.step_rename π l

/-- A run is, without its session ids and log tags, a run of the numbered environment. -/
theorem numbered_of_run {env : Env} {t : ℤ} {ls : List Label} {s : Sys}
    (h : (system env).Run Free (Sys.initial t) ls s) :
    ∃ u, (system env.numbered).Run Free (Sys.initial t) ls u ∧
      ∀ k, (u.side k).socket = (s.side k).socket := by
  have hr := h.map (system_rename (same Sid) env)
  rw [← env.numbered_rename, Sys.initial_rename, ← Sys.initial_rename env.ids t] at hr
  obtain ⟨u, hu, he⟩ := hr.of_map (system_rename env.ids env.numbered)
  refine ⟨u, hu, fun k => ?_⟩
  have hk := congrArg (fun v : Sys => (v.side k).socket) he
  exact hk.symm

/-- And a run of the numbered environment is one with any session ids. -/
theorem run_of_numbered (env : Env) {t : ℤ} {ls : List Label} {u : Sys}
    (h : (system env.numbered).Run Free (Sys.initial t) ls u) :
    ∃ s, (system env).Run Free (Sys.initial t) ls s ∧
      ∀ k, (s.side k).socket = (u.side k).socket := by
  have hr := h.map (system_rename env.ids env.numbered)
  rw [env.numbered_rename, Sys.initial_rename, ← Sys.initial_rename (same Sid) t] at hr
  obtain ⟨s, hs, he⟩ := hr.of_map (system_rename (same Sid) env)
  refine ⟨s, hs, fun k => ?_⟩
  have hk := congrArg (fun v : Sys => (v.side k).socket) he
  exact hk.symm

/-- **Session ids do not flow to clients.** Rename the session ids of a run, injectively on the
ids that are generated. The same schedule is then a run with the renamed ids, and every run of it
hands every socket the frames, in order, and the close frame that the given one does. -/
theorem frames_renamed {env : Env} {f : Sid → Sid}
    (hf : Set.InjOn f (Set.range env.newSessionId)) {t : ℤ} {ls : List Label} {s : Sys}
    (h : (system env).Run Free (Sys.initial t) ls s) :
    (∃ u, (system (env.renamed f hf)).Run Free (Sys.initial t) ls u) ∧
    ∀ u, (system (env.renamed f hf)).Run Free (Sys.initial t) ls u →
      ∀ k, (u.side k).socket = (s.side k).socket := by
  obtain ⟨v, hv, hs⟩ := numbered_of_run h
  obtain ⟨w, hw, hw'⟩ := run_of_numbered (env.renamed f hf) hv
  refine ⟨⟨w, hw⟩, fun u hu k => ?_⟩
  rw [hu.unique hw, hw', hs]

namespace Demo

/-- Distinct session ids, seven apart from the numbers of the draws. -/
theorem shift_injOn : Set.InjOn (· + 7) (Set.range (env none).newSessionId) :=
  (add_left_injective 7).injOn

/-- The deployment with these session ids. -/
def shifted : Env := (env none).renamed (· + 7) shift_injOn

/-- The session a connection holds. -/
def sessionOf (s : Sys) (k : ConnKey) : Option Sid := (s.conn k).record.map (·.sid)

end Demo

/-- A client joins and sends a text: with other session ids its session is another one, and its
socket is handed the same frames, the welcome and the acknowledgement. -/
theorem frames_renamed_hello : ∃ s u : Sys,
    Demo.sessionOf s (Demo.conn 1) = some 0 ∧ Demo.sessionOf u (Demo.conn 1) = some 7 ∧
    (s.side (Demo.conn 1)).socket.sent.length = 2 ∧
    (u.side (Demo.conn 1)).socket = (s.side (Demo.conn 1)).socket := by
  have hs : ((system (Demo.env none)).execs (fun _ _ => true) (Sys.initial Demo.noon)
      (Demo.oneJoined ++ Demo.sent (Demo.conn 1) "hello")).any (fun s =>
        decide (Demo.sessionOf s (Demo.conn 1) = some 0 ∧
          (s.side (Demo.conn 1)).socket.sent.length = 2)) = true := by
    decide +kernel
  have hu : ((system Demo.shifted).execs (fun _ _ => true) (Sys.initial Demo.noon)
      (Demo.oneJoined ++ Demo.sent (Demo.conn 1) "hello")).any (fun u =>
        decide (Demo.sessionOf u (Demo.conn 1) = some 7)) = true := by
    decide +kernel
  obtain ⟨s, hs, hP⟩ := (Option.any_eq_true _ _).mp hs
  obtain ⟨u, hu, hQ⟩ := (Option.any_eq_true _ _).mp hu
  obtain ⟨hsid, hlen⟩ := of_decide_eq_true hP
  have hrun := Machine.run_of_execs (C := Free) (fun _ _ _ => trivial) hs
  have hrun' := Machine.run_of_execs (C := Free) (fun _ _ _ => trivial) hu
  exact ⟨s, u, hsid, of_decide_eq_true hQ, hlen,
    (frames_renamed Demo.shift_injOn hrun).2 u hrun' (Demo.conn 1)⟩

end RoomBackend
