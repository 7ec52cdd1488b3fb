import RoomBackend.Frames
import RoomBackend.Seats

/-! # What handlers leave alone

The cached replies of a connection, the time of its rollover and the fields of its heartbeat change
in a few places only. Every method here leaves all of them alone. -/

namespace RoomBackend

open Async Day Lts

/-- The fields of a conduct that few methods assign. -/
structure Vitals where
  replies : List (String × ServerEvent)
  rolledAt : ℤ
  alive : Bool
  lastFrameAt : ℤ

namespace Conduct

def vitals (c : Conduct) : Vitals :=
  { replies := c.replies, rolledAt := c.rolledAt, alive := c.alive, lastFrameAt := c.lastFrameAt }

@[simp] theorem vitals_mk (alive : Bool) (lastFrameAt joinedAt rolledAt : ℤ) (invalidFrames : ℕ)
    (score : Suspicion.SuspicionScore) (timing : Suspicion.TimingAnalyzer)
    (bucket : RateLimit.TokenBucket) (tier : RateLimit.Tier) (strikes : ℕ)
    (lastStrikeAt cooldownUntil lastIgnoredSignal : ℤ) (recentOwn : List (String × ℤ))
    (replies : List (String × ServerEvent)) (pingStart : ℤ) (pingCount : ℕ)
    (lastChallengeAttempt lastChallengeSent : ℤ) (persistTimer joinTimer : Bool) :
    (Conduct.mk alive lastFrameAt joinedAt rolledAt invalidFrames score timing bucket tier strikes
      lastStrikeAt cooldownUntil lastIgnoredSignal recentOwn replies pingStart pingCount
      lastChallengeAttempt lastChallengeSent persistTimer joinTimer).vitals =
      ⟨replies, rolledAt, alive, lastFrameAt⟩ := (rfl)

@[simp] theorem vitals_eta (c : Conduct) :
    (⟨c.replies, c.rolledAt, c.alive, c.lastFrameAt⟩ : Vitals) = c.vitals := (rfl)

theorem vitals_applyTier {env : Env} {c : Conduct} {now : ℤ} :
    (c.applyTier env now).vitals = c.vitals := by
  unfold applyTier
  dsimp only
  split_ifs <;> rfl

theorem vitals_persistSoon {b : Bool} {c : Conduct} : (c.persistSoon b).vitals = c.vitals := by
  unfold persistSoon
  split_ifs <;> rfl

theorem vitals_signal {env : Env} {c : Conduct} {now : ℤ} {trusted hasRecord : Bool}
    {name : Suspicion.Signal} : (c.signal env now trusted hasRecord name).vitals = c.vitals := by
  unfold signal
  dsimp only
  rw [vitals_persistSoon, vitals_applyTier]
  rfl

end Conduct

namespace Sys

def vitals (s : Sys) (k : ConnKey) : Vitals := (s.side k).conduct.vitals

section methods

variable {env : Env} {s t : Sys} {k : ConnKey}

theorem vitals_updSide {f : Side → Side} (hf : ∀ d, (f d).conduct.vitals = d.conduct.vitals) :
    (s.updSide k f).vitals = s.vitals := by
  funext j
  unfold vitals updSide
  by_cases hj : j = k
  · subst hj
    dsimp only
    rw [Function.update_self, hf]
  · dsimp only
    rw [Function.update_of_ne hj]

@[simp] theorem vitals_updConduct {f : Conduct → Conduct} (hf : ∀ c, (f c).vitals = c.vitals) :
    (s.updConduct k f).vitals = s.vitals := vitals_updSide fun d => hf d.conduct

@[simp] theorem vitals_onCore (f : Core → Core) : (s.onCore f).vitals = s.vitals := rfl

@[simp] theorem vitals_updSocket (f : Socket → Socket) : (s.updSocket k f).vitals = s.vitals :=
  vitals_updSide fun _ => rfl

@[simp] theorem vitals_start (b : Chore) : (s.start b).vitals = s.vitals := rfl

@[simp] theorem vitals_suspend (x : Handler) : (s.suspend k x).vitals = s.vitals := rfl

@[simp] theorem vitals_finish : (s.finish k).vitals = s.vitals := rfl

@[simp] theorem vitals_send (e : ServerEvent) : (s.send k e).vitals = s.vitals :=
  vitals_updSocket _

@[simp] theorem vitals_close (code : ℕ) (reason : String) :
    (s.close k code reason).vitals = s.vitals := vitals_updSocket _

@[simp] theorem vitals_terminate : (s.terminate k).vitals = s.vitals := vitals_updSocket _

@[simp] theorem vitals_signal (name : Suspicion.Signal) : (s.signal env k name).vitals = s.vitals :=
  vitals_updConduct fun _ => Conduct.vitals_signal

@[simp] theorem vitals_signalIf (b : Bool) (name : Suspicion.Signal) :
    (s.signalIf env k b name).vitals = s.vitals := by
  unfold signalIf
  split <;> simp

@[simp] theorem vitals_persistSoon : (s.persistSoon k).vitals = s.vitals :=
  vitals_updConduct fun _ => Conduct.vitals_persistSoon

@[simp] theorem vitals_announce (a : Announcement) : (s.announce env k a).vitals = s.vitals := by
  simp [announce]

@[simp] theorem vitals_blocked (ttl : ℤ) (text : Option String) :
    (s.blocked k ttl text).vitals = s.vitals := by
  simp [blocked]

@[simp] theorem vitals_tempBlockEnd (b : BlockLocals) : (s.tempBlockEnd k b).vitals = s.vitals := by
  simp [tempBlockEnd]

@[simp] theorem vitals_persist : (s.persist env k).1.vitals = s.vitals := by
  unfold persist
  dsimp only
  split
  · rfl
  · dsimp only
    refine vitals_updSide ?_
    exact fun _ => rfl

@[simp] theorem vitals_persistDetached : (s.persistDetached env k).vitals = s.vitals := by
  unfold persistDetached
  dsimp only
  split <;> simp

@[simp] theorem vitals_sendChallenge (force : Bool) :
    (s.sendChallenge env k force).vitals = s.vitals := by
  unfold sendChallenge
  split
  · rfl
  · split <;> simp

@[simp] theorem vitals_tempBlockSave (b : BlockLocals) :
    (s.tempBlockSave env k b).1.vitals = s.vitals := by
  simp [tempBlockSave]

@[simp] theorem vitals_startChallenge (r : SessionIdent) (v : ℚ) :
    (s.startChallenge env k r v).1.vitals = s.vitals := by
  unfold startChallenge
  split <;> simp

@[simp] theorem vitals_escalate (now : ℤ) : (s.escalate env k now).1.vitals = s.vitals := by
  unfold escalate
  dsimp only
  split
  · rfl
  · split
    · rfl
    · split
      · rfl
      · split_ifs
        · exact vitals_startChallenge _ _
        · rfl
        · rfl

theorem vitals_tempBlockResume {p : BlockPc} {r : Sys × (BlockPc ⊕ BlockLocals)}
    (h : s.tempBlockResume env k p = some r) : r.1.vitals = s.vitals := by
  cases p with
  | sess b p =>
      obtain ⟨a, -, rfl⟩ := Option.map_eq_some_iff.mp h
      dsimp only
      split <;> simp
  | net b netTtl p =>
      obtain ⟨a, -, rfl⟩ := Option.map_eq_some_iff.mp h
      simp
  | save b req p =>
      obtain ⟨a, -, rfl⟩ := Option.map_eq_some_iff.mp h
      rfl

theorem vitals_escalateResume {e : EscalatePc} {r : Sys × EscalatePc}
    (h : s.escalateResume env k e = some r) : r.1.vitals = s.vitals := by
  cases e with
  | returned reason => cases h
  | challenge req p =>
      obtain ⟨a, -, rfl⟩ := Option.map_eq_some_iff.mp h
      simp
  | block b =>
      obtain ⟨x, hx, rfl⟩ := Option.map_eq_some_iff.mp h
      split <;> simp [vitals_tempBlockResume hx]

/-! ### Handlers -/

@[simp] theorem vitals_decided (e : SendEvent) (reply : ServerEvent) :
    (s.decided k e reply).vitals = s.vitals := rfl

@[simp] theorem vitals_decideEscalate (l : SendLocals) (site : EscalateSite) :
    (s.decideEscalate env k l site).vitals = s.vitals := by
  simp [decideEscalate]

@[simp] theorem vitals_decideRate (l : SendLocals) : (s.decideRate env k l).vitals = s.vitals := by
  unfold decideRate
  dsimp only
  split_ifs <;> simp

@[simp] theorem vitals_decideSend (e : SendEvent) (r : SessionIdent) :
    (s.decideSend env k e r).vitals = s.vitals := by
  unfold decideSend checkRoom
  dsimp only
  split_ifs <;> try simp
  split <;> simp

@[simp] theorem vitals_handleSend (e : SendEvent) : (s.handleSend env k e).vitals = s.vitals := by
  unfold handleSend
  dsimp only
  split
  · simp
  · split
    · simp
    · split <;> simp

@[simp] theorem vitals_decideSignals (l : SendLocals) :
    (s.decideSignals env k l).vitals = s.vitals := by
  simp [decideSignals]

theorem vitals_sendResume {p : SendPc} (hp : ∀ e reply, p ≠ .reply e reply)
    (h : s.sendResume env k p = some t) : t.vitals = s.vitals := by
  cases p with
  | hit l p =>
      obtain ⟨a, -, rfl⟩ := Option.map_eq_some_iff.mp h
      dsimp only
      split_ifs <;> simp
  | dup l p =>
      obtain ⟨a, -, rfl⟩ := Option.map_eq_some_iff.mp h
      simp
  | escalate l site e =>
      cases e with
      | returned reason =>
          cases reason with
          | some reason =>
              cases h
              rfl
          | none =>
              cases site with
              | limited =>
                  cases h
                  rfl
              | accept =>
                  cases h
                  rfl
      | _ =>
          obtain ⟨r, hr, rfl⟩ := Option.map_eq_some_iff.mp h
          exact vitals_escalateResume hr
  | append l room m p =>
      cases p with
      | pending => cases h
      | _ =>
          cases h
          rfl
  | publish l room m p =>
      cases p with
      | pending => cases h
      | _ =>
          cases h
          rfl
  | reply e reply => exact absurd rfl (hp e reply)

@[simp] theorem vitals_challengeResponse (token : String) :
    (s.challengeResponse k token).vitals = s.vitals := by
  unfold challengeResponse
  dsimp only
  split
  · rfl
  · split_ifs <;> simp

@[simp] theorem vitals_challengePassed (r : SessionIdent) (now : ℤ) :
    (s.challengePassed env k r now).vitals = s.vitals := by
  simp [challengePassed, Conduct.vitals_applyTier]

@[simp] theorem vitals_challengeFailed (r : SessionIdent) :
    (s.challengeFailed env k r).vitals = s.vitals := by
  unfold challengeFailed
  dsimp only
  split_ifs
  · split <;> simp
  · simp

theorem vitals_challengeResume {p : ChallengePc} (h : s.challengeResume env k p = some t) :
    t.vitals = s.vitals := by
  cases p with
  | verify token r now p =>
      obtain ⟨a, -, rfl⟩ := Option.map_eq_some_iff.mp h
      split_ifs <;> simp
  | block b =>
      obtain ⟨r, hr, rfl⟩ := Option.map_eq_some_iff.mp h
      split <;> simp [vitals_tempBlockResume hr]
  | _ =>
      obtain ⟨a, -, rfl⟩ := Option.map_eq_some_iff.mp h
      simp

theorem vitals_reportResume {p : ReportPc} (h : s.reportResume env k p = some t) :
    t.vitals = s.vitals := by
  cases p with
  | hit r id reason p =>
      obtain ⟨a, -, rfl⟩ := Option.map_eq_some_iff.mp h
      split_ifs <;> simp
  | recent r id reason roomId p =>
      obtain ⟨a, -, rfl⟩ := Option.map_eq_some_iff.mp h
      split <;> simp
  | event id e p =>
      cases p with
      | pending => cases h
      | _ =>
          cases h
          simp

@[simp] theorem vitals_joinEnter (j : JoinCtx) (r : SessionRecord) (token : Token) :
    (s.joinEnter env k j r token).vitals = s.vitals := by
  unfold joinEnter
  dsimp only
  rw [vitals_suspend, vitals_onCore]
  refine vitals_updSide fun d => ?_
  dsimp only
  rw [Conduct.vitals_applyTier]
  split <;> rfl

@[simp] theorem vitals_joinVerify (verification : Option String) :
    (s.joinVerify env k verification).vitals = s.vitals := by
  unfold joinVerify
  split
  · split <;> simp
  · rfl

@[simp] theorem vitals_joinWelcome (j : JoinCtx) (r : SessionIdent) (token : Token)
    (room : DailyRoom) (history : List StoredMessage) :
    (s.joinWelcome env k j r token room history).vitals = s.vitals := by
  unfold joinWelcome
  dsimp only
  split_ifs <;> simp

theorem vitals_joinResume {p : JoinPc} (h : s.joinResume env k p = some t) :
    t.vitals = s.vitals := by
  cases p with
  | newsess j room p =>
      obtain ⟨a, -, rfl⟩ := Option.map_eq_some_iff.mp h
      dsimp only
      split_ifs <;> simp
  | block j record token p =>
      obtain ⟨a, -, rfl⟩ := Option.map_eq_some_iff.mp h
      split_ifs <;> simp
  | _ =>
      obtain ⟨a, -, rfl⟩ := Option.map_eq_some_iff.mp h
      simp

@[simp] theorem vitals_ping (n : ℤ) : (s.ping env k n).vitals = s.vitals := by
  unfold ping
  dsimp only
  split_ifs <;> simp <;> exact vitals_updConduct fun c => by split_ifs <;> rfl

@[simp] theorem vitals_invalid (b : Bool) : (s.invalid env k b).vitals = s.vitals := by
  unfold invalid
  dsimp only
  split_ifs <;> simp

@[simp] theorem vitals_handle (raw : Raw) : (s.handle env k raw).vitals = s.vitals := by
  unfold handle
  split
  · rfl
  · cases raw with
    | event e =>
        cases e with
        | join resume verification => rfl
        | send e => exact vitals_handleSend e
        | challengeResponse token => exact vitals_challengeResponse token
        | ping n => exact vitals_ping n
        | report id reason =>
            dsimp only
            unfold report
            split <;> rfl
    | _ => exact vitals_invalid _

/-! ### The room server -/

theorem vitals_forConns {i : InstanceId} {f : ConnKey → Sys → Sys}
    (hf : ∀ k u, (f k u).vitals = u.vitals) (ns : List ℕ) (s : Sys) :
    (s.forConns i f ns).vitals = s.vitals := by
  unfold forConns
  induction ns generalizing s with
  | nil => rfl
  | cons n ns ih => exact (ih _).trans (hf _ _)

@[simp] theorem vitals_broadcastLocal (i : InstanceId) (e : ServerEvent) :
    (s.broadcastLocal i e).vitals = s.vitals :=
  vitals_forConns (fun k u => by split <;> simp) _ _

@[simp] theorem vitals_presenceTotal (i : InstanceId) (total : ℤ) :
    (s.presenceTotal i total).vitals = s.vitals := by
  unfold presenceTotal
  split
  · exact vitals_broadcastLocal i _
  · rfl

@[simp] theorem vitals_flushOutbox (i : InstanceId) : (s.flushOutbox i).vitals = s.vitals := by
  unfold flushOutbox
  dsimp only
  split
  · rfl
  · refine (vitals_forConns (fun k u => ?_) _ _).trans rfl
    split
    · split <;> simp
    · rfl

@[simp] theorem vitals_onBus (i : InstanceId) (e : BusEvent) :
    (s.onBus i e).vitals = s.vitals := by
  cases e with
  | message m => rfl
  | kick origin sid reason => exact vitals_forConns (fun k u => by split <;> simp) _ _

@[simp] theorem vitals_resetBatches (i : InstanceId) (prev next : DailyRoom) (rest : List ℕ) :
    (s.resetBatches env i prev next rest).vitals = s.vitals := by
  unfold resetBatches
  split
  · rfl
  · exact vitals_forConns (f := fun k u => u.rollover env k next) (fun _ _ => rfl) _ _

theorem vitals_resetResume {i : InstanceId} {p : RollingPc}
    (h : s.resetResume env i p = some t) : t.vitals = s.vitals := by
  cases p with
  | acquire prev next p =>
      cases p with
      | pending => cases h
      | rejected =>
          cases h
          exact vitals_resetBatches _ _ _ _
      | fulfilled b =>
          cases b with
          | true =>
              cases h
              rfl
          | false =>
              cases h
              exact vitals_resetBatches _ _ _ _
  | cleanup prev next p =>
      cases p with
      | pending => cases h
      | rejected =>
          cases h
          exact vitals_resetBatches _ _ _ _
      | fulfilled a =>
          cases h
          rfl
  | log prev next p =>
      obtain ⟨a, -, rfl⟩ := Option.map_eq_some_iff.mp h
      exact vitals_resetBatches _ _ _ _
  | batch prev next current rest =>
      obtain ⟨-, he⟩ := Option.ite_none_right_eq_some.mp h
      cases he
      rfl
  | breathe prev next rest =>
      cases h
      exact vitals_resetBatches _ _ _ _

theorem vitals_choreResume {n : ℕ} {b : Chore} (h : s.choreResume env n b = some t) :
    t.vitals = s.vitals := by
  have hdone : (s.choreDone n).vitals = s.vitals := rfl
  cases b with
  | verify k token p =>
      cases p with
      | pending => cases h
      | rejected =>
          cases h
          rfl
      | fulfilled b =>
          cases b with
          | true =>
              cases h
              refine Eq.trans (vitals_updConduct ?_) hdone
              exact fun _ => rfl
          | false =>
              cases h
              exact (vitals_signal _).trans hdone
  | reportPresence i now count p =>
      cases p with
      | pending => cases h
      | _ =>
          cases h
          rfl
  | totalPresence i now p =>
      cases p with
      | pending => cases h
      | rejected =>
          cases h
          rfl
      | fulfilled total =>
          cases h
          exact (vitals_presenceTotal i total).trans hdone
  | _ =>
      obtain ⟨a, -, rfl⟩ := Option.map_eq_some_iff.mp h
      rfl

theorem vitals_onClose : (s.onClose env k).vitals = s.vitals := by
  unfold onClose
  split
  · rfl
  · dsimp only
    rw [vitals_onCore, vitals_persistDetached]
    refine vitals_updConduct ?_
    exact fun _ => rfl

/-! ### What a step does to them -/

/-- A change of one side. -/
theorem vitals_updSide_update {f : Side → Side} {v : Vitals} (hf : (f (s.side k)).conduct.vitals = v) :
    (s.updSide k f).vitals = Function.update s.vitals k v := by
  funext j
  unfold vitals updSide
  by_cases hj : j = k
  · subst hj
    dsimp only
    rw [Function.update_self, Function.update_self, hf]
  · dsimp only
    rw [Function.update_of_ne hj, Function.update_of_ne hj]

theorem vitals_rolloverEnter (p : RolloverPc) (prev : DailyRoom) (r : SessionRecord)
    (token : Token) : (s.rolloverEnter env k p prev r token).vitals =
      Function.update s.vitals k { s.vitals k with replies := [], rolledAt := p.now } := by
  unfold rolloverEnter
  dsimp only
  split
  · rw [vitals_sendChallenge, vitals_send, vitals_onCore]
    exact vitals_updSide_update rfl
  · rw [vitals_send, vitals_onCore]
    exact vitals_updSide_update rfl

theorem vitals_accept {i : InstanceId} {info : AdmitInfo} :
    (s.accept env i info).vitals =
      Function.update s.vitals ⟨i, (s.srv i).seq + 1⟩ ⟨[], 0, true, s.clock⟩ := by
  unfold accept
  dsimp only
  rw [vitals_signalIf, vitals_signalIf]
  exact vitals_updSide_update rfl

theorem vitals_handleSendReply (e : SendEvent) (reply : ServerEvent) :
    (s.handleSendReply k e reply).vitals = Function.update s.vitals k
      { s.vitals k with replies := cacheReply (s.vitals k).replies e.clientId reply } := by
  unfold handleSendReply
  dsimp only
  rw [vitals_finish, vitals_send]
  split
  · exact vitals_updSide_update rfl
  · exact vitals_updSide_update rfl

theorem vitals_onFrame (raw : Raw) : (s.onFrame env k raw).vitals =
    Function.update s.vitals k { s.vitals k with alive := true, lastFrameAt := s.clock } := by
  have hheard : (s.updConduct k fun c => { c with lastFrameAt := s.clock, alive := true }).vitals =
      Function.update s.vitals k { s.vitals k with alive := true, lastFrameAt := s.clock } :=
    vitals_updSide_update rfl
  unfold onFrame
  dsimp only
  split_ifs
  · rw [vitals_invalid, hheard]
  · rw [vitals_signal]
    refine Eq.trans (vitals_updConduct ?_) hheard
    exact fun _ => rfl
  · exact hheard
  · refine Eq.trans (vitals_updSide ?_) hheard
    exact fun _ => rfl

theorem vitals_onPong : (s.onPong k).vitals =
    Function.update s.vitals k { s.vitals k with alive := true, lastFrameAt := s.clock } := by
  unfold onPong
  exact vitals_updSide_update rfl

/-- A tick marks a connection that it does not terminate. -/
theorem vitals_heartbeat : (s.heartbeat k).vitals = s.vitals ∨
    (s.heartbeat k).vitals = Function.update s.vitals k { s.vitals k with alive := false } := by
  unfold heartbeat
  dsimp only
  split
  · exact Or.inl vitals_terminate
  · exact Or.inr (vitals_updSide_update rfl)

theorem vitals_heartbeats (i : InstanceId) : (s.heartbeats i).vitals k = s.vitals k ∨
    k.inst = i ∧ (s.heartbeats i).vitals k = { s.vitals k with alive := false } := by
  unfold heartbeats forConns
  generalize (s.srv i).conns = ns
  induction ns generalizing s with
  | nil => exact Or.inl rfl
  | cons n ns ih =>
      rw [List.foldl_cons]
      have hone : (s.heartbeat ⟨i, n⟩).vitals k = s.vitals k ∨
          k.inst = i ∧ (s.heartbeat ⟨i, n⟩).vitals k = { s.vitals k with alive := false } := by
        rcases @vitals_heartbeat s ⟨i, n⟩ with h | h
        · exact Or.inl (congrFun h k)
        · rw [h]
          by_cases hk : k = ⟨i, n⟩
          · subst hk
            rw [Function.update_self]
            exact Or.inr ⟨rfl, rfl⟩
          · rw [Function.update_of_ne hk]
            exact Or.inl rfl
      rcases @ih (s.heartbeat ⟨i, n⟩) with h | ⟨hi, h⟩
      · rwa [h]
      · refine Or.inr ⟨hi, ?_⟩
        rw [h]
        rcases hone with hs | ⟨-, hs⟩ <;> rw [hs]

/-- What a step makes of the vitals of a connection. -/
inductive VitalStep (env : Env) (s : Sys) (k : ConnKey) (l : Label) : Vitals → Prop
  | same : VitalStep env s k l (s.vitals k)
  | replied {e : SendEvent} {reply : ServerEvent} (hl : l = .resume (.handler k))
      (hh : (s.conn k).handler = some (.send (.reply e reply))) :
      VitalStep env s k l
        { s.vitals k with replies := cacheReply (s.vitals k).replies e.clientId reply }
  | rolled {p : RolloverPc} {r : SessionRecord} {token : Token} {d : ℕ}
      (hl : l = .resume (.rollover k)) (hp : (s.conn k).rolling = some p)
      (hr : p.create.resume env s.draws = some (.done r token, d)) (hc : (s.conn k).closed = false) :
      VitalStep env s k l { s.vitals k with replies := [], rolledAt := p.now }
  | accepted (hk : k ∉ s.accepted) : VitalStep env s k l ⟨[], 0, true, s.clock⟩
  | heard (hl : l = .pong k ∨ ∃ raw, l = .frame k raw) :
      VitalStep env s k l { s.vitals k with alive := true, lastFrameAt := s.clock }
  | pinged (hl : l = .heartbeat k.inst) : VitalStep env s k l { s.vitals k with alive := false }

theorem VitalStep.of_same {l : Label} (h : t.vitals = s.vitals) :
    VitalStep env s k l (t.vitals k) := by
  rw [h]
  exact .same

theorem VitalStep.of_update {l : Label} {j : ConnKey} {v : Vitals}
    (h : t.vitals = Function.update s.vitals j v) (hv : k = j → VitalStep env s k l v) :
    VitalStep env s k l (t.vitals k) := by
  rw [h]
  by_cases hj : k = j
  · rw [← hj, Function.update_self]
    exact hv hj
  · rw [Function.update_of_ne hj]
    exact .same

theorem vitals_handlerResume {x : Handler} (hx : ∀ e reply, x ≠ .send (.reply e reply))
    (h : s.handlerResume env k x = some t) : t.vitals = s.vitals := by
  cases x with
  | join p => exact vitals_joinResume h
  | send p => exact vitals_sendResume (fun e reply he => hx e reply (by rw [he])) h
  | challenge p => exact vitals_challengeResume h
  | report p => exact vitals_reportResume h

theorem vitals_resume {th : Thread} (hB : Born s.toCore) (h : s.resume env th = some t) :
    VitalStep env s k (.resume th) (t.vitals k) := by
  cases th with
  | handler j =>
      obtain ⟨x, hx, hu⟩ := Option.bind_eq_some_iff.mp h
      by_cases hr : ∃ e reply, x = .send (.reply e reply)
      · obtain ⟨e, reply, rfl⟩ := hr
        cases Option.some.inj hu
        refine .of_update (vitals_handleSendReply e reply) fun hj => ?_
        subst hj
        exact .replied rfl hx
      · exact .of_same (vitals_handlerResume (fun e reply he => hr ⟨e, reply, he⟩) hu)
  | rollover j =>
      obtain ⟨p, hp, hu⟩ := Option.bind_eq_some_iff.mp h
      obtain ⟨⟨r, d⟩, hr, rfl⟩ := Option.map_eq_some_iff.mp hu
      have hd : ({ s with draws := d } : Sys).vitals = s.vitals := rfl
      cases r with
      | wait c => exact .of_same rfl
      | done record token =>
          dsimp only
          split
          · exact .of_same rfl
          · rename_i hc
            refine .of_update (@vitals_rolloverEnter env { s with draws := d } j p _ record token)
              fun hj => ?_
            subst hj
            exact .rolled rfl hp hr ((Bool.not_eq_true _).mp hc)
      | threw => exact .of_same ((vitals_close _ _).trans hd)
  | reset i =>
      obtain ⟨p, -, hu⟩ := Option.bind_eq_some_iff.mp h
      exact .of_same (vitals_resetResume hu)
  | upgrade n =>
      obtain ⟨u, -, hu⟩ := Option.bind_eq_some_iff.mp h
      obtain ⟨pc, -, rfl⟩ := Option.map_eq_some_iff.mp hu
      dsimp only
      split
      · refine .of_update vitals_accept fun hk => ?_
        subst hk
        exact .accepted fun hm => absurd (hB.numbered _ hm) (Nat.not_succ_le_self _)
      · exact .of_same rfl
  | task n =>
      obtain ⟨b, -, hu⟩ := Option.bind_eq_some_iff.mp h
      cases b with
      | _ =>
          obtain ⟨a, -, rfl⟩ := Option.map_eq_some_iff.mp hu
          exact .of_same rfl
  | chore n =>
      obtain ⟨b, -, hu⟩ := Option.bind_eq_some_iff.mp h
      exact .of_same (vitals_choreResume hu)

/-- A step changes the vitals of a connection only where a decision is over, a rollover ends, the
connection is made, something of its client arrives, or a tick pings it. -/
theorem vitals_step {l : Label} (hB : Born s.toCore) (h : s.step env l = some t) :
    VitalStep env s k l (t.vitals k) := by
  cases l with
  | resume th => exact vitals_resume hB h
  | settle th o v =>
      refine .of_same ?_
      cases th with
      | chore n =>
          obtain ⟨b, -, h⟩ := Option.bind_eq_some_iff.mp h
          obtain ⟨r, -, rfl⟩ := Option.map_eq_some_iff.mp h
          rfl
      | _ =>
          obtain ⟨c, -, rfl⟩ := Option.map_eq_some_iff.mp h
          rfl
  | clock time =>
      obtain ⟨-, he⟩ := Option.ite_none_right_eq_some.mp h
      cases he
      exact .of_same rfl
  | start i =>
      obtain ⟨-, he⟩ := Option.ite_none_left_eq_some.mp h
      cases he
      exact .of_same rfl
  | upgrade i req =>
      obtain ⟨-, he⟩ := Option.ite_none_right_eq_some.mp h
      cases he
      exact .of_same rfl
  | destroyed n =>
      obtain ⟨u, -, rfl⟩ := Option.map_eq_some_iff.mp h
      exact .of_same rfl
  | frame j raw =>
      obtain ⟨-, he⟩ := Option.ite_none_left_eq_some.mp h
      cases he
      refine .of_update (vitals_onFrame raw) fun hj => ?_
      subst hj
      exact .heard (Or.inr ⟨raw, rfl⟩)
  | handle j =>
      obtain ⟨-, he⟩ := Option.ite_none_right_eq_some.mp h
      refine .of_same ?_
      unfold handleNext at he
      split at he
      · cases he
        refine (vitals_handle _).trans ?_
        exact vitals_updSide fun _ => rfl
      · cases he
  | pong j =>
      obtain ⟨-, he⟩ := Option.ite_none_left_eq_some.mp h
      cases he
      refine .of_update vitals_onPong fun hj => ?_
      subst hj
      exact .heard (Or.inl rfl)
  | peerClosing j =>
      obtain ⟨-, he⟩ := Option.ite_none_right_eq_some.mp h
      cases he
      exact .of_same (vitals_updSocket _)
  | closeEvent j =>
      obtain ⟨-, he⟩ := Option.ite_none_left_eq_some.mp h
      cases he
      exact .of_same (vitals_onClose.trans (vitals_updSocket _))
  | slow j b =>
      cases h
      exact .of_same (vitals_updSocket _)
  | joinTimeout j =>
      obtain ⟨-, he⟩ := Option.ite_none_right_eq_some.mp h
      cases he
      refine .of_same ?_
      unfold joinTimeout
      dsimp only
      split <;> simp
  | persistTimeout j =>
      obtain ⟨-, he⟩ := Option.ite_none_right_eq_some.mp h
      cases he
      refine .of_same (vitals_persistDetached.trans (vitals_updConduct ?_))
      exact fun _ => rfl
  | tick i =>
      obtain ⟨-, he⟩ := Option.ite_none_right_eq_some.mp h
      cases he
      exact .of_same rfl
  | heartbeat i =>
      obtain ⟨-, he⟩ := Option.ite_none_right_eq_some.mp h
      cases he
      rcases @vitals_heartbeats s k i with hv | ⟨hi, hv⟩ <;> rw [hv]
      · exact .same
      · exact .pinged (by rw [hi])
  | presence i =>
      obtain ⟨-, he⟩ := Option.ite_none_right_eq_some.mp h
      cases he
      exact .of_same rfl
  | flush i =>
      obtain ⟨-, he⟩ := Option.ite_none_right_eq_some.mp h
      cases he
      exact .of_same (vitals_flushOutbox i)
  | deliver n =>
      obtain ⟨e, -, rfl⟩ := Option.map_eq_some_iff.mp h
      exact .of_same (vitals_onBus _ _)
  | stop i =>
      obtain ⟨-, he⟩ := Option.ite_none_right_eq_some.mp h
      cases he
      refine .of_same ?_
      unfold stop
      split <;> rfl
  | drain j =>
      obtain ⟨-, he⟩ := Option.ite_none_right_eq_some.mp h
      cases he
      exact .of_same (vitals_close _ _)
  | stopEnd i =>
      obtain ⟨-, he⟩ := Option.ite_none_right_eq_some.mp h
      cases he
      exact .of_same (vitals_forConns (fun k u => vitals_terminate) _ _)
  | adminBlock i b =>
      obtain ⟨-, he⟩ := Option.ite_none_right_eq_some.mp h
      obtain ⟨a, -, rfl⟩ := Option.map_eq_some_iff.mp he
      exact .of_same rfl
  | adminUnblock i name =>
      obtain ⟨-, he⟩ := Option.ite_none_right_eq_some.mp h
      cases he
      exact .of_same rfl

end methods

end Sys

end RoomBackend
