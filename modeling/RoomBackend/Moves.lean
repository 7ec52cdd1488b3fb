import RoomBackend.System

/-! # What one stretch of a handler can do

Between two awaits a frame handler computes on the scores and timers of its connection, sends
frames, and changes the shared part of the state in one of a few ways. `Act` lists these
ways: `Act env k up c h c₁ h'` says that the handler of connection `k`, waiting at `h` (or not
yet started) in the shared state `c`, can turn the shared state into `c₁` and wait at `h'` (or
return). `up` says whether the socket passes frames on. `Sys.acts_handlerResume` and
`Sys.acts_handle` show that the handlers do nothing else. -/

namespace RoomBackend

open Async Day RateLimit Suspicion

/-! ### Stretches of the inner methods -/

/-- `tempBlock` goes on to its next await. -/
inductive BlockMove (c : Core) (k : ConnKey) : BlockPc → BlockPc → Prop
  | net {b : BlockLocals} {p : Promise Unit} (netTtl : ℤ) (hp : p ≠ .pending) :
      BlockMove c k (.sess b p) (.net b netTtl .pending)
  | save {b : BlockLocals} {p : Promise Unit} (q : Rating) (hp : p ≠ .pending) :
      BlockMove c k (.sess b p) (.save b (c.saveReq k q) (Sys.savePromise (c.saveReq k q)))
  | saveNet {b : BlockLocals} {p : Promise Unit} {netTtl : ℤ} (q : Rating) (hp : p ≠ .pending) :
      BlockMove c k (.net b netTtl p) (.save b (c.saveReq k q) (Sys.savePromise (c.saveReq k q)))

/-- `escalate`, from its start: the shared state and where it waits. -/
inductive Escalates (c : Core) (k : ConnKey) : Core → EscalatePc → Prop
  | quiet {reason : Option RejectReason} : Escalates c k c (.returned reason)
  | challenge {r : SessionIdent} (q : Rating) (hr : (c.conn k).record = some r) :
      Escalates c k (c.issue k r)
        (.challenge ((c.issue k r).saveReq k q) (Sys.savePromise ((c.issue k r).saveReq k q)))
  | block {r : SessionIdent} (reason : String) (hr : (c.conn k).record = some r) :
      Escalates c k (c.tempBlock k r reason).1 (.block (c.tempBlock k r reason).2)

/-- `escalate` goes on. -/
inductive EscalateMove (c : Core) (k : ConnKey) : EscalatePc → Core → EscalatePc → Prop
  | challenged {req : Option SaveReq} {p : Promise Unit} (hp : p ≠ .pending) :
      EscalateMove c k (.challenge req p) c (.returned (some .challengeRequired))
  | block {b b' : BlockPc} (hb : BlockMove c k b b') : EscalateMove c k (.block b) c (.block b')
  | blocked {b : BlockLocals} {req : Option SaveReq} {p : Promise Unit} (hp : p ≠ .pending) :
      EscalateMove c k (.block (.save b req p)) (c.blockEnd k b) (.returned (some .blocked))

/-- `join` goes on to its next await within the loop over attempts; `d` draws are made. -/
inductive JoinMove (env : Env) (c : Core) (k : ConnKey) : JoinPc → JoinPc → ℕ → Prop
  | resume {j : JoinCtx} {token : Token} {r r' : ResumePc} (hr : r.resume = some (.wait r')) :
      JoinMove env c k (.resume j token r) (.resume j token r') c.draws
  | unknown {j : JoinCtx} {token : Token} {r : ResumePc} (hr : r.resume = some (.done none)) :
      JoinMove env c k (.resume j token r) (.newsess j r.room .pending) c.draws
  | found {j : JoinCtx} {token : Token} {r : ResumePc} {record : SessionRecord}
      (hr : r.resume = some (.done (some record))) :
      JoinMove env c k (.resume j token r) (.rejoin j record token .pending) c.draws
  | create {j : JoinCtx} {room : DailyRoom} {p : Promise ℕ} (input : NewSessionInput)
      (hp : p ≠ .pending) (hi : input.challengePending = false)
      (hn : input.ipHash = (c.conn k).info.net.dailyHash) :
      JoinMove env c k (.newsess j room p) (.create j (createSession env c.draws room input))
        (c.draws + 1)
  | creating {j : JoinCtx} {p p' : CreatePc} {d : ℕ}
      (hp : p.resume env c.draws = some (.wait p', d)) :
      JoinMove env c k (.create j p) (.create j p') d
  | created {j : JoinCtx} {p : CreatePc} {record : SessionRecord} {token : Token} {d : ℕ}
      (hp : p.resume env c.draws = some (.done record token, d))
      (hroom : record.roomId = (c.roomOf k).roomId) (hc : (c.conn k).closed = false) :
      JoinMove env c k (.create j p) (.block j record token .pending) d
  | rejoined {j : JoinCtx} {p : Promise ℕ} {record : SessionRecord} {token : Token}
      (hp : p ≠ .pending)
      (hroom : record.roomId = (c.roomOf k).roomId) (hc : (c.conn k).closed = false) :
      JoinMove env c k (.rejoin j record token p) (.block j record token .pending) c.draws
  | retryCreated {j j' : JoinCtx} {p : CreatePc} {r : CreateRes} {d : ℕ}
      (hp : p.resume env c.draws = some (r, d)) :
      JoinMove env c k (.create j p) (.newsess j' (c.roomOf k) .pending) d
  | retryRejoined {j j' : JoinCtx} {p : Promise ℕ} {record : SessionRecord} {token : Token} :
      JoinMove env c k (.rejoin j record token p) (.newsess j' (c.roomOf k) .pending) c.draws

/-- The checks `decide` passes before its first await, and the locals it goes on with. -/
structure Opens (env : Env) (c : Core) (k : ConnKey) (l : SendLocals) : Prop where
  record : (c.conn k).record = some l.record
  joined : (c.conn k).joined = true
  now : l.now = c.clock
  today : (env.roomAt c.clock).roomId = (c.roomOf k).roomId
  ours : l.record.roomId = (c.roomOf k).roomId
  unblocked : (c.conn k).blockedUntil ≤ c.clock
  unchallenged : ((c.conn k).standing l.record.sid).challengePending = false
  resets : l.resets = (c.srv k.inst).resets
  mark : l.mark = c.world.journal.length

/-! ### Stretches of a handler -/

/-- The handler of connection `k` runs to its next await. -/
inductive Act (env : Env) (k : ConnKey) (up : Bool) (c : Core) :
    Option Handler → Core → Option Handler → Prop
  | idle {h : Option Handler} (hs : ∀ p, h ≠ some (.send p))
      (hj : ∀ j r token room p, h ≠ some (.join (.history j r token room p))) :
      Act env k up c h c none
  | joinStart {j : JoinCtx} {token : Token} (hj : (c.conn k).joined = false) :
      Act env k up c none c (some (.join (.resume j token (resumeSession (c.roomOf k) token))))
  | joinFresh {j : JoinCtx} (hj : (c.conn k).joined = false) :
      Act env k up c none c (some (.join (.newsess j (c.roomOf k) .pending)))
  | joinMove {p p' : JoinPc} {d : ℕ} (hp : JoinMove env c k p p' d) :
      Act env k up c (some (.join p)) { c with draws := d } (some (.join p'))
  | joinOver {j : JoinCtx} {p : CreatePc} {r : CreateRes} {d : ℕ}
      (hp : p.resume env c.draws = some (r, d)) :
      Act env k up c (some (.join (.create j p))) { c with draws := d } none
  | joinBlocked {j : JoinCtx} {r : SessionRecord} {token : Token} {p : Promise ℤ} {ttl : ℤ}
      (hp : p = .fulfilled ttl) (ht : 0 < ttl) :
      Act env k up c (some (.join (.block j r token p))) (c.mute k ttl) none
  | joinEnter {j : JoinCtx} {r : SessionRecord} {token : Token} {p : Promise ℤ} {ttl : ℤ}
      (hp : p.orElse 0 = some ttl) (ht : ttl ≤ 0) :
      Act env k up c (some (.join (.block j r token p))) (c.enter k r token)
        (some (.join (.history j r.toSessionIdent token (c.roomOf k) .pending)))
  | joinWelcome {j : JoinCtx} {r : SessionIdent} {token : Token} {room : DailyRoom}
      {p : Promise (List StoredMessage)} {history : List StoredMessage}
      (hp : p.orElse [] = some history) :
      Act env k up c (some (.join (.history j r token room p)))
        (c.announce k up (.welcome r token room history)) none
  | sendReject {r : SessionIdent} {e : SendEvent} {reason : RejectReason} {hint : Option ℤ}
      (hr : (c.conn k).record = some r) (hj : (c.conn k).joined = true) :
      Act env k up c none (c.observe (.deciding k (c.conn k).handled e))
        (some (.send (.reply e (Sys.rejectWith e reason hint))))
  | sendSwitch {r : SessionIdent} {e : SendEvent}
      (hr : (c.conn k).record = some r) (hj : (c.conn k).joined = true) :
      Act env k up c none ((c.observe (.deciding k (c.conn k).handled e)).checkRoom env k.inst)
        (some (.send (.reply e (Sys.rejectWith e .staleRoom none))))
  | sendOpen {l : SendLocals}
      (hl : Opens env (c.observe (.deciding k (c.conn k).handled l.event)) k l) :
      Act env k up c none (c.observe (.deciding k (c.conn k).handled l.event))
        (some (.send (.hit l .pending)))
  | sendLimited {l : SendLocals} {c' : Core} {e : EscalatePc}
      (hl : Opens env (c.observe (.deciding k (c.conn k).handled l.event)) k l)
      (he : Escalates (c.observe (.deciding k (c.conn k).handled l.event)) k c' e) :
      Act env k up c none c' (some (.send (.escalate l .limited e)))
  | sendFlood {l : SendLocals} {p : Promise ℕ} {reason : RejectReason} {hint : Option ℤ} :
      Act env k up c (some (.send (.hit l p))) c
        (some (.send (.reply l.event (Sys.rejectWith l.event reason hint))))
  | sendDup {l : SendLocals} {p : Promise ℕ} :
      Act env k up c (some (.send (.hit l p))) c (some (.send (.dup l .pending)))
  | sendEscalate {l : SendLocals} {h : SendPc} {c' : Core} {e : EscalatePc}
      (hh : (∃ p, h = .hit l p) ∨ ∃ p, h = .dup l p) (he : Escalates c k c' e) :
      Act env k up c (some (.send h)) c' (some (.send (.escalate l .accept e)))
  | sendRefused {l : SendLocals} {site : EscalateSite} {reason : Option RejectReason}
      {reason' : RejectReason} {hint : Option ℤ} :
      Act env k up c (some (.send (.escalate l site (.returned reason)))) c
        (some (.send (.reply l.event (Sys.rejectWith l.event reason' hint))))
  | sendAccept {l : SendLocals} :
      Act env k up c (some (.send (.escalate l .accept (.returned none)))) c.draw
        (some (.send (.append l (c.roomOf k) (Sys.acceptedMessage env c.draws l) .pending)))
  | sendEscalating {l : SendLocals} {site : EscalateSite} {e e' : EscalatePc} {c' : Core}
      (he : EscalateMove c k e c' e') :
      Act env k up c (some (.send (.escalate l site e))) c' (some (.send (.escalate l site e')))
  | appendFailed {l : SendLocals} {room : DailyRoom} {m : StoredMessage} :
      Act env k up c (some (.send (.append l room m .rejected))) c
        (some (.send (.reply l.event (Sys.rejectWith l.event .invalid none))))
  | appendDone {l : SendLocals} {room : DailyRoom} {m : StoredMessage} :
      Act env k up c (some (.send (.append l room m (.fulfilled ())))) c
        (some (.send (.publish l room m .pending)))
  | publishFailed {l : SendLocals} {room : DailyRoom} {m : StoredMessage} :
      Act env k up c (some (.send (.publish l room m .rejected))) c
        (some (.send (.reply l.event (Sys.rejectWith l.event .invalid none))))
  | publishDone {l : SendLocals} {room : DailyRoom} {m : StoredMessage} :
      Act env k up c (some (.send (.publish l room m (.fulfilled ())))) c
        (some (.send (.reply l.event (.ack l.event.clientId (toPublic m)))))
  | sendReply {e : SendEvent} {reply : ServerEvent} :
      Act env k up c (some (.send (.reply e reply)))
        (if up then c.observe (.replied k (c.conn k).handled reply) else c) none
  | verify {r : SessionIdent} {token : String} (hr : (c.conn k).record = some r) :
      Act env k up c none c (some (.challenge (.verify token r c.clock .pending)))
  | passed {token : String} {r : SessionIdent} {now until_ : ℤ} {p : Promise Bool} (q : Rating) :
      Act env k up c (some (.challenge (.verify token r now p))) (c.pass k r until_)
        (some (.challenge (.passed ((c.pass k r until_).saveReq k q)
          (Sys.savePromise ((c.pass k r until_).saveReq k q)))))
  | failed {token : String} {r : SessionIdent} {now : ℤ} {p : Promise Bool} (q : Rating) :
      Act env k up c (some (.challenge (.verify token r now p))) (c.fail k r)
        (some (.challenge (.failed ((c.fail k r).saveReq k q)
          (Sys.savePromise ((c.fail k r).saveReq k q)))))
  | failedOver {token : String} {r : SessionIdent} {now : ℤ} {p : Promise Bool} :
      Act env k up c (some (.challenge (.verify token r now p))) (c.fail k r) none
  | failedBlock {token : String} {r r' : SessionIdent} {now : ℤ} {p : Promise Bool}
      (reason : String) (hr : (c.conn k).record = some r') :
      Act env k up c (some (.challenge (.verify token r now p)))
        ((c.fail k r).tempBlock k r' reason).1
        (some (.challenge (.block ((c.fail k r).tempBlock k r' reason).2)))
  | challengeBlock {b b' : BlockPc} (hb : BlockMove c k b b') :
      Act env k up c (some (.challenge (.block b))) c (some (.challenge (.block b')))
  | challengeBlocked {b : BlockLocals} {req : Option SaveReq} {p : Promise Unit}
      (hp : p ≠ .pending) :
      Act env k up c (some (.challenge (.block (.save b req p)))) (c.blockEnd k b) none
  | reportStart {p : ReportPc} : Act env k up c none c (some (.report p))
  | reportMove {p p' : ReportPc} : Act env k up c (some (.report p)) c (some (.report p'))

/-! ### The handlers do nothing else -/

namespace Sys

variable {env : Env} {s : Sys} {k : ConnKey}

section quiet

variable (env s k)

@[simp] theorem toCore_onCore (f : Core → Core) : (s.onCore f).toCore = f s.toCore := rfl
@[simp] theorem toCore_updSide (f : Side → Side) : (s.updSide k f).toCore = s.toCore := rfl
@[simp] theorem toCore_updConduct (f : Conduct → Conduct) :
    (s.updConduct k f).toCore = s.toCore := rfl
@[simp] theorem toCore_updSocket (f : Socket → Socket) :
    (s.updSocket k f).toCore = s.toCore := rfl
@[simp] theorem toCore_start (b : Chore) : (s.start b).toCore = s.toCore := rfl
@[simp] theorem toCore_send (e : ServerEvent) : (s.send k e).toCore = s.toCore := rfl
@[simp] theorem toCore_close (code : ℕ) (reason : String) :
    (s.close k code reason).toCore = s.toCore := rfl
@[simp] theorem toCore_terminate : (s.terminate k).toCore = s.toCore := rfl
@[simp] theorem toCore_signal (name : Signal) : (s.signal env k name).toCore = s.toCore := rfl
@[simp] theorem toCore_persistSoon : (s.persistSoon k).toCore = s.toCore := rfl

@[simp] theorem toCore_signalIf (b : Bool) (name : Signal) :
    (s.signalIf env k b name).toCore = s.toCore := by
  unfold signalIf
  split <;> rfl

@[simp] theorem toCore_sendChallenge (force : Bool) :
    (s.sendChallenge env k force).toCore = s.toCore := by
  unfold sendChallenge
  split
  · rfl
  · split <;> rfl

@[simp] theorem toCore_joinVerify (v : Option String) :
    (s.joinVerify env k v).toCore = s.toCore := by
  unfold joinVerify
  split
  · split <;> rfl
  · rfl

@[simp] theorem toCore_decideSignals (l : SendLocals) :
    (s.decideSignals env k l).toCore = s.toCore := by
  simp [decideSignals]

@[simp] theorem toCore_invalid (binary : Bool) : (s.invalid env k binary).toCore = s.toCore := by
  simp only [invalid, apply_ite Sys.toCore, toCore_close, toCore_send, toCore_signal,
    toCore_updConduct, ite_self]

@[simp] theorem toCore_suspend (h : Handler) :
    (s.suspend k h).toCore = s.toCore.setHandler k (some h) := rfl
@[simp] theorem toCore_finish : (s.finish k).toCore = s.toCore.setHandler k none := rfl
@[simp] theorem toCore_announce (a : Announcement) :
    (s.announce env k a).toCore = s.toCore.announce k (s.up k) a := rfl
@[simp] theorem toCore_blocked (ttl : ℤ) (text : Option String) :
    (s.blocked k ttl text).toCore = s.toCore.mute k ttl := rfl
@[simp] theorem toCore_tempBlockEnd (b : BlockLocals) :
    (s.tempBlockEnd k b).toCore = s.toCore.blockEnd k b := rfl

@[simp] theorem toCore_persist : (s.persist env k).1.toCore = s.toCore := by
  unfold persist
  dsimp only
  split <;> rfl

theorem persist_snd : (s.persist env k).2 = s.toCore.saveReq k (s.snapshot env k) := by
  unfold persist
  dsimp only
  split
  · rename_i h; exact h.symm
  · rename_i h; exact h.symm

end quiet

/-! #### The inner methods -/

theorem tempBlockSave_move {b : BlockLocals} :
    (s.tempBlockSave env k b).1.toCore = s.toCore ∧
      ∃ q, (s.tempBlockSave env k b).2 =
        .save b (s.toCore.saveReq k q) (savePromise (s.toCore.saveReq k q)) := by
  unfold tempBlockSave
  dsimp only
  rw [persist_snd]
  exact ⟨by simp, _, rfl⟩

/-- `tempBlock` after an await: it has moved on, or it is about to end. -/
theorem tempBlockResume_move {p : BlockPc} {r : Sys × (BlockPc ⊕ BlockLocals)}
    (h : s.tempBlockResume env k p = some r) :
    r.1.toCore = s.toCore ∧
      match r.2 with
      | .inl p' => BlockMove s.toCore k p p'
      | .inr b => ∃ req q, q ≠ .pending ∧ p = .save b req q := by
  have settled : ∀ {q : Promise Unit} {a : Unit}, q.orElse () = some a → q ≠ .pending := by
    rintro q a hq rfl
    cases hq
  cases p with
  | sess b p =>
      obtain ⟨a, ha, rfl⟩ := Option.map_eq_some_iff.mp h
      dsimp only
      split
      · exact ⟨rfl, BlockMove.net _ (settled ha)⟩
      · obtain ⟨hc, q, hq⟩ := @tempBlockSave_move env s k b
        exact ⟨hc, by simpa only [hq] using BlockMove.save q (settled ha)⟩
  | net b netTtl p =>
      obtain ⟨a, ha, rfl⟩ := Option.map_eq_some_iff.mp h
      obtain ⟨hc, q, hq⟩ := @tempBlockSave_move env s k b
      exact ⟨hc, by simpa only [hq] using BlockMove.saveNet q (settled ha)⟩
  | save b req p =>
      obtain ⟨a, ha, rfl⟩ := Option.map_eq_some_iff.mp h
      exact ⟨rfl, req, p, settled ha, rfl⟩

theorem startChallenge_escalates {r : SessionIdent} (hr : (s.conn k).record = some r)
    (score : ℚ) :
    Escalates s.toCore k (s.startChallenge env k r score).1.toCore
      (s.startChallenge env k r score).2 := by
  unfold startChallenge
  split
  · exact Escalates.quiet
  · simp only [toCore_persist, persist_snd, toCore_start, toCore_onCore]
    exact Escalates.challenge _ hr

theorem escalate_escalates (now : ℤ) :
    Escalates s.toCore k (s.escalate env k now).1.toCore (s.escalate env k now).2 := by
  unfold escalate
  dsimp only
  split
  · exact Escalates.quiet
  · split
    · exact Escalates.quiet
    · split
      · exact Escalates.quiet
      · rename_i r hr
        split
        · exact startChallenge_escalates hr _
        · split
          · exact Escalates.block _ hr
          · exact Escalates.quiet

theorem escalateResume_move {e : EscalatePc} {r : Sys × EscalatePc}
    (h : s.escalateResume env k e = some r) : EscalateMove s.toCore k e r.1.toCore r.2 := by
  cases e with
  | returned reason => cases h
  | challenge req p =>
      obtain ⟨a, ha, rfl⟩ := Option.map_eq_some_iff.mp h
      simp only [toCore_sendChallenge]
      refine EscalateMove.challenged ?_
      rintro rfl
      cases ha
  | block b =>
      obtain ⟨⟨t, r'⟩, ht, rfl⟩ := Option.map_eq_some_iff.mp h
      obtain ⟨hc, hm⟩ := tempBlockResume_move ht
      dsimp only at hc hm ⊢
      cases r' with
      | inl b' =>
          dsimp only at hm ⊢
          rw [hc]
          exact EscalateMove.block hm
      | inr b' =>
          obtain ⟨req, q, hq, rfl⟩ := hm
          dsimp only
          rw [toCore_tempBlockEnd, hc]
          exact EscalateMove.blocked hq

/-! #### The handlers -/

/-- The state `t` is reached from the shared state `c` by one stretch of the handler. -/
def Acts (env : Env) (k : ConnKey) (up : Bool) (c : Core) (h : Option Handler) (t : Sys) : Prop :=
  ∃ c₁ h', Act env k up c h c₁ h' ∧ t.toCore = c₁.setHandler k h'

theorem acts_join (resume : Option Token) (v : Option String) (up : Bool) :
    Acts env k up s.toCore none (s.onCore (·.join k resume v)) := by
  unfold Acts
  rw [toCore_onCore, Core.join]
  split
  · exact ⟨_, _, Act.idle (by simp) (by simp), rfl⟩
  · rename_i hj
    cases resume with
    | none => exact ⟨_, _, Act.joinFresh (by simpa using hj), rfl⟩
    | some token => exact ⟨_, _, Act.joinStart (by simpa using hj), rfl⟩

theorem joinCheck_cases (c : Core) (j : JoinCtx) (r : SessionRecord) (token : Token) :
    (r.roomId = (c.roomOf k).roomId ∧ (c.conn k).closed = false ∧
        c.joinCheck k j r token = c.setHandler k (some (.join (.block j r token .pending)))) ∨
      (∃ j', c.joinCheck k j r token =
        c.setHandler k (some (.join (.newsess j' (c.roomOf k) .pending)))) ∨
      c.joinCheck k j r token = c.setHandler k none := by
  unfold Core.joinCheck
  split
  · rename_i hroom
    split
    · exact Or.inr (Or.inr rfl)
    · rename_i hc
      exact Or.inl ⟨hroom, by simpa using hc, rfl⟩
  · split
    · exact Or.inr (Or.inl ⟨_, rfl⟩)
    · exact Or.inr (Or.inr rfl)

theorem acts_joinResume {p : JoinPc} {t : Sys} (h : s.joinResume env k p = some t) :
    Acts env k (s.up k) s.toCore (some (.join p)) t := by
  cases p with
  | resume j token r =>
      obtain ⟨res, hr, rfl⟩ := Option.map_eq_some_iff.mp h
      cases res with
      | wait r' => exact ⟨_, _, Act.joinMove (JoinMove.resume hr), rfl⟩
      | done record =>
          cases record with
          | none => exact ⟨_, _, Act.joinMove (JoinMove.unknown hr), rfl⟩
          | some record => exact ⟨_, _, Act.joinMove (JoinMove.found hr), rfl⟩
  | rejoin j record token p =>
      obtain ⟨churn, hp, rfl⟩ := Option.map_eq_some_iff.mp h
      have hp' : p ≠ .pending := by rintro rfl; cases hp
      unfold Acts
      rw [toCore_onCore, toCore_signalIf]
      rcases joinCheck_cases s.toCore j record token with ⟨hroom, hc, he⟩ | ⟨j', he⟩ | he
      · exact ⟨_, _, Act.joinMove (JoinMove.rejoined hp' hroom hc), he⟩
      · exact ⟨_, _, Act.joinMove JoinMove.retryRejoined, he⟩
      · exact ⟨_, _, Act.idle (by simp) (by simp), he⟩
  | newsess j room p =>
      obtain ⟨created, hp, rfl⟩ := Option.map_eq_some_iff.mp h
      have hp' : p ≠ .pending := by rintro rfl; cases hp
      dsimp only
      split
      · exact ⟨_, _, Act.idle (by simp) (by simp), rfl⟩
      · let q := (((s.signalIf env k (created > env.config.newSessionsPerIpHour)
          .manyNewSessionsFromNetwork).side k).conduct.score.value env.halfPow j.now)
        exact ⟨_, _, Act.joinMove (JoinMove.create
          ⟨(s.conn k).info.net.dailyHash, (s.conn k).info.country, j.now, q, false⟩ hp' rfl rfl), by
          rw [toCore_onCore, toCore_signalIf]; rfl⟩
  | create j p =>
      obtain ⟨⟨res, d⟩, hp, rfl⟩ := Option.map_eq_some_iff.mp h
      unfold Acts
      rw [toCore_onCore, Core.joinCreated]
      cases res with
      | wait p' => exact ⟨_, _, Act.joinMove (JoinMove.creating hp), rfl⟩
      | threw => exact ⟨_, _, Act.joinOver hp, rfl⟩
      | done record token =>
          rcases joinCheck_cases { s.toCore with draws := d } j record token with
            ⟨hroom, hc, he⟩ | ⟨j', he⟩ | he
          · exact ⟨_, _, Act.joinMove (JoinMove.created hp hroom hc), he⟩
          · exact ⟨_, _, Act.joinMove (JoinMove.retryCreated hp), he⟩
          · exact ⟨_, _, Act.joinOver hp, he⟩
  | block j record token p =>
      obtain ⟨ttl, hp, rfl⟩ := Option.map_eq_some_iff.mp h
      split
      · rename_i ht
        rcases Promise.orElse_eq_some.mp hp with hp | ⟨-, rfl⟩
        · exact ⟨_, _, Act.joinBlocked hp ht, rfl⟩
        · exact absurd ht (by decide)
      · rename_i ht
        exact ⟨_, _, Act.joinEnter hp (not_lt.mp ht), rfl⟩
  | history j record token room p =>
      obtain ⟨history, hp, rfl⟩ := Option.map_eq_some_iff.mp h
      refine ⟨_, _, Act.joinWelcome hp, ?_⟩
      simp only [joinWelcome, toCore_finish, toCore_persistSoon, toCore_joinVerify]
      congr 1
      split
      · rw [toCore_sendChallenge, toCore_announce]
      · rfl

/-! #### Sending -/

theorem acts_decideEscalate {c : Core} {h : Option Handler} {up : Bool} {l : SendLocals}
    {site : EscalateSite}
    (ha : ∀ c' e, Escalates s.toCore k c' e →
      Act env k up c h c' (some (.send (.escalate l site e)))) :
    Acts env k up c h (s.decideEscalate env k l site) :=
  ⟨_, _, ha _ _ (escalate_escalates l.now), rfl⟩

theorem acts_decideRate {c : Core} {up : Bool} {l : SendLocals}
    (hs : s.toCore = c.observe (.deciding k (c.conn k).handled l.event))
    (hl : Opens env (c.observe (.deciding k (c.conn k).handled l.event)) k l) :
    Acts env k up c none (s.decideRate env k l) := by
  have limited : ∀ {s' : Sys}, s'.toCore = s.toCore →
      Acts env k up c none (s'.decideEscalate env k l .limited) := by
    intro s' hs'
    refine acts_decideEscalate fun c' e he => ?_
    rw [hs', hs] at he
    exact Act.sendLimited hl he
  unfold decideRate
  dsimp only
  split
  · split
    · exact limited rfl
    · exact ⟨_, _, Act.sendReject hl.record hl.joined, by rw [← hs]; rfl⟩
  · split
    · exact limited rfl
    · exact ⟨_, _, Act.sendOpen hl, by rw [← hs]; rfl⟩

theorem acts_decideSend {c : Core} {up : Bool} {e : SendEvent} {r : SessionIdent}
    (hs : s.toCore = c.observe (.deciding k (c.conn k).handled e))
    (hr : (c.conn k).record = some r) (hj : (c.conn k).joined = true) :
    Acts env k up c none (s.decideSend env k e r) := by
  have rejected : ∀ {s' : Sys} (reason : RejectReason) (hint : Option ℤ), s'.toCore = s.toCore →
      Acts env k up c none (s'.decided k e (rejectWith e reason hint)) := by
    intro s' reason hint hs'
    exact ⟨_, _, Act.sendReject hr hj, by rw [← hs, ← hs']; rfl⟩
  unfold decideSend
  dsimp only
  split
  · exact ⟨_, _, Act.sendSwitch hr hj, by rw [← hs]; rfl⟩
  rename_i htoday
  split
  · exact rejected _ _ rfl
  split
  · exact rejected _ _ rfl
  split
  · exact rejected _ _ rfl
  rename_i hours
  split
  · exact rejected _ _ rfl
  rename_i hblocked
  split
  · exact rejected _ _ (toCore_sendChallenge ..)
  rename_i hpending
  split
  · exact rejected _ _ rfl
  · refine acts_decideRate hs ?_
    dsimp only
    rw [← hs]
    have hconn : s.conn = c.conn := by rw [hs]; rfl
    refine ⟨?_, ?_, rfl, not_not.mp htoday, not_not.mp hours, not_lt.mp hblocked, ?_, rfl, rfl⟩
    · rw [hconn]; exact hr
    · rw [hconn]; exact hj
    · simpa using hpending

theorem acts_handleSend {up : Bool} (e : SendEvent) :
    Acts env k up s.toCore none (s.handleSend env k e) := by
  unfold handleSend
  dsimp only
  split
  · exact ⟨_, _, Act.idle (by simp) (by simp), rfl⟩
  · rename_i r hr
    split
    · exact ⟨_, _, Act.idle (by simp) (by simp), rfl⟩
    · rename_i hj
      split
      · exact ⟨_, _, Act.idle (by simp) (by simp), rfl⟩
      · exact acts_decideSend rfl hr (by simpa using hj)

theorem acts_sendResume {p : SendPc} {t : Sys} (h : s.sendResume env k p = some t) :
    Acts env k (s.up k) s.toCore (some (.send p)) t := by
  cases p with
  | hit l p =>
      obtain ⟨n, hp, rfl⟩ := Option.map_eq_some_iff.mp h
      dsimp only
      split
      · exact ⟨_, _, Act.sendFlood, rfl⟩
      · split
        · exact ⟨_, _, Act.sendDup, by rw [toCore_suspend, toCore_decideSignals]⟩
        · refine acts_decideEscalate fun c' e he => ?_
          rw [toCore_decideSignals] at he
          exact Act.sendEscalate (Or.inl ⟨p, rfl⟩) he
  | dup l p =>
      obtain ⟨n, hp, rfl⟩ := Option.map_eq_some_iff.mp h
      refine acts_decideEscalate fun c' e he => ?_
      rw [toCore_signalIf] at he
      exact Act.sendEscalate (Or.inr ⟨p, rfl⟩) he
  | escalate l site e =>
      have moves : (s.escalateResume env k e).map
            (fun r => r.1.suspend k (.send (.escalate l site r.2))) = some t →
          Acts env k (s.up k) s.toCore (some (.send (.escalate l site e))) t := by
        intro h
        obtain ⟨r, hr, rfl⟩ := Option.map_eq_some_iff.mp h
        exact ⟨_, _, Act.sendEscalating (escalateResume_move hr), rfl⟩
      cases e with
      | returned reason =>
          cases reason with
          | some reason =>
              obtain rfl := Option.some.inj h
              exact ⟨_, _, Act.sendRefused, rfl⟩
          | none =>
              cases site with
              | limited =>
                  obtain rfl := Option.some.inj h
                  exact ⟨_, _, Act.sendRefused, rfl⟩
              | accept =>
                  obtain rfl := Option.some.inj h
                  exact ⟨_, _, Act.sendAccept, rfl⟩
      | challenge req p => exact moves h
      | block b => exact moves h
  | append l room m p =>
      cases p with
      | pending => cases h
      | rejected =>
          obtain rfl := Option.some.inj h
          exact ⟨_, _, Act.appendFailed, rfl⟩
      | fulfilled u =>
          obtain rfl := Option.some.inj h
          exact ⟨_, _, Act.appendDone, rfl⟩
  | publish l room m p =>
      cases p with
      | pending => cases h
      | rejected =>
          obtain rfl := Option.some.inj h
          exact ⟨_, _, Act.publishFailed, rfl⟩
      | fulfilled u =>
          obtain rfl := Option.some.inj h
          exact ⟨_, _, Act.publishDone, rfl⟩
  | reply e reply =>
      obtain rfl := Option.some.inj h
      refine ⟨_, _, Act.sendReply, ?_⟩
      unfold handleSendReply
      cases s.up k <;> rfl

/-! #### Challenges, reports, and the start of a handler -/

theorem acts_challengeResponse {up : Bool} (token : String) :
    Acts env k up s.toCore none (s.challengeResponse k token) := by
  unfold challengeResponse
  dsimp only
  split
  · exact ⟨_, _, Act.idle (by simp) (by simp), rfl⟩
  · rename_i r hr
    split
    · exact ⟨_, _, Act.idle (by simp) (by simp), rfl⟩
    · split
      · exact ⟨_, _, Act.idle (by simp) (by simp), rfl⟩
      · exact ⟨_, _, Act.verify hr, rfl⟩

/-- A stretch that ends in an awaited `persist`. -/
theorem acts_persist {c c₁ : Core} {h : Option Handler} {up : Bool}
    (f : Option SaveReq → Promise Unit → ChallengePc) (hs : s.toCore = c₁)
    (ha : ∀ q, Act env k up c h c₁
      (some (.challenge (f (c₁.saveReq k q) (savePromise (c₁.saveReq k q)))))) :
    Acts env k up c h ((s.persist env k).1.suspend k
      (.challenge (f (s.persist env k).2 (savePromise (s.persist env k).2)))) := by
  subst hs
  refine ⟨_, _, ha (s.snapshot env k), ?_⟩
  rw [toCore_suspend, toCore_persist, persist_snd]

theorem acts_challengeFailed {up : Bool} {token : String} {r : SessionIdent} {now : ℤ}
    {p : Promise Bool} :
    Acts env k up s.toCore (some (.challenge (.verify token r now p)))
      (s.challengeFailed env k r) := by
  unfold challengeFailed
  dsimp only
  split
  · split
    · exact ⟨_, _, Act.failedOver, rfl⟩
    · rename_i r' hr
      have hr' : (s.conn k).record = some r' := by
        simpa [Core.fail, Core.updStanding, Core.updConn] using hr
      exact ⟨_, _, Act.failedBlock "challenge_failed" hr', rfl⟩
  · exact acts_persist ChallengePc.failed rfl fun q => Act.failed q

theorem acts_challengeResume {p : ChallengePc} {t : Sys} (h : s.challengeResume env k p = some t) :
    Acts env k (s.up k) s.toCore (some (.challenge p)) t := by
  cases p with
  | verify token r now p =>
      obtain ⟨ok, hp, rfl⟩ := Option.map_eq_some_iff.mp h
      split
      · exact ⟨_, _, Act.idle (by simp) (by simp), rfl⟩
      · split
        · exact acts_persist ChallengePc.passed rfl fun q => Act.passed q
        · exact acts_challengeFailed
  | passed req p =>
      obtain ⟨a, hp, rfl⟩ := Option.map_eq_some_iff.mp h
      exact ⟨_, _, Act.idle (by simp) (by simp), rfl⟩
  | failed req p =>
      obtain ⟨a, hp, rfl⟩ := Option.map_eq_some_iff.mp h
      exact ⟨_, _, Act.idle (by simp) (by simp), rfl⟩
  | block b =>
      obtain ⟨⟨s', r⟩, hr, rfl⟩ := Option.map_eq_some_iff.mp h
      obtain ⟨hc, hm⟩ := tempBlockResume_move hr
      dsimp only at hc hm ⊢
      cases r with
      | inl b' => exact ⟨_, _, Act.challengeBlock hm, by rw [← hc]; rfl⟩
      | inr b' =>
          obtain ⟨req, q, hq, rfl⟩ := hm
          exact ⟨_, _, Act.challengeBlocked hq, by rw [← hc]; rfl⟩

theorem acts_reportResume {p : ReportPc} {t : Sys} (h : s.reportResume env k p = some t) :
    Acts env k (s.up k) s.toCore (some (.report p)) t := by
  cases p with
  | hit r id reason p =>
      obtain ⟨n, hp, rfl⟩ := Option.map_eq_some_iff.mp h
      split
      · exact ⟨_, _, Act.idle (by simp) (by simp), rfl⟩
      · exact ⟨_, _, Act.reportMove, rfl⟩
  | recent r id reason roomId p =>
      obtain ⟨recent, hp, rfl⟩ := Option.map_eq_some_iff.mp h
      split
      · exact ⟨_, _, Act.idle (by simp) (by simp), rfl⟩
      · exact ⟨_, _, Act.reportMove, rfl⟩
  | event id e p =>
      cases p with
      | pending => cases h
      | rejected =>
          obtain rfl := Option.some.inj h
          exact ⟨_, _, Act.idle (by simp) (by simp), rfl⟩
      | fulfilled u =>
          obtain rfl := Option.some.inj h
          exact ⟨_, _, Act.idle (by simp) (by simp), rfl⟩

/-- A suspended handler goes on by one of the listed stretches. -/
theorem acts_handlerResume {h : Handler} {t : Sys} (ht : s.handlerResume env k h = some t) :
    Acts env k (s.up k) s.toCore (some h) t := by
  cases h with
  | join p => exact acts_joinResume ht
  | send p => exact acts_sendResume ht
  | challenge p => exact acts_challengeResume ht
  | report p => exact acts_reportResume ht

/-- A handler starts by one of the listed stretches. -/
theorem acts_handle (raw : Raw) (up : Bool) : Acts env k up s.toCore none (s.handle env k raw) := by
  have quiet : ∀ {t : Sys}, t.toCore = s.toCore → Acts env k up s.toCore none (t.finish k) :=
    fun ht => ⟨_, _, Act.idle (by simp) (by simp), by rw [toCore_finish, ht]⟩
  unfold handle
  split
  · exact quiet rfl
  · split
    · exact quiet (toCore_invalid ..)
    · exact quiet (toCore_invalid ..)
    · exact quiet (toCore_invalid ..)
    · exact acts_join _ _ _
    · exact acts_handleSend _
    · exact acts_challengeResponse _
    · refine quiet ?_
      dsimp only
      split
      · exact toCore_signalIf ..
      · exact toCore_signalIf ..
    · unfold report
      split
      · exact quiet rfl
      · exact ⟨_, _, Act.reportStart, rfl⟩

end Sys

end RoomBackend
