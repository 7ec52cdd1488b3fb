import RoomBackend.Challenges
import RoomBackend.Replays

/-! # Failed challenges and blocks

The third failed verification of a challenge blocks the session for a while. The count of failures
is part of the record of the session; a passed challenge resets it, a block does not. So the next
failure of a session that was blocked blocks it again, unless it has passed a challenge in
between. -/

namespace RoomBackend

open Async Day Lts

/-! ### What happened to a session -/

/-- A verification of a session failed or succeeded, or a temporary block of it began. -/
inductive Ruling where
  | failed (sid : Sid)
  | passed (sid : Sid)
  | blocked (sid : Sid)
deriving DecidableEq

/-- The failed verifications of a session since its last block or its last passed challenge; the
last ruling stands first. -/
def failures (sid : Sid) : List Ruling → ℕ
  | [] => 0
  | .failed x :: past => failures sid past + if x = sid then 1 else 0
  | .passed x :: past => if x = sid then 0 else failures sid past
  | .blocked x :: past => if x = sid then 0 else failures sid past

/-- The failed verifications of a session since its last passed challenge. -/
def unforgiven (sid : Sid) : List Ruling → ℕ
  | [] => 0
  | .failed x :: past => unforgiven sid past + if x = sid then 1 else 0
  | .passed x :: past => if x = sid then 0 else unforgiven sid past
  | .blocked _ :: past => unforgiven sid past

/-! ### The rulings of a step -/

/-- A temporary block that has just begun. -/
def Handler.begun : Handler → Option BlockLocals
  | .challenge (.block (.sess b .pending)) => some b
  | .send (.escalate _ _ (.block (.sess b .pending))) => some b
  | _ => none

/-- The handlers that can begin a block. -/
theorem Act.begun {env : Env} {k : ConnKey} {up : Bool} {c c₁ : Core} {h h' : Option Handler}
    {b : BlockLocals} (ha : Act env k up c h c₁ h') (hb : h'.bind Handler.begun = some b) :
    (∃ token r now p, h = some (.challenge (.verify token r now p))) ∨
      (∃ x q, h = some (.send (.hit x q)) ∨ h = some (.send (.dup x q))) ∨
        h = none ∧ ∃ e, h'.bind Handler.sending = some e := by
  cases ha with
  | sendLimited hl he => exact Or.inr (Or.inr ⟨rfl, _, rfl⟩)
  | sendEscalate hh he =>
      rcases hh with ⟨q, rfl⟩ | ⟨q, rfl⟩
      · exact Or.inr (Or.inl ⟨_, _, Or.inl rfl⟩)
      · exact Or.inr (Or.inl ⟨_, _, Or.inr rfl⟩)
  | failedBlock reason hr => exact Or.inl ⟨_, _, _, _, rfl⟩
  | sendEscalating he =>
      cases he with
      | challenged => cases hb
      | blocked => cases hb
      | block hm => cases hm <;> cases hb
  | challengeBlock hm => cases hm <;> cases hb
  | _ => cases hb

namespace Sys

/-- The answer to a challenge that the step goes on with: the connection, its session, and whether
it is right. -/
def ruling (s : Sys) : Label → Option (ConnKey × Sid × Bool)
  | .resume (.handler k) =>
      match (s.conn k).handler with
      | some (.challenge (.verify _ r _ p)) =>
          if (s.conn k).closed then none else (p.orElse false).map fun ok => (k, r.sid, ok)
      | _ => none
  | _ => none

/-- The temporary block that the step to `t` has begun. -/
def blocking (t : Sys) : Label → Option BlockLocals
  | .resume (.handler k) => (t.conn k).handler.bind Handler.begun
  | .handle k => (t.conn k).handler.bind Handler.begun
  | _ => none

/-- The verdict on the answer that the step goes on with. -/
def verdict (s : Sys) (l : Label) : List Ruling :=
  ((s.ruling l).map fun x => if x.2.2 then Ruling.passed x.2.1 else Ruling.failed x.2.1).toList

/-- The rulings of a step to `t`, the last one first. -/
def rulings (s : Sys) (l : Label) (t : Sys) : List Ruling :=
  ((t.blocking l).map fun b => Ruling.blocked b.record.sid).toList ++ s.verdict l

/-- The run stays within one day, and a connection that takes up a session finds all others that
hold it closed. -/
structure OneByOne (s : Sys) (l : Label) : Prop where
  oneDay : ∀ k, l ≠ .resume (.rollover k)
  alone : ∀ k r, l = .resume (.handler k) → s.entering k = some r → ∀ j ∈ s.accepted, j ≠ k →
    (s.conn j).record.any (fun r' => r'.sid = r.sid) = true → (s.conn j).closed = true

end Sys

/-- The system, with the rulings so far. -/
def ruled (env : Env) : Machine (Sys × List Ruling) Label :=
  { init := fun x => (∃ t, x.1 = Sys.initial t) ∧ x.2 = []
    step := fun x l => (x.1.step env l).map fun t => (t, x.1.rulings l t ++ x.2) }

/-- The condition on a step: a record that is taken up counts no failure from before the last
passed challenge, and when a verification fails, every failure of the session since its last passed
challenge comes after its last block. -/
structure Forgiven (x : Sys × List Ruling) (l : Label) : Prop extends x.1.OneByOne l where
  current : ∀ k r, l = .resume (.handler k) → x.1.entering k = some r →
    r.challengeFails ≤ unforgiven r.sid x.2
  forgiven : ∀ k sid, x.1.ruling l = some (k, sid, false) →
    unforgiven sid x.2 = failures sid x.2

/-! ### What a stretch does to the counts -/

/-- The session and the failures counted in the records stay. -/
def Conn.SameCount (x y : Conn) : Prop :=
  y.record = x.record ∧ ∀ sid, (y.standing sid).challengeFails = (x.standing sid).challengeFails

theorem Conn.sameCount_refl (x : Conn) : x.SameCount x := ⟨rfl, fun _ => rfl⟩

/-- One record is assigned, but not its count. -/
theorem Conn.sameCount_update {x y : Conn} {sid : Sid} {t : Standing} (hr : y.record = x.record)
    (hs : y.standing = Function.update x.standing sid t)
    (ht : t.challengeFails = (x.standing sid).challengeFails) : x.SameCount y := by
  refine ⟨hr, fun sid' => ?_⟩
  rw [hs]
  exact forall_update
    (P := fun sid (t : Standing) => t.challengeFails = (x.standing sid).challengeFails)
    (fun _ => rfl) ht sid'

theorem Escalates.sameCount {c c' : Core} {k : ConnKey} {e : EscalatePc}
    (he : Escalates c k c' e) : (c.conn k).SameCount (c'.conn k) := by
  cases he with
  | quiet => exact Conn.sameCount_refl _
  | challenge q hr =>
      rw [Core.issue_conn]
      exact Conn.sameCount_update rfl rfl rfl
  | block reason hr =>
      rw [Core.tempBlock_conn]
      exact Conn.sameCount_update rfl rfl rfl

/-- A handler leaves the counts alone, unless it was waiting for a verification or takes a session
up. -/
theorem Act.sameCount {env : Env} {k : ConnKey} {up : Bool} {c c₁ : Core} {h h' : Option Handler}
    (ha : Act env k up c h c₁ h') (hh : (c.conn k).handler = h)
    (hv : ∀ token r now p, h ≠ some (.challenge (.verify token r now p))) :
    (c.conn k).SameCount (c₁.conn k) ∨
      ∃ r token, c.entering k = some r ∧ c₁ = c.enter k r token := by
  cases ha with
  | joinBlocked hp ht =>
      refine Or.inl ?_
      rw [Core.mute_conn]
      exact ⟨rfl, fun _ => rfl⟩
  | joinEnter hp ht => exact Or.inr ⟨_, _, Core.entering_eq hh hp ht, rfl⟩
  | joinWelcome hp =>
      refine Or.inl ?_
      rw [Core.announce_conn]
      exact ⟨rfl, fun _ => rfl⟩
  | sendSwitch hr hj =>
      refine Or.inl ?_
      rw [Core.checkRoom_conn]
      exact Conn.sameCount_refl _
  | sendLimited hl he => exact Or.inl he.sameCount
  | sendEscalate hh' he => exact Or.inl he.sameCount
  | sendEscalating he =>
      refine Or.inl ?_
      cases he with
      | challenged => exact Conn.sameCount_refl _
      | block => exact Conn.sameCount_refl _
      | blocked hp =>
          rw [Core.blockEnd_conn]
          exact ⟨rfl, fun _ => rfl⟩
  | sendReply =>
      refine Or.inl ?_
      split
      · exact Conn.sameCount_refl _
      · exact Conn.sameCount_refl _
  | challengeBlocked hp =>
      refine Or.inl ?_
      rw [Core.blockEnd_conn]
      exact ⟨rfl, fun _ => rfl⟩
  | passed q => exact absurd rfl (hv _ _ _ _)
  | failed q => exact absurd rfl (hv _ _ _ _)
  | failedOver => exact absurd rfl (hv _ _ _ _)
  | failedBlock reason hr => exact absurd rfl (hv _ _ _ _)
  | _ => exact Or.inl (Conn.sameCount_refl _)

theorem Handler.settle_verify {env : Env} {now : ℤ} {v : Bool} {k : ConnKey} {n : ℕ}
    {info : AdmitInfo} {o : Outcome} {h : Handler} {w w' : World} {token : String}
    {r : SessionIdent} {at_ : ℤ} {p : Promise Bool}
    (hs : h.settle env now v k n info o w = some (.challenge (.verify token r at_ p), w')) :
    ∃ q, h = .challenge (.verify token r at_ q) := by
  cases h with
  | challenge x =>
      obtain ⟨⟨y, w₁⟩, hy, he⟩ := Option.map_eq_some_iff.mp hs
      cases he
      cases x with
      | verify token' r' now' q =>
          obtain ⟨z, -, he'⟩ := Option.map_eq_some_iff.mp hy
          cases he'
          exact ⟨q, rfl⟩
      | _ =>
          obtain ⟨z, -, he'⟩ := Option.map_eq_some_iff.mp hy
          cases he'
  | _ =>
      obtain ⟨y, -, he⟩ := Option.map_eq_some_iff.mp hs
      cases he

namespace Sys

variable {env : Env} {s t : Sys} {l : Label} {k : ConnKey}

/-- A connection whose handler is not waiting for a verification keeps its session and its counts,
or is new, or takes a session up. -/
theorem sameCount_step (h : s.step env l = some t) (hl : ∀ k, l ≠ .resume (.rollover k))
    (hv : l = .resume (.handler k) → ∀ token r now p,
      (s.conn k).handler ≠ some (.challenge (.verify token r now p))) :
    (s.conn k).SameCount (t.conn k) ∨ (t.conn k).record = none ∨
      l = .resume (.handler k) ∧ ∃ r, s.entering k = some r ∧
        (t.conn k).record = some r.toSessionIdent ∧ (t.conn k).standing r.sid = r.toStanding := by
  have hc := (coreStep h).conn k
  generalize t.conn k = y at hc
  cases hc with
  | act hl' hh ha =>
      rcases ha.sameCount hh (fun token r now p he => hv hl' token r now p (hh.trans he)) with
        hs | ⟨r, token, he, rfl⟩
      · exact Or.inl ⟨hs.1, hs.2⟩
      · refine Or.inr (Or.inr ⟨hl', r, he, ?_, ?_⟩)
        · rw [Core.enter_conn]
        · rw [Core.enter_conn]
          exact Function.update_self ..
  | handle hl' hk hh ha =>
      have hh' : ((s.toCore.take k).conn k).handler = none := by
        rw [Core.take_conn]
        exact hh
      rcases ha.sameCount hh' (fun _ _ _ _ he => by cases he) with hs | ⟨r, token, he, -⟩
      · rw [Core.take_conn] at hs
        exact Or.inl ⟨hs.1, hs.2⟩
      · rw [Core.entering, hh'] at he
        cases he
  | accepted => exact Or.inr (Or.inl rfl)
  | renewed hl' => exact absurd hl' (hl k)
  | _ => exact Or.inl ⟨rfl, fun _ => rfl⟩

/-! ### Which blocks begin where -/

/-- The block that the handler of a connection has just begun. -/
def begun (s : Sys) (k : ConnKey) : Option BlockLocals := (s.conn k).handler.bind Handler.begun

theorem begun_suspend (x : Handler) : (s.suspend k x).begun k = x.begun := by
  show ((s.toCore.setHandler k (some x)).conn k).handler.bind _ = _
  rw [Core.setHandler_conn]
  rfl

theorem begun_finish : (s.finish k).begun k = none := by
  show ((s.toCore.setHandler k none).conn k).handler.bind _ = _
  rw [Core.setHandler_conn]
  rfl

/-- An escalation blocks for severe automation. -/
theorem reason_escalate {now : ℤ} {b : BlockLocals} {p : Promise Unit}
    (h : (s.escalate env k now).2 = .block (.sess b p)) : b.reason = "severe_automation" := by
  unfold escalate at h
  dsimp only at h
  split at h
  · cases h
  · split at h
    · cases h
    · split at h
      · cases h
      · split at h
        · unfold startChallenge at h
          split at h
          · cases h
          · cases h
        · split at h
          · obtain ⟨rfl, -⟩ := BlockPc.sess.inj (EscalatePc.block.inj h)
            rfl
          · cases h

theorem begun_decideEscalate {x : SendLocals} {site : EscalateSite} {b : BlockLocals}
    (hb : (s.decideEscalate env k x site).begun k = some b) : b.reason = "severe_automation" := by
  unfold decideEscalate at hb
  dsimp only at hb
  rw [begun_suspend] at hb
  unfold Handler.begun at hb
  split at hb
  · rename_i he
    cases he
  · rename_i he
    obtain ⟨-, -, hpc⟩ := SendPc.escalate.inj (Handler.send.inj he)
    obtain rfl := Option.some.inj hb
    exact reason_escalate hpc
  · cases hb

theorem begun_decideRate {x : SendLocals} {b : BlockLocals}
    (hb : (s.decideRate env k x).begun k = some b) : b.reason = "severe_automation" := by
  unfold decideRate at hb
  dsimp only at hb
  split at hb
  · split at hb
    · exact begun_decideEscalate hb
    · unfold decided at hb
      rw [begun_suspend] at hb
      cases hb
  · split at hb
    · exact begun_decideEscalate hb
    · rw [begun_suspend] at hb
      cases hb

theorem begun_decideSend {e : SendEvent} {r : SessionIdent} {b : BlockLocals}
    (hb : (s.decideSend env k e r).begun k = some b) : b.reason = "severe_automation" := by
  have hdecided : ∀ (u : Sys) (reply : ServerEvent), (u.decided k e reply).begun k ≠ some b :=
    fun u reply hu => by
      unfold decided at hu
      rw [begun_suspend] at hu
      cases hu
  unfold decideSend at hb
  dsimp only at hb
  split_ifs at hb
  · exact absurd hb (hdecided _ _)
  · exact absurd hb (hdecided _ _)
  · exact absurd hb (hdecided _ _)
  · exact absurd hb (hdecided _ _)
  · exact absurd hb (hdecided _ _)
  · exact absurd hb (hdecided _ _)
  · split at hb
    · exact absurd hb (hdecided _ _)
    · exact begun_decideRate hb

theorem begun_sendResume {p : SendPc} {b : BlockLocals} (hp : (∃ x q, p = .hit x q) ∨
    ∃ x q, p = .dup x q) (h : s.sendResume env k p = some t) (hb : t.begun k = some b) :
    b.reason = "severe_automation" := by
  rcases hp with ⟨x, q, rfl⟩ | ⟨x, q, rfl⟩
  · obtain ⟨n, -, rfl⟩ := Option.map_eq_some_iff.mp h
    dsimp only at hb
    split_ifs at hb
    · unfold decided at hb
      rw [begun_suspend] at hb
      cases hb
    · rw [begun_suspend] at hb
      cases hb
    · exact begun_decideEscalate hb
  · obtain ⟨n, -, rfl⟩ := Option.map_eq_some_iff.mp h
    exact begun_decideEscalate hb

theorem begun_handle {e : SendEvent} {b : BlockLocals}
    (hb : (s.handle env k (.event (.send e))).begun k = some b) :
    b.reason = "severe_automation" := by
  have hnone : ∀ u : Sys, (u.finish k).begun k ≠ some b := fun u hu => by
    rw [begun_finish] at hu
    cases hu
  unfold handle at hb
  split at hb
  · exact absurd hb (hnone _)
  · unfold handleSend at hb
    dsimp only at hb
    split at hb
    · exact absurd hb (hnone _)
    · split at hb
      · exact absurd hb (hnone _)
      · split at hb
        · exact absurd hb (hnone _)
        · exact begun_decideSend hb

/-- A block for another reason begins where a verification fails. -/
theorem verify_of_blocking {b : BlockLocals} (h : s.step env l = some t)
    (hb : t.blocking l = some b) (hne : b.reason ≠ "severe_automation") :
    ∃ k token r now p, l = .resume (.handler k) ∧
      (s.conn k).handler = some (.challenge (.verify token r now p)) ∧
      s.challengeResume env k (.verify token r now p) = some t ∧ t.begun k = some b := by
  have hact : ∀ {k : ConnKey} {up : Bool} {c : Core} {x : Option Handler},
      Acts env k up c x t → t.begun k = some b →
      (∃ token r now p, x = some (.challenge (.verify token r now p))) ∨
        (∃ y q, x = some (.send (.hit y q)) ∨ x = some (.send (.dup y q))) ∨
          x = none ∧ ∃ e, t.sending k = some e := by
    rintro k up c x ⟨c₁, h', ha, ht⟩ hk
    have hh : (t.conn k).handler = h' := by
      show (t.toCore.conn k).handler = h'
      rw [ht, Core.setHandler_conn]
    unfold begun at hk
    rw [hh] at hk
    unfold sending
    rw [hh]
    exact ha.begun hk
  unfold blocking at hb
  split at hb
  · rename_i k
    obtain ⟨x, hx, hu⟩ := Option.bind_eq_some_iff.mp h
    rcases hact (acts_handlerResume hu) hb with ⟨token, r, now, p, hv⟩ | ⟨y, q, hy⟩ | ⟨hn, -⟩
    · cases hv
      exact ⟨k, token, r, now, p, rfl, hx, hu, hb⟩
    · refine absurd ?_ hne
      rcases hy with hy | hy
      · cases hy
        exact begun_sendResume (Or.inl ⟨_, _, rfl⟩) hu hb
      · cases hy
        exact begun_sendResume (Or.inr ⟨_, _, rfl⟩) hu hb
    · cases hn
  · rename_i k
    obtain ⟨-, hn⟩ := Option.ite_none_right_eq_some.mp h
    unfold handleNext at hn
    split at hn
    · cases hn
      rcases hact (acts_handle _ true) hb with ⟨_, _, _, _, hv⟩ | ⟨_, _, hy⟩ | ⟨-, e, he⟩
      · cases hv
      · rcases hy with hy | hy
        · cases hy
        · cases hy
      · obtain ⟨rfl, -⟩ := sending_handle he
        exact absurd (begun_handle hb) hne
    · cases hn
  · cases hb

/-! ### A verification is over -/

theorem ruling_verify {token : String} {r : SessionIdent} {now : ℤ} {p : Promise Bool}
    (hh : (s.conn k).handler = some (.challenge (.verify token r now p))) :
    s.ruling (.resume (.handler k)) =
      if (s.conn k).closed then none else (p.orElse false).map fun ok => (k, r.sid, ok) := by
  unfold ruling
  dsimp only
  rw [hh]

theorem ruling_eq {sid : Sid} {ok : Bool} (h : s.ruling l = some (k, sid, ok)) :
    ∃ token r now p, l = .resume (.handler k) ∧ r.sid = sid ∧ (s.conn k).closed = false ∧
      (s.conn k).handler = some (.challenge (.verify token r now p)) ∧
        p.orElse false = some ok := by
  unfold ruling at h
  split at h
  · split at h
    · rename_i k' x token r now p hh
      split at h
      · cases h
      · rename_i hc
        obtain ⟨ok', hp, he⟩ := Option.map_eq_some_iff.mp h
        cases he
        exact ⟨token, r, now, p, rfl, rfl, Bool.eq_false_of_not_eq_true hc, hh, hp⟩
    · cases h
  · cases h

theorem challengeResume_verify {token : String} {r : SessionIdent} {now : ℤ} {p : Promise Bool}
    {ok : Bool} (hc : (s.conn k).closed = false) (hp : p.orElse false = some ok)
    (h : s.challengeResume env k (.verify token r now p) = some t) :
    t = if ok then s.challengePassed env k r now else s.challengeFailed env k r := by
  obtain ⟨ok', hp', rfl⟩ := Option.map_eq_some_iff.mp h
  obtain rfl := Option.some.inj (hp.symm.trans hp')
  rw [if_neg (by rw [hc]; exact Bool.false_ne_true)]

/-- A wrong answer is counted, and a block begins if it is at least the third. -/
theorem wrong_step {token : String} {r : SessionIdent} {now : ℤ} {p : Promise Bool}
    (hr : (s.conn k).record = some r) (hc : (s.conn k).closed = false)
    (hp : p.orElse false = some false)
    (h : s.challengeResume env k (.verify token r now p) = some t) :
    (t.conn k).record = some r ∧
      (∀ sid, ((t.conn k).standing sid).challengeFails =
        ((s.conn k).standing sid).challengeFails + if r.sid = sid then 1 else 0) ∧
      ∀ b, t.begun k = some b →
        b.record = r ∧ 3 ≤ ((s.conn k).standing r.sid).challengeFails + 1 := by
  have ht : t = s.challengeFailed env k r := challengeResume_verify hc hp h
  subst ht
  obtain ⟨u, hu, hcore⟩ : ∃ u : Sys, u = (s.onCore (·.fail k r)).send k (.challengeResult false) ∧
      u.toCore = s.toCore.fail k r := ⟨_, rfl, toCore_send ..⟩
  have hconn : u.conn k = { s.conn k with
      standing := Function.update (s.conn k).standing r.sid { (s.conn k).standing r.sid with
        challengeFails := ((s.conn k).standing r.sid).challengeFails + 1 } } := by
    show u.toCore.conn k = _
    rw [hcore, Core.fail_conn]
  have hcount : ∀ sid, ((u.conn k).standing sid).challengeFails =
      ((s.conn k).standing sid).challengeFails + if r.sid = sid then 1 else 0 := by
    intro sid
    rw [hconn]
    dsimp only
    by_cases hs : r.sid = sid
    · subst hs
      rw [Function.update_self, if_pos rfl]
    · rw [Function.update_of_ne (Ne.symm hs), if_neg hs, Nat.add_zero]
  have hrec : (u.conn k).record = some r := by
    rw [hconn]
    exact hr
  unfold challengeFailed
  rw [← hu]
  dsimp only
  split
  · rename_i hge
    rw [hrec]
    dsimp only
    have hblock : (u.onCore fun _ => (u.toCore.tempBlock k r "challenge_failed").1.suspend k
        (.challenge (.block (u.toCore.tempBlock k r "challenge_failed").2))).conn k =
        { (u.toCore.tempBlock k r "challenge_failed").1.conn k with
          handler := some (.challenge (.block (u.toCore.tempBlock k r "challenge_failed").2)) } :=
      Core.setHandler_conn ..
    have hsame : (u.conn k).SameCount ((u.toCore.tempBlock k r "challenge_failed").1.conn k) := by
      rw [Core.tempBlock_conn]
      exact Conn.sameCount_update rfl rfl rfl
    unfold begun
    rw [hblock]
    refine ⟨hsame.1.trans hrec, fun sid => (hsame.2 sid).trans (hcount sid), fun b hb => ?_⟩
    · cases hb
      rw [hcount, if_pos rfl] at hge
      exact ⟨rfl, hge⟩
  · have hquiet : ((u.persist env k).1.suspend k
        (.challenge (.failed (u.persist env k).2 (savePromise (u.persist env k).2)))).conn k =
        { u.conn k with handler := some (.challenge (.failed (u.persist env k).2
          (savePromise (u.persist env k).2))) } := by
      show (Sys.toCore _).conn k = _
      rw [toCore_suspend, toCore_persist, Core.setHandler_conn]
    unfold begun
    rw [hquiet]
    refine ⟨hrec, hcount, fun b hb => ?_⟩
    cases hb

theorem correct_step {token : String} {r : SessionIdent} {now : ℤ} {p : Promise Bool}
    (hr : (s.conn k).record = some r) (hc : (s.conn k).closed = false)
    (hp : p.orElse false = some true)
    (h : s.challengeResume env k (.verify token r now p) = some t) :
    (t.conn k).record = some r ∧
      (∀ sid, ((t.conn k).standing sid).challengeFails =
        if r.sid = sid then 0 else ((s.conn k).standing sid).challengeFails) ∧
      t.begun k = none := by
  have ht : t = s.challengePassed env k r now := challengeResume_verify hc hp h
  subst ht
  have hconn : (s.challengePassed env k r now).conn k =
      { (s.toCore.pass k r (now + TRUST_WINDOW_MS)).conn k with
        handler := ((s.challengePassed env k r now).conn k).handler } := by
    unfold challengePassed
    dsimp only
    rw [toCore_suspend, toCore_persist, Core.setHandler_conn]
    rfl
  refine ⟨?_, fun sid => ?_, ?_⟩
  · rw [hconn, Core.pass_conn]
    exact hr
  · rw [hconn, Core.pass_conn]
    dsimp only
    by_cases hs : r.sid = sid
    · subst hs
      rw [Function.update_self, if_pos rfl]
    · rw [Function.update_of_ne (Ne.symm hs), if_neg hs]
  · exact begun_suspend _

/-! ### The invariant -/

theorem open_step (h : s.step env l = some t) (hc : (t.conn k).closed = false) :
    (s.conn k).closed = false ∨ (t.conn k).record = none := by
  have hx := (coreStep h).conn k
  generalize t.conn k = y at hx hc
  cases hx with
  | act hl hh ha => exact Or.inl (ha.kept.closed.symm.trans hc)
  | handle hl hk hh ha =>
      have hcl := ha.kept.closed
      rw [Core.take_conn] at hcl
      exact Or.inl (hcl.symm.trans hc)
  | accepted => exact Or.inr rfl
  | shut => cases hc
  | _ => exact Or.inl hc

/-- A verification is started for the session the connection holds, which it keeps for the day. -/
theorem own_step (h : s.step env l = some t) (hl : ∀ k, l ≠ .resume (.rollover k))
    (ho : ∀ token r now p, (s.conn k).handler = some (.challenge (.verify token r now p)) →
      (s.conn k).record = some r) (token : String) (r : SessionIdent) (now : ℤ) (p : Promise Bool)
    (hv : (t.conn k).handler = some (.challenge (.verify token r now p))) :
    (t.conn k).record = some r := by
  have hx := (coreStep h).conn k
  generalize t.conn k = y at hx hv
  cases hx with
  | act hl' hh ha =>
      cases hv
      cases ha
  | handle hl' hk hh ha =>
      cases hv
      cases ha with
      | verify hr => exact hr
  | settled hl' hh hset =>
      cases hv
      obtain ⟨q, rfl⟩ := Handler.settle_verify hset
      exact ho _ _ _ _ hh
  | accepted => cases hv
  | renewed hl' => exact absurd hl' (hl k)
  | _ => exact ho _ _ _ _ hv

/-- A count of the failures of the session, after the verdict of the step. -/
def recount (s : Sys) (l : Label) (sid : Sid) (n : ℕ) : ℕ :=
  match s.ruling l with
  | some (_, x, ok) => if x = sid then if ok then 0 else n + 1 else n
  | none => n

theorem recount_of_none (h : s.ruling l = none) (sid : Sid) (n : ℕ) : s.recount l sid n = n := by
  unfold recount
  rw [h]

theorem recount_mono {sid : Sid} {m n : ℕ} (h : m ≤ n) :
    s.recount l sid m ≤ s.recount l sid n := by
  unfold recount
  split
  · split_ifs
    · exact le_refl 0
    · exact Nat.succ_le_succ h
    · exact h
  · exact h

theorem unforgiven_rulings (sid : Sid) (past : List Ruling) :
    unforgiven sid (s.rulings l t ++ past) = s.recount l sid (unforgiven sid past) := by
  have hblock : ∀ b : Option BlockLocals, unforgiven sid
      (((b.map fun b => Ruling.blocked b.record.sid).toList ++ s.verdict l) ++ past) =
        unforgiven sid (s.verdict l ++ past) := fun b => by cases b <;> rfl
  unfold rulings
  rw [hblock]
  unfold verdict recount
  cases s.ruling l with
  | none => rfl
  | some x =>
      obtain ⟨k, y, ok⟩ := x
      cases ok with
      | true => rfl
      | false =>
          show unforgiven sid past + (if y = sid then 1 else 0) =
            if y = sid then unforgiven sid past + 1 else unforgiven sid past
          split_ifs <;> rfl

/-- One connection counts the verdict of the step, the others do not. -/
theorem count_step (h : s.step env l = some t) (hl : ∀ k, l ≠ .resume (.rollover k))
    (ho : ∀ k token r now p, (s.conn k).handler = some (.challenge (.verify token r now p)) →
      (s.conn k).record = some r) (m : ConnKey) :
    (t.conn m).record = none ∨
      (l = .resume (.handler m) ∧ s.ruling l = none ∧ ∃ r, s.entering m = some r ∧
        (t.conn m).record = some r.toSessionIdent ∧ (t.conn m).standing r.sid = r.toStanding) ∨
      (t.conn m).record = (s.conn m).record ∧ ∀ sid, ((t.conn m).standing sid).challengeFails =
        if l = .resume (.handler m) then s.recount l sid ((s.conn m).standing sid).challengeFails
        else ((s.conn m).standing sid).challengeFails := by
  by_cases hv : l = .resume (.handler m) ∧
      ∃ token r now p, (s.conn m).handler = some (.challenge (.verify token r now p))
  · obtain ⟨rfl, token, r, now, p, hh⟩ := hv
    have hr := ho _ _ _ _ _ hh
    obtain ⟨x, hx, hu⟩ := Option.bind_eq_some_iff.mp h
    obtain rfl := Option.some.inj (hh.symm.trans hx)
    have hu : s.challengeResume env m (.verify token r now p) = some t := hu
    refine Or.inr (Or.inr ?_)
    have hrule := ruling_verify hh
    cases hp : p.orElse false with
    | none =>
        obtain ⟨ok, hok, -⟩ := Option.map_eq_some_iff.mp hu
        cases hp.symm.trans hok
    | some ok =>
        rw [hp] at hrule
        cases hc : (s.conn m).closed with
        | true =>
            obtain ⟨ok', hp', rfl⟩ := Option.map_eq_some_iff.mp hu
            rw [if_pos hc]
            rw [if_pos hc] at hrule
            refine ⟨?_, fun sid => ?_⟩
            · show ((s.toCore.setHandler m none).conn m).record = _
              rw [Core.setHandler_conn]
            · rw [if_pos rfl, recount_of_none hrule]
              show (((s.toCore.setHandler m none).conn m).standing sid).challengeFails = _
              rw [Core.setHandler_conn]
        | false =>
            rw [if_neg (by rw [hc]; exact Bool.false_ne_true)] at hrule
            have hcount : ∀ sid n, s.recount (.resume (.handler m)) sid n =
                if r.sid = sid then if ok then 0 else n + 1 else n := fun sid n => by
              unfold recount
              rw [hrule]
              rfl
            cases ok with
            | true =>
                obtain ⟨hr', hf, -⟩ := correct_step hr hc hp hu
                refine ⟨hr'.trans hr.symm, fun sid => ?_⟩
                rw [if_pos rfl, hf, hcount, if_pos rfl]
            | false =>
                obtain ⟨hr', hf, -⟩ := wrong_step hr hc hp hu
                refine ⟨hr'.trans hr.symm, fun sid => ?_⟩
                rw [if_pos rfl, hf, hcount, if_neg Bool.false_ne_true]
                split_ifs <;> rfl
  · have hnone : l = .resume (.handler m) → s.ruling l = none := by
      intro hm
      by_contra hne
      obtain ⟨⟨k, sid, ok⟩, hx⟩ := Option.ne_none_iff_exists'.mp hne
      obtain ⟨token, r, now, p, hk, -, -, hh, -⟩ := ruling_eq hx
      cases hm.symm.trans hk
      exact hv ⟨hm, token, r, now, p, hh⟩
    rcases sameCount_step h hl (fun hm token r now p hh => hv ⟨hm, token, r, now, p, hh⟩) with
      hs | hn | ⟨hm, r, he, hr, hst⟩
    · refine Or.inr (Or.inr ⟨hs.1, fun sid => (hs.2 sid).trans ?_⟩)
      split_ifs with hm
      · rw [recount_of_none (hnone hm)]
      · rfl
    · exact Or.inl hn
    · exact Or.inr (Or.inl ⟨hm, hnone hm, r, he, hr, hst⟩)

end Sys

/-- An open connection counts at most the failures of its session since the last passed challenge;
a verification is one of the session held; no two open connections hold one session. -/
structure Judged (x : Sys × List Ruling) : Prop where
  counted : ∀ k r, (x.1.conn k).closed = false → (x.1.conn k).record = some r →
    ((x.1.conn k).standing r.sid).challengeFails ≤ unforgiven r.sid x.2
  own : ∀ k token r now p, (x.1.conn k).handler = some (.challenge (.verify token r now p)) →
    (x.1.conn k).record = some r
  single : ∀ j k r r', (x.1.conn j).closed = false → (x.1.conn k).closed = false →
    (x.1.conn j).record = some r → (x.1.conn k).record = some r' → r.sid = r'.sid → j = k

namespace Judged

variable {env : Env} {x y : Sys × List Ruling} {l : Label}

/-- A ruling that is not of the session leaves the count alone. -/
theorem counted_step {t : Sys} (hI : Judged x) (hF : Forgiven x l) (h : x.1.step env l = some t)
    {m : ConnKey} {r : SessionIdent} (hm : (t.conn m).closed = false)
    (hr : (t.conn m).record = some r) :
    ((t.conn m).standing r.sid).challengeFails ≤ x.1.recount l r.sid (unforgiven r.sid x.2) := by
  have hopen : (x.1.conn m).closed = false := by
    rcases Sys.open_step h hm with ho | hn
    · exact ho
    · rw [hn] at hr
      cases hr
  rcases Sys.count_step h hF.oneDay hI.own m with hn | ⟨hl, hrule, r', he, hr', hst⟩ | ⟨hrec, hf⟩
  · rw [hn] at hr
    cases hr
  · obtain rfl := Option.some.inj (hr.symm.trans hr')
    rw [Sys.recount_of_none hrule]
    refine le_trans (le_of_eq ?_) (hF.current m r' hl he)
    exact congrArg Standing.challengeFails hst
  · rw [hrec] at hr
    have hle := hI.counted m r hopen hr
    rw [hf]
    split_ifs with hl
    · exact Sys.recount_mono hle
    · -- another connection is judged, for another session
      unfold Sys.recount
      split
      · rename_i k sid ok hrule
        obtain ⟨token, r', now, p, hk, rfl, hcl, hh, -⟩ := Sys.ruling_eq hrule
        rw [if_neg ?_]
        · exact hle
        · intro hsid
          refine hl ?_
          rw [hI.single m k r r' hopen hcl hr (hI.own _ _ _ _ _ hh) hsid.symm]
          exact hk
      · exact hle

theorem single_step {t : Sys} (hI : Judged x) (hB : Born x.1.toCore) (hF : Forgiven x l)
    (h : x.1.step env l = some t) (j k : ConnKey) (r r' : SessionIdent)
    (hj : (t.conn j).closed = false) (hk : (t.conn k).closed = false)
    (hr : (t.conn j).record = some r) (hr' : (t.conn k).record = some r')
    (hsid : r.sid = r'.sid) : j = k := by
  have hwas : ∀ {m : ConnKey} {r : SessionIdent}, (t.conn m).closed = false →
      (t.conn m).record = some r → (x.1.conn m).closed = false := by
    intro m r hm hr
    rcases Sys.open_step h hm with ho | hn
    · exact ho
    · rw [hn] at hr
      cases hr
  -- a connection that takes up the session finds no other that is open
  have hfirst : ∀ {m n : ConnKey} {r' : SessionIdent} {r₀ : SessionRecord},
      l = .resume (.handler m) → x.1.entering m = some r₀ → r₀.sid = r'.sid →
      (x.1.conn n).closed = false → (x.1.conn n).record = some r' → n = m := by
    intro m n r' r₀ hl he hs hn hr
    by_contra hne
    by_cases hacc : n ∈ x.1.accepted
    · have hany : (x.1.conn n).record.any (fun r => r.sid = r₀.sid) = true := by
        rw [hr]
        exact decide_eq_true hs.symm
      rw [hF.alone m r₀ hl he n hacc hne hany] at hn
      cases hn
    · rw [hB.unborn n hacc] at hr
      cases hr
  have hjs := hwas hj hr
  have hks := hwas hk hr'
  rcases Sys.count_step h hF.oneDay hI.own j with hn | ⟨hlj, -, r₁, hej, hrj, -⟩ | ⟨hrj, -⟩
  · rw [hn] at hr
    cases hr
  · rcases Sys.count_step h hF.oneDay hI.own k with hn | ⟨hlk, -, -⟩ | ⟨hrk, -⟩
    · rw [hn] at hr'
      cases hr'
    · cases hlj.symm.trans hlk
      rfl
    · obtain rfl := Option.some.inj (hr.symm.trans hrj)
      rw [hrk] at hr'
      exact (hfirst hlj hej hsid hks hr').symm
  · rw [hrj] at hr
    rcases Sys.count_step h hF.oneDay hI.own k with hn | ⟨hlk, -, r₁, hek, hrk, -⟩ | ⟨hrk, -⟩
    · rw [hn] at hr'
      cases hr'
    · obtain rfl := Option.some.inj (hr'.symm.trans hrk)
      exact hfirst hlk hek hsid.symm hjs hr
    · rw [hrk] at hr'
      exact hI.single j k r r' hjs hks hr hr' hsid

theorem step (hI : Judged x) (hB : Born x.1.toCore) (hF : Forgiven x l)
    (h : (ruled env).step x l = some y) : Judged y := by
  obtain ⟨t, ht, rfl⟩ := Option.map_eq_some_iff.mp h
  refine ⟨fun m r hm hr => ?_, fun m => ?_, hI.single_step hB hF ht⟩
  · rw [Sys.unforgiven_rulings]
    exact hI.counted_step hF ht hm hr
  · exact Sys.own_step ht hF.oneDay (hI.own m)

/-- A block that begins for failed verifications. -/
theorem three_failures (hI : Judged x) (hF : Forgiven x l) {t : Sys} {b : BlockLocals}
    (h : x.1.step env l = some t) (hb : t.blocking l = some b)
    (hne : b.reason ≠ "severe_automation") : 3 ≤ failures b.record.sid (x.1.verdict l ++ x.2) := by
  obtain ⟨k, token, r, now, p, rfl, hh, hu, hk⟩ := Sys.verify_of_blocking h hb hne
  have hr := hI.own _ _ _ _ _ hh
  have hrule := Sys.ruling_verify hh
  obtain ⟨ok, hp, ht⟩ := Option.map_eq_some_iff.mp hu
  cases hc : (x.1.conn k).closed with
  | true =>
      rw [if_pos hc] at ht
      rw [← ht, Sys.begun_finish] at hk
      cases hk
  | false =>
      rw [if_neg (by rw [hc]; exact Bool.false_ne_true), hp] at hrule
      cases ok with
      | true =>
          rw [(Sys.correct_step hr hc hp hu).2.2] at hk
          cases hk
      | false =>
          obtain ⟨rfl, hge⟩ := (Sys.wrong_step hr hc hp hu).2.2 b hk
          have hle := hI.counted k _ hc hr
          rw [hF.forgiven k _ hrule] at hle
          unfold Sys.verdict
          rw [hrule]
          show 3 ≤ failures _ x.2 + if b.record.sid = b.record.sid then 1 else 0
          rw [if_pos rfl]
          exact hge.trans (Nat.succ_le_succ hle)

end Judged

/-! ### Runs -/

theorem ruled_fst {env : Env} {x : Sys × List Ruling}
    (h : (ruled env).Reaches (fun _ _ => True) x) : (system env).Reaches Free x.1 := by
  have hb : ((system env).beside [] fun s l t past => s.rulings l t ++ past).Reaches Free x := h
  exact hb.fst

theorem judged_of_reaches {env : Env} {x : Sys × List Ruling}
    (h : (ruled env).Reaches Forgiven x) : Judged x := by
  refine Machine.Reaches.invariant_of (J := fun x => Born x.1.toCore) (I := Judged)
    (fun x hx => born_of_reaches (ruled_fst (hx.mono fun _ _ _ => trivial))) ?_ ?_ h
  · rintro ⟨s, past⟩ ⟨⟨t, rfl⟩, -⟩
    refine ⟨fun k r _ hr => ?_, fun k token r now p hh => ?_, fun j k r r' _ _ hr => ?_⟩
    · cases hr
    · cases hh
    · cases hr
  · exact fun x l y hB hI hF hs => hI.step hB hF hs

/-- **Attempts.** In every run of one day in which a session is taken up by one connection after the
other, no record that is taken up counts a failure from before the last passed challenge of its
session, and no verification fails of a session that was blocked after a failure it has not been
forgiven: every block for failed challenges comes with the third failure at least, since the last
block or the last passed challenge. -/
theorem blocks_cost_three {env : Env} {x y : Sys × List Ruling} {l : Label} {b : BlockLocals}
    (hx : (ruled env).Reaches Forgiven x) (hl : Forgiven x l) (h : (ruled env).step x l = some y)
    (hb : y.1.blocking l = some b) (hreason : b.reason = "challenge_failed") :
    3 ≤ failures b.record.sid (x.1.verdict l ++ x.2) := by
  obtain ⟨t, ht, rfl⟩ := Option.map_eq_some_iff.mp h
  refine (judged_of_reaches hx).three_failures hl ht hb ?_
  rw [hreason]
  decide

/-! ### A second block for one failure -/

namespace Demo

/-- What `Sys.OneByOne` asks for. -/
def oneByOne (s : Sys) : Label → Bool
  | .resume (.rollover _) => false
  | .resume (.handler k) => (s.entering k).all fun r => s.accepted.all fun j =>
      decide (j = k) || !(s.conn j).record.any (fun r' => r'.sid = r.sid) || (s.conn j).closed
  | _ => true

theorem oneByOne_spec {s : Sys} {l : Label} (h : oneByOne s l = true) : s.OneByOne l := by
  refine ⟨fun k hk => ?_, fun k r hk he j hj hne hr => ?_⟩
  · subst hk
    cases h
  · subst hk
    have hall := List.all_eq_true.mp (Option.all_eq_true _ _ |>.mp h r he) j hj
    rw [hr] at hall
    simpa [hne] using hall

/-- What `Forgiven` asks for. -/
def forgives (x : Sys × List Ruling) (l : Label) : Bool :=
  oneByOne x.1 l &&
    (match l with
      | .resume (.handler k) =>
          (x.1.entering k).all fun r => decide (r.challengeFails ≤ unforgiven r.sid x.2)
      | _ => true) &&
    (x.1.ruling l).all fun v => v.2.2 || decide (unforgiven v.2.1 x.2 = failures v.2.1 x.2)

theorem forgives_spec {x : Sys × List Ruling} {l : Label} (h : forgives x l = true) :
    Forgiven x l := by
  unfold forgives at h
  simp only [Bool.and_eq_true] at h
  obtain ⟨⟨h₁, h₂⟩, h₃⟩ := h
  refine ⟨oneByOne_spec h₁, fun k r hk he => ?_, fun k sid hr => ?_⟩
  · subst hk
    exact of_decide_eq_true (Option.all_eq_true _ _ |>.mp h₂ r he)
  · exact of_decide_eq_true (Option.all_eq_true _ _ |>.mp h₃ _ hr)

/-- The client answers its challenge, wrongly; the verification is over. -/
def answers (k : ConnKey) (t : ℤ) : List Label :=
  [.clock t] ++ receive k (.challengeResponse "x") ++ [.settle (.handler k) .answered false]

/-- A challenged client answers wrongly for the third time. -/
def failsThrice : List Label :=
  provokes ++ challenged ++ List.replicate 2 (.resume (.handler (conn 1))) ++
    answers (conn 1) (noon + 2000) ++ [.resume (.handler (conn 1))] ++ turns (conn 1) 1 ++
    answers (conn 1) (noon + 4000) ++ [.resume (.handler (conn 1))] ++ turns (conn 1) 1 ++
    answers (conn 1) (noon + 6000)

/-- The block is served, the session resumed, and one answer is wrong. -/
def failsOnce : List Label :=
  [.resume (.handler (conn 1))] ++ turns (conn 1) 2 ++ [.closeEvent (conn 1), .clock (noon + 700000)]
    ++ request 1 "b" ++ handshake 1 ++ rejoins (conn 2) 1 ++ answers (conn 2) (noon + 702000)

/-- The step begins a block for failed verifications, of which `P` holds. -/
def blocks (P : Sys × List Ruling → BlockLocals → Bool) (l : Label) (x : Sys × List Ruling) :
    Bool :=
  ((ruled (env (some .mock))).step x l).any fun y =>
    (y.1.blocking l).any fun b => decide (b.reason = "challenge_failed") && P x b

theorem blocks_spec {P : Sys × List Ruling → BlockLocals → Bool} {l : Label}
    {x : Sys × List Ruling} (h : blocks P l x = true) :
    ∃ y b, (ruled (env (some .mock))).step x l = some y ∧ y.1.blocking l = some b ∧
      b.reason = "challenge_failed" ∧ P x b = true := by
  obtain ⟨y, hy, h⟩ := (Option.any_eq_true _ _).mp h
  obtain ⟨b, hb, h⟩ := (Option.any_eq_true _ _).mp h
  obtain ⟨hr, hP⟩ := Bool.and_eq_true_iff.mp h
  exact ⟨y, b, hy, hb, of_decide_eq_true hr, hP⟩

end Demo

/-- The third wrong answer blocks. -/
theorem blocks_cost_three_first : ∃ (x y : Sys × List Ruling) (l : Label) (b : BlockLocals),
    (ruled (Demo.env (some .mock))).step x l = some y ∧ y.1.blocking l = some b ∧
    3 ≤ failures b.record.sid (x.1.verdict l ++ x.2) := by
  have h : ((ruled (Demo.env (some .mock))).execs Demo.forgives (Sys.initial Demo.noon, [])
      Demo.failsThrice).any (fun x => Demo.forgives x (.resume (.handler (Demo.conn 1))) &&
        Demo.blocks (fun _ _ => true) (.resume (.handler (Demo.conn 1))) x) = true := by
    decide +kernel
  obtain ⟨x, hx, h⟩ := (Option.any_eq_true _ _).mp h
  obtain ⟨hl, hb⟩ := Bool.and_eq_true_iff.mp h
  obtain ⟨y, b, hs, hb, hr, -⟩ := Demo.blocks_spec hb
  have hreach := Machine.reaches_of_execs (M := ruled (Demo.env (some .mock))) (C := Forgiven)
    (fun _ _ => Demo.forgives_spec) ⟨⟨_, rfl⟩, rfl⟩ hx
  exact ⟨x, y, _, b, hs, hb, blocks_cost_three hreach (Demo.forgives_spec hl) hs hb hr⟩

/-- Without the condition: a client that has served its block resumes its session, answers wrongly
once, and is blocked for an hour. -/
theorem blocks_cost_one : ∃ (x y : Sys × List Ruling) (l : Label) (b : BlockLocals),
    (ruled (Demo.env (some .mock))).Reaches (fun x l => x.1.OneByOne l) x ∧ x.1.OneByOne l ∧
    (ruled (Demo.env (some .mock))).step x l = some y ∧ y.1.blocking l = some b ∧
    b.reason = "challenge_failed" ∧ failures b.record.sid (x.1.verdict l ++ x.2) = 1 ∧
    b.ttl = 3600000 := by
  have h : ((ruled (Demo.env (some .mock))).execs (fun x => Demo.oneByOne x.1)
      (Sys.initial Demo.noon, []) (Demo.failsThrice ++ Demo.failsOnce)).any
      (fun x => Demo.oneByOne x.1 (.resume (.handler (Demo.conn 2))) &&
        Demo.blocks (fun x b => decide (failures b.record.sid
          (x.1.verdict (.resume (.handler (Demo.conn 2))) ++ x.2) = 1) &&
            decide (b.ttl = 3600000)) (.resume (.handler (Demo.conn 2))) x) = true := by
    decide +kernel
  obtain ⟨x, hx, h⟩ := (Option.any_eq_true _ _).mp h
  obtain ⟨hl, hb⟩ := Bool.and_eq_true_iff.mp h
  obtain ⟨y, b, hs, hb, hr, hP⟩ := Demo.blocks_spec hb
  obtain ⟨hf, ht⟩ := Bool.and_eq_true_iff.mp hP
  have hreach := Machine.reaches_of_execs (M := ruled (Demo.env (some .mock)))
    (C := fun x l => x.1.OneByOne l) (fun _ _ => Demo.oneByOne_spec) ⟨⟨_, rfl⟩, rfl⟩ hx
  exact ⟨x, y, _, b, hreach, Demo.oneByOne_spec hl, hs, hb, hr, of_decide_eq_true hf,
    of_decide_eq_true ht⟩

end RoomBackend
