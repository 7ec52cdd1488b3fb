import RoomBackend.Effects
import RoomBackend.Seats

/-! # One reply to each send frame

The trace of a frame is what the journal says about its handling: that it was decided on, that a
message was appended and published, that a reply was sent. The trace of a send frame whose
handling is over is one of two: refused without a trace of a message, or appended, published and
acknowledged. -/

namespace RoomBackend

open Async Day Lts

/-! ### Traces -/

/-- The entry belongs to the handling of the `n`-th frame of connection `k`. -/
def Obs.about (k : ConnKey) (n : ℕ) : Obs → Bool
  | .deciding k' n' _ => decide (k' = k ∧ n' = n)
  | .appended k' n' _ _ _ => decide (k' = k ∧ n' = n)
  | .published k' n' _ _ _ => decide (k' = k ∧ n' = n)
  | .replied k' n' _ => decide (k' = k ∧ n' = n)
  | _ => false

/-- What the journal says about the `n`-th frame of connection `k`. -/
def World.trace (w : World) (k : ConnKey) (n : ℕ) : List Obs := w.journal.filter (Obs.about k n)

/-- The trace of a send frame that was answered once: refused with its `clientId` and nothing
appended or published, or acknowledged with its `clientId` and the one message that was appended
and published. -/
inductive Answered (k : ConnKey) (n : ℕ) (e : SendEvent) : List Obs → Prop
  | refused (reason : RejectReason) (hint : Option ℤ) :
      Answered k n e [.deciding k n e, .replied k n (.reject e.clientId reason hint)]
  | acked {l : SendLocals} (hl : l.event = e) (room : DailyRoom) (m : StoredMessage)
      (to_ : List InstanceId) :
      Answered k n e
        [.deciding k n e, .appended k n l room.roomId m, .published k n l (busMessage k room m) to_,
          .replied k n (.ack e.clientId (toPublic m))]

theorem World.trace_note (w : World) (log : List Obs) (k : ConnKey) (n : ℕ) :
    (w.note log).trace k n = w.trace k n ++ log.filter (Obs.about k n) :=
  List.filter_append ..

/-! ### The stages of a send -/

/-- The event of a send that has not appended its message. -/
def SendPc.checking : SendPc → Option SendEvent
  | .hit l _ => some l.event
  | .dup l _ => some l.event
  | .escalate l _ _ => some l.event
  | .append l _ _ p =>
      match p with
      | .fulfilled _ => none
      | _ => some l.event
  | .publish _ _ _ _ => none
  | .reply _ _ => none

/-- The trace of a frame, by the stage its handler is in. -/
inductive Stage (k : ConnKey) (n : ℕ) : Option Handler → List Obs → Prop
  | ended {h : Option Handler} {tr : List Obs} (hs : ∀ p, h ≠ some (.send p))
      (ht : tr = [] ∨ ∃ e, Answered k n e tr) : Stage k n h tr
  | checking {p : SendPc} {e : SendEvent} (hp : p.checking = some e) :
      Stage k n (some (.send p)) [.deciding k n e]
  | appended {l : SendLocals} {room : DailyRoom} {m : StoredMessage} :
      Stage k n (some (.send (.append l room m (.fulfilled ()))))
        [.deciding k n l.event, .appended k n l room.roomId m]
  | publishing {l : SendLocals} {room : DailyRoom} {m : StoredMessage} :
      Stage k n (some (.send (.publish l room m .pending)))
        [.deciding k n l.event, .appended k n l room.roomId m]
  | published {l : SendLocals} {room : DailyRoom} {m : StoredMessage} {to_ : List InstanceId} :
      Stage k n (some (.send (.publish l room m (.fulfilled ()))))
        [.deciding k n l.event, .appended k n l room.roomId m,
          .published k n l (busMessage k room m) to_]
  | refused {e : SendEvent} {reason : RejectReason} {hint : Option ℤ} :
      Stage k n (some (.send (.reply e (Sys.rejectWith e reason hint)))) [.deciding k n e]
  | acked {l : SendLocals} {room : DailyRoom} {m : StoredMessage} {to_ : List InstanceId} :
      Stage k n (some (.send (.reply l.event (.ack l.event.clientId (toPublic m)))))
        [.deciding k n l.event, .appended k n l room.roomId m,
          .published k n l (busMessage k room m) to_]

section stage

variable {k : ConnKey} {n : ℕ} {tr : List Obs}

/-- A handler that is not a send has a settled trace. -/
theorem Stage.settled {h : Option Handler} (hst : Stage k n h tr) (hs : ∀ p, h ≠ some (.send p)) :
    tr = [] ∨ ∃ e, Answered k n e tr := by
  cases hst with
  | ended _ ht => exact ht
  | _ => exact absurd rfl (hs _)

theorem Stage.eq_of_checking {p : SendPc} {e : SendEvent} (hst : Stage k n (some (.send p)) tr)
    (hp : p.checking = some e) : tr = [.deciding k n e] := by
  cases hst with
  | ended hs => exact absurd rfl (hs _)
  | checking hp' =>
      rw [hp] at hp'
      rw [Option.some.inj hp']
  | _ => cases hp

/-- A stretch of a handler leads from stage to stage. -/
theorem Act.stage {env : Env} {up : Bool} {c c₁ : Core} {h h' : Option Handler}
    (ha : Act env k up c h c₁ h') (hn : n = (c.conn k).handled) (h0 : h = none → tr = [])
    (hup : ∀ e r, h = some (.send (.reply e r)) → up = true) (hst : Stage k n h tr) :
    ∃ log, c₁.world = c.world.note log ∧ Stage k n h' (tr ++ log.filter (Obs.about k n)) := by
  -- the handler is not a send, before and after
  have other : (∀ p, h ≠ some (.send p)) → (∀ p, h' ≠ some (.send p)) → ∀ log,
      c₁.world = c.world.note log → log.filter (Obs.about k n) = [] →
      ∃ log, c₁.world = c.world.note log ∧ Stage k n h' (tr ++ log.filter (Obs.about k n)) := by
    intro hh hh' log hw hlog
    refine ⟨log, hw, ?_⟩
    rw [hlog, List.append_nil]
    exact Stage.ended hh' (hst.settled hh)
  have quiet : (∀ p, h ≠ some (.send p)) → (∀ p, h' ≠ some (.send p)) → c₁.world = c.world →
      ∃ log, c₁.world = c.world.note log ∧ Stage k n h' (tr ++ log.filter (Obs.about k n)) :=
    fun hh hh' hw => other hh hh' [] (by rw [hw, World.note_nil]) rfl
  subst hn
  cases ha with
  | idle hs hj => exact quiet hs (by simp) rfl
  | sendReject hr hj =>
      obtain rfl := h0 rfl
      exact ⟨_, rfl, by simpa [Obs.about] using Stage.refused⟩
  | sendSwitch hr hj =>
      obtain rfl := h0 rfl
      refine ⟨[.deciding k (c.conn k).handled _], by rw [Core.checkRoom_frame]; rfl, ?_⟩
      simpa [Obs.about] using Stage.refused
  | sendOpen hl =>
      obtain rfl := h0 rfl
      exact ⟨_, rfl, by simpa [Obs.about] using Stage.checking rfl⟩
  | @sendLimited l c' e hl he =>
      obtain rfl := h0 rfl
      rcases he.world with hw | ⟨r, hr, hw⟩
      · exact ⟨_, hw, by simpa [Obs.about] using Stage.checking rfl⟩
      · refine ⟨[.deciding k (c.conn k).handled l.event, .issued k r.sid], hw.trans ?_, ?_⟩
        · rw [Core.observe_world, World.note_note]
          rfl
        · simpa [Obs.about] using Stage.checking rfl
  | sendFlood =>
      rw [hst.eq_of_checking rfl]
      exact ⟨[], (World.note_nil _).symm, by simpa using Stage.refused⟩
  | sendDup =>
      rw [hst.eq_of_checking rfl]
      exact ⟨[], (World.note_nil _).symm, by simpa using Stage.checking rfl⟩
  | @sendEscalate l h c' e hh he =>
      have hc : h.checking = some l.event := by rcases hh with ⟨p, rfl⟩ | ⟨p, rfl⟩ <;> rfl
      rw [hst.eq_of_checking hc]
      rcases he.world with hw | ⟨r, hr, hw⟩
      · exact ⟨[], by rw [hw, World.note_nil], by simpa using Stage.checking rfl⟩
      · exact ⟨_, hw, by simpa [Obs.about] using Stage.checking rfl⟩
  | sendRefused =>
      rw [hst.eq_of_checking rfl]
      exact ⟨[], (World.note_nil _).symm, by simpa using Stage.refused⟩
  | sendAccept =>
      rw [hst.eq_of_checking rfl]
      exact ⟨[], (World.note_nil _).symm, by simpa using Stage.checking rfl⟩
  | sendEscalating he =>
      rw [hst.eq_of_checking rfl]
      cases he with
      | challenged hp => exact ⟨[], (World.note_nil _).symm, by simpa using Stage.checking rfl⟩
      | block hb => exact ⟨[], (World.note_nil _).symm, by simpa using Stage.checking rfl⟩
      | blocked hp => exact ⟨_, rfl, by simpa [Obs.about] using Stage.checking rfl⟩
  | appendFailed =>
      rw [hst.eq_of_checking rfl]
      exact ⟨[], (World.note_nil _).symm, by simpa using Stage.refused⟩
  | appendDone =>
      cases hst with
      | ended hs => exact absurd rfl (hs _)
      | checking hp => cases hp
      | appended => exact ⟨[], (World.note_nil _).symm, by simpa using Stage.publishing⟩
  | publishFailed =>
      cases hst with
      | ended hs => exact absurd rfl (hs _)
      | checking hp => cases hp
  | publishDone =>
      cases hst with
      | ended hs => exact absurd rfl (hs _)
      | checking hp => cases hp
      | published => exact ⟨[], (World.note_nil _).symm, by simpa using Stage.acked⟩
  | sendReply =>
      rw [hup _ _ rfl]
      refine ⟨_, rfl, Stage.ended (by simp) (Or.inr ?_)⟩
      cases hst with
      | ended hs => exact absurd rfl (hs _)
      | checking hp => cases hp
      | refused => exact ⟨_, by simpa [Obs.about, Sys.rejectWith] using Answered.refused _ _⟩
      | acked => exact ⟨_, by simpa [Obs.about] using Answered.acked rfl _ _ _⟩
  | passed q => exact other (by simp) (by simp) _ rfl (by simp [Obs.about])
  | challengeBlocked hp => exact other (by simp) (by simp) _ rfl (by simp [Obs.about])
  | _ => exact quiet (by simp) (by simp) rfl

/-- The operations of a send frame that settle it: an append is answered or refused, a publish
is answered. -/
def SendPc.settlesCleanly (o : Outcome) : SendPc → Bool
  | .append _ _ _ _ => decide (o ≠ .timedOut)
  | .publish _ _ _ _ => decide (o = .answered)
  | _ => true

/-- Only an append and a publish leave a trace. -/
theorem Effect.trace {env : Env} {c : Core} {th : Thread} {w : World} (he : Effect env c th w)
    (hth : th = .handler k → ∀ l room m,
      (c.conn k).handler ≠ some (.send (.append l room m .pending)) ∧
        (c.conn k).handler ≠ some (.send (.publish l room m .pending))) :
    w.trace k n = c.world.trace k n := by
  have noted : ∀ o : Obs, Obs.about k n o = false →
      (c.world.journal ++ [o]).filter (Obs.about k n) = c.world.trace k n := by
    intro o ho
    rw [List.filter_append, List.filter_cons_of_neg (by simp [ho]), List.filter_nil,
      List.append_nil]
    rfl
  cases he with
  | save h => exact noted _ rfl
  | link => exact noted _ rfl
  | @append k' l room m ht hh =>
      have hne : k' ≠ k := by
        rintro rfl
        exact (hth ht l room m).1 hh
      exact noted _ (by simp [Obs.about, hne])
  | @publish k' l room m ht hh =>
      have hne : k' ≠ k := by
        rintro rfl
        exact (hth ht l room m).2 hh
      exact noted _ (by simp [Obs.about, hne])
  | _ => rfl

theorem Settles.trace {env : Env} {c : Core} {th : Thread} {o : Outcome} {w : World}
    (hs : Settles env c th o w)
    (hth : th = .handler k → ∀ l room m,
      (c.conn k).handler ≠ some (.send (.append l room m .pending)) ∧
        (c.conn k).handler ≠ some (.send (.publish l room m .pending))) :
    w.trace k n = c.world.trace k n := by
  rcases hs with ⟨-, rfl⟩ | ⟨-, he⟩
  · rfl
  · exact he.trace hth

/-- Frames that are not in progress get no trace. -/
theorem Settles.trace_ne {env : Env} {c : Core} {th : Thread} {o : Outcome} {w : World}
    (hs : Settles env c th o w) (hn : n ≠ (c.conn k).handled) :
    w.trace k n = c.world.trace k n := by
  have noted : ∀ o : Obs, Obs.about k n o = false →
      (c.world.journal ++ [o]).filter (Obs.about k n) = c.world.trace k n := by
    intro o ho
    simp [List.filter_append, ho, World.trace]
  have hne : ∀ k', ¬ (k' = k ∧ (c.conn k').handled = n) := by
    rintro k' ⟨rfl, rfl⟩
    exact hn rfl
  rcases hs with ⟨-, rfl⟩ | ⟨-, he⟩
  · rfl
  · cases he with
    | save h => exact noted _ rfl
    | link => exact noted _ rfl
    | append ht hh => exact noted _ (by simpa [Obs.about] using hne _)
    | publish ht hh => exact noted _ (by simpa [Obs.about] using hne _)
    | _ => rfl

/-- Settling an operation of a send frame leads from stage to stage. -/
theorem SendPc.stage_settle {env : Env} {c : Core} {o : Outcome} {info : AdmitInfo}
    {p p' : SendPc} {w : World} (hh : (c.conn k).handler = some (.send p))
    (hn : n = (c.conn k).handled)
    (hs : p.settle env c.clock k (c.conn k).handled info o c.world = some (p', w))
    (ho : p.settlesCleanly o = true) (hst : Stage k n (some (.send p)) (c.world.trace k n)) :
    Stage k n (some (.send p')) (w.trace k n) := by
  have quiet : (∀ l room m q, p ≠ .append l room m q ∧ p ≠ .publish l room m q) →
      w.trace k n = c.world.trace k n := by
    intro hp
    refine (SendPc.settles hh hs).trace fun _ l room m => ?_
    rw [hh]
    exact ⟨fun he => (hp l room m _).1 (Handler.send.inj (Option.some.inj he)),
      fun he => (hp l room m _).2 (Handler.send.inj (Option.some.inj he))⟩
  cases p with
  | hit l q =>
      rw [quiet (by simp), hst.eq_of_checking rfl]
      obtain ⟨r, hr, he⟩ := Option.map_eq_some_iff.mp hs
      obtain ⟨rfl, rfl⟩ := Prod.mk.inj he
      exact Stage.checking rfl
  | dup l q =>
      rw [quiet (by simp), hst.eq_of_checking rfl]
      obtain ⟨r, hr, he⟩ := Option.map_eq_some_iff.mp hs
      obtain ⟨rfl, rfl⟩ := Prod.mk.inj he
      exact Stage.checking rfl
  | escalate l site e =>
      rw [quiet (by simp), hst.eq_of_checking rfl]
      obtain ⟨r, hr, he⟩ := Option.map_eq_some_iff.mp hs
      obtain ⟨rfl, rfl⟩ := Prod.mk.inj he
      exact Stage.checking rfl
  | append l room m q =>
      obtain ⟨⟨q', w'⟩, hr, he⟩ := Option.map_eq_some_iff.mp hs
      obtain ⟨rfl, rfl⟩ := Prod.mk.inj he
      obtain ⟨rfl, rfl, rfl⟩ := Promise.settle_eq_some.mp hr
      have htr := hst.eq_of_checking rfl
      cases o with
      | timedOut => cases ho
      | refused =>
          show Stage k n _ (c.world.trace k n)
          rw [htr]
          exact Stage.checking rfl
      | answered =>
          subst hn
          have hw : (World.append c.clock env.config.historyLimit k (c.conn k).handled l room m
              c.world).2.trace k (c.conn k).handled =
              c.world.trace k (c.conn k).handled ++
                [.appended k (c.conn k).handled l room.roomId m] := by
            simp [World.trace, World.append, World.record, World.onStore, Obs.about]
          show Stage k _ _ (World.trace (World.append ..).2 k _)
          rw [hw, htr]
          exact Stage.appended
  | publish l room m q =>
      obtain ⟨⟨q', w'⟩, hr, he⟩ := Option.map_eq_some_iff.mp hs
      obtain ⟨rfl, rfl⟩ := Prod.mk.inj he
      obtain ⟨rfl, rfl, rfl⟩ := Promise.settle_eq_some.mp hr
      obtain rfl : o = .answered := by simpa [settlesCleanly] using ho
      subst hn
      have hw : (World.publishSend k (c.conn k).handled l (busMessage k room m)
          c.world).2.trace k (c.conn k).handled =
          c.world.trace k (c.conn k).handled ++
            [.published k (c.conn k).handled l (busMessage k room m) c.world.subscribers] := by
        simp [World.trace, World.publishSend, World.record, World.publish, Obs.about]
      show Stage k _ _ (World.trace (World.publishSend ..).2 k _)
      rw [hw]
      generalize c.world.trace k (c.conn k).handled = tr at hst ⊢
      cases hst with
      | ended hs => exact absurd rfl (hs _)
      | checking hp => cases hp
      | publishing => exact Stage.published
  | reply e reply => cases hs

/-- Settling an operation of another handler leads from stage to stage. -/
theorem Handler.stage_settle {env : Env} {c : Core} {o : Outcome} {v : Bool} {h h' : Handler}
    {w : World} (hh : (c.conn k).handler = some h) (hn : n = (c.conn k).handled)
    (hs : h.settle env c.clock v k (c.conn k).handled (c.conn k).info o c.world = some (h', w))
    (ho : ∀ p, h = .send p → p.settlesCleanly o = true)
    (hst : Stage k n (some h) (c.world.trace k n)) : Stage k n (some h') (w.trace k n) := by
  have other : (∀ p, h ≠ .send p) → (∀ p, h' ≠ .send p) → Stage k n (some h') (w.trace k n) := by
    intro hp hp'
    have htr : w.trace k n = c.world.trace k n := by
      refine (Handler.settles hh hs).trace fun _ l room m => ?_
      rw [hh]
      exact ⟨fun he => hp _ (Option.some.inj he), fun he => hp _ (Option.some.inj he)⟩
    rw [htr]
    exact Stage.ended (fun p he => hp' p (Option.some.inj he))
      (hst.settled fun p he => hp p (Option.some.inj he))
  cases h with
  | send p =>
      obtain ⟨⟨p', w'⟩, hr, he⟩ := Option.map_eq_some_iff.mp hs
      obtain ⟨rfl, rfl⟩ := Prod.mk.inj he
      exact SendPc.stage_settle hh hn hr (ho p rfl) hst
  | join p =>
      obtain ⟨r, hr, he⟩ := Option.map_eq_some_iff.mp hs
      obtain ⟨rfl, rfl⟩ := Prod.mk.inj he
      exact other (by simp) (by simp)
  | challenge p =>
      obtain ⟨r, hr, he⟩ := Option.map_eq_some_iff.mp hs
      obtain ⟨rfl, rfl⟩ := Prod.mk.inj he
      exact other (by simp) (by simp)
  | report p =>
      obtain ⟨r, hr, he⟩ := Option.map_eq_some_iff.mp hs
      obtain ⟨rfl, rfl⟩ := Prod.mk.inj he
      exact other (by simp) (by simp)

end stage

/-! ### The traces of a connection -/

/-- The traces of a connection: the frame in progress is at a stage, the frames before it are
settled, the frames after it have left no trace. -/
structure Traced (c : Core) (k : ConnKey) : Prop where
  now : Stage k (c.conn k).handled (c.conn k).handler (c.world.trace k (c.conn k).handled)
  past : ∀ n < (c.conn k).handled, c.world.trace k n = [] ∨ ∃ e, Answered k n e (c.world.trace k n)
  future : ∀ n, (c.conn k).handled < n → c.world.trace k n = []

/-- The traces of a connection depend on these fields only. -/
theorem Traced.congr {c c' : Core} {k : ConnKey} (h : Traced c k)
    (hh : (c'.conn k).handler = (c.conn k).handler)
    (hn : (c'.conn k).handled = (c.conn k).handled)
    (hw : ∀ n, c'.world.trace k n = c.world.trace k n) : Traced c' k := by
  refine ⟨?_, fun n hlt => ?_, fun n hlt => ?_⟩
  · rw [hh, hn, hw]
    exact h.now
  · rw [hw]
    exact h.past n (hn ▸ hlt)
  · rw [hw]
    exact h.future n (hn ▸ hlt)

/-- A stretch of a handler leaves no trace of other frames. -/
theorem ActLog.other {k j : ConnKey} {up : Bool} {c : Core} {h : Option Handler} {log : List Obs}
    {n : ℕ} (hl : ActLog k up c h log) (hn : k ≠ j ∨ n ≠ (c.conn k).handled) :
    log.filter (Obs.about j n) = [] := by
  have hne : ¬ (k = j ∧ (c.conn k).handled = n) := by
    rintro ⟨rfl, rfl⟩
    rcases hn with h | h <;> exact h rfl
  cases hl with
  | none => rfl
  | deciding => simpa [Obs.about] using hne
  | limited => simpa [Obs.about] using hne
  | issued => rfl
  | passed => rfl
  | blocked => rfl
  | replied => simpa [Obs.about] using hne

/-- Steps of others leave no trace of the frames of a connection. -/
theorem WorldStep.trace {env : Env} {up : ConnKey → Bool} {c : Core} {l : Label} {w : World}
    {k : ConnKey} {n : ℕ} (h : WorldStep env up c l w) (h₁ : l ≠ .resume (.handler k))
    (h₂ : l ≠ .handle k) (h₃ : ∀ o v, l ≠ .settle (.handler k) o v) :
    w.trace k n = c.world.trace k n := by
  have noted : ∀ {w : World} {log : List Obs}, log.filter (Obs.about k n) = [] →
      (w.note log).trace k n = w.trace k n := by
    intro w log hlog
    rw [World.trace_note, hlog, List.append_nil]
  cases h with
  | same => rfl
  | act hl hh hlog => exact noted (hlog.other (Or.inl fun he => h₁ (he ▸ hl)))
  | handle hl hk hh hlog => exact noted (hlog.other (Or.inl fun he => h₂ (he ▸ hl)))
  | settled hl ho he => exact he.trace fun hth => absurd (hth ▸ hl) (h₃ _ _)
  | rolled => exact noted rfl
  | received hl hn hlog =>
      rcases hlog with rfl | ⟨m, -, -, rfl⟩
      · exact noted rfl
      · exact noted rfl
  | flushed hl =>
      refine noted ?_
      rw [List.filter_append, List.filter_map]
      simp [Function.comp_def, Obs.about]
  | subscribers => rfl

/-! ### Runs -/

/-- The writes of an accepted message are not cut off: its append is answered or refused, its
publish answered; and the socket takes frames when the reply is sent. -/
def Sys.repliesReach (s : Sys) : Label → Bool
  | .settle (.handler k) o _ =>
      match (s.conn k).handler with
      | some (.send p) => p.settlesCleanly o
      | _ => true
  | .resume (.handler k) =>
      match (s.conn k).handler with
      | some (.send (.reply _ _)) => s.up k
      | _ => true
  | _ => true

/-- A stretch of a handler keeps the traces of its connection. -/
theorem Traced.act {env : Env} {up : Bool} {c c₁ : Core} {k : ConnKey} {h h' : Option Handler}
    (ha : Act env k up c h c₁ h')
    (hst : Stage k (c.conn k).handled h (c.world.trace k (c.conn k).handled))
    (h0 : h = none → c.world.trace k (c.conn k).handled = [])
    (hup : ∀ e r, h = some (.send (.reply e r)) → up = true)
    (past : ∀ n < (c.conn k).handled,
      c.world.trace k n = [] ∨ ∃ e, Answered k n e (c.world.trace k n))
    (future : ∀ n, (c.conn k).handled < n → c.world.trace k n = []) :
    Traced (c₁.setHandler k h') k := by
  have hn : ((c₁.setHandler k h').conn k).handled = (c.conn k).handled := by
    rw [Core.setHandler_conn]
    exact ha.kept.handled
  have htr : ∀ n, n ≠ (c.conn k).handled →
      (c₁.setHandler k h').world.trace k n = c.world.trace k n := by
    intro n hne
    obtain ⟨log, hlog, hw⟩ := ha.world
    show c₁.world.trace k n = _
    rw [hw, World.trace_note, hlog.other (Or.inr hne), List.append_nil]
  refine ⟨?_, fun n hlt => ?_, fun n hlt => ?_⟩
  · obtain ⟨log, hw, hst'⟩ := ha.stage rfl h0 hup hst
    rw [hn, Core.setHandler_conn]
    show Stage k _ h' (c₁.world.trace k _)
    rwa [hw, World.trace_note]
  · rw [hn] at hlt
    rw [htr n hlt.ne]
    exact past n hlt
  · rw [hn] at hlt
    rw [htr n hlt.ne']
    exact future n hlt

/-- One step keeps the traces, if no write is cut off. -/
theorem Traced.step {env : Env} {s : Sys} {l : Label} {c' : Core}
    (hs : CoreStep env s.up s.toCore l c') (hB : Born s.toCore) (hl : s.repliesReach l = true)
    {k : ConnKey} (h : Traced s.toCore k) : Traced c' k := by
  by_cases h₁ : l = .resume (.handler k)
  · subst h₁
    cases hs with
    | same => exact h
    | @act k h₀ c₁ h' hh ha =>
        refine Traced.act ha (hh ▸ h.now) (fun he => by cases he) ?_ h.past h.future
        intro e r he
        simpa [Sys.repliesReach, hh, Option.some.inj he] using hl
  by_cases h₂ : l = .handle k
  · subst h₂
    cases hs with
    | same => exact h
    | @handle k c₁ h' hk hh ha =>
        have hn : ((s.toCore.take k).conn k).handled = (s.conn k).handled + 1 := by
          rw [Core.take_conn]
        have hnil : (s.toCore.take k).world.trace k ((s.toCore.take k).conn k).handled = [] :=
          h.future _ (hn.symm ▸ Nat.lt_succ_self _)
        refine Traced.act ha ?_ (fun _ => hnil) (fun e r he => by cases he) (fun n hlt => ?_)
          fun n hlt => ?_
        · rw [hnil]
          exact Stage.ended (by simp) (Or.inl rfl)
        · rw [hn] at hlt
          rcases Nat.lt_succ_iff_lt_or_eq.mp hlt with hlt | rfl
          · exact h.past n hlt
          · have hnow := h.now
            rw [hh] at hnow
            exact hnow.settled (by simp)
        · rw [hn] at hlt
          exact h.future n ((Nat.lt_succ_self _).trans hlt)
  by_cases h₃ : ∃ o v, l = .settle (.handler k) o v
  · obtain ⟨o, v, rfl⟩ := h₃
    cases hs with
    | same => exact h
    | settle hs =>
        obtain ⟨h₀, hh, hs⟩ := Option.bind_eq_some_iff.mp hs
        obtain ⟨⟨h', w⟩, hr, rfl⟩ := Option.map_eq_some_iff.mp hs
        have hconn : ((({ s.toCore with world := w } : Core).suspend k h').conn k) =
            { s.conn k with handler := some h' } := Core.setHandler_conn ..
        have htr : ∀ n, n ≠ (s.conn k).handled → w.trace k n = s.world.trace k n :=
          fun n hne => (Handler.settles hh hr).trace_ne hne
        refine ⟨?_, fun n hlt => ?_, fun n hlt => ?_⟩
        · rw [hconn]
          refine Handler.stage_settle hh rfl hr (fun p hp => ?_) (hh ▸ h.now)
          simpa [Sys.repliesReach, hh, hp] using hl
        · rw [hconn] at hlt
          exact (htr n hlt.ne).symm ▸ h.past n hlt
        · rw [hconn] at hlt
          exact (htr n hlt.ne').trans (h.future n hlt)
  have htr : ∀ n, c'.world.trace k n = s.world.trace k n :=
    fun n => hs.world.trace h₁ h₂ fun o v he => h₃ ⟨o, v, he⟩
  have hx := hs.conn k
  have hkeep : ∀ x : Conn, c'.conn k = x → x.handler = (s.conn k).handler →
      x.handled = (s.conn k).handled → Traced c' k := by
    rintro x rfl hh hn
    exact h.congr hh hn htr
  generalize hc : c'.conn k = x at hx
  cases hx with
  | act hl' => exact absurd hl' h₁
  | handle hl' => exact absurd hl' h₂
  | settled hl' => exact absurd ⟨_, _, hl'⟩ h₃
  | accepted hl' hj =>
      have hu : s.conn k = Conn.unborn := hj ▸ hB.next _
      exact hkeep _ hc (by rw [hu]; rfl) (by rw [hu]; rfl)
  | _ => exact hkeep _ hc rfl rfl

theorem traced_of_reaches {env : Env} {s : Sys}
    (h : (system env).Reaches (fun s l => s.repliesReach l = true) s) (k : ConnKey) :
    Traced s.toCore k := by
  refine Machine.Reaches.invariant_of (J := fun s => Born s.toCore)
    (I := fun s => Traced s.toCore k) (fun s hs => born_of_reaches hs) ?_ ?_ h
  · rintro s ⟨t, rfl⟩
    exact ⟨Stage.ended (fun p hp => by cases hp) (Or.inl rfl), fun n hn => Or.inl rfl,
      fun n hn => rfl⟩
  · intro s l t hB hI hl hs
    exact hI.step (Sys.coreStep hs) hB hl

/-- The event an answered trace is about is the one that was decided on. -/
theorem Answered.event {k : ConnKey} {n : ℕ} {e e' : SendEvent} {tr : List Obs}
    (h : Answered k n e' tr) (he : .deciding k n e ∈ tr) : Answered k n e tr := by
  have he' : e = e' := by cases h <;> simpa using he
  exact he' ▸ h

/-- **Replies.** In every run in which no append or publish is cut off and the socket takes the
replies, each send frame that was decided on and whose handling is over was answered exactly
once: refused, and nothing was appended or published; or acknowledged, and the acknowledged
message was appended once and published once. -/
theorem answered_of_reaches {env : Env} {s : Sys}
    (h : (system env).Reaches (fun s l => s.repliesReach l = true) s) {k : ConnKey} {n : ℕ}
    {e : SendEvent} (he : .deciding k n e ∈ s.world.journal)
    (hover : n = (s.conn k).handled → (s.conn k).handler = none) :
    Answered k n e (s.world.trace k n) := by
  have hT := traced_of_reaches h k
  have hmem : .deciding k n e ∈ s.world.trace k n :=
    List.mem_filter.mpr ⟨he, by simp [Obs.about]⟩
  have settled : (s.world.trace k n = [] ∨ ∃ e, Answered k n e (s.world.trace k n)) →
      Answered k n e (s.world.trace k n) := by
    rintro (hnil | ⟨e', h'⟩)
    · rw [hnil] at hmem
      cases hmem
    · exact h'.event hmem
  rcases lt_trichotomy n (s.conn k).handled with hlt | rfl | hlt
  · exact settled (hT.past n hlt)
  · exact settled (hT.now.settled fun p hp => by rw [hover rfl] at hp; cases hp)
  · exact settled (Or.inl (hT.future n hlt))

/-- A run of the theorem: a client says hello, and its message is acknowledged. -/
theorem answered_hello : ∃ s,
    (system (Demo.env none)).Reaches (fun s l => s.repliesReach l = true) s ∧
      ∃ e, Answered (Demo.conn 1) 2 e (s.world.trace (Demo.conn 1) 2) ∧
        (s.world.trace (Demo.conn 1) 2).length = 4 := by
  obtain ⟨s, hs, hP⟩ := exists_reached (Demo.env none) Sys.repliesReach
    (fun s => decide (.deciding (Demo.conn 1) 2 ⟨"c", "hello", none⟩ ∈ s.world.journal) &&
      (s.conn (Demo.conn 1)).handler.isNone &&
      decide ((s.world.trace (Demo.conn 1) 2).length = 4))
    Demo.noon (Demo.oneJoined ++ Demo.sent (Demo.conn 1) "hello") (by decide +kernel)
  simp only [Bool.and_eq_true, decide_eq_true_eq, Option.isNone_iff_eq_none] at hP
  obtain ⟨⟨he, hh⟩, hlen⟩ := hP
  exact ⟨s, hs, _, answered_of_reaches hs he fun _ => hh, hlen⟩

/-- The backplane refuses the publish of a message that was appended. -/
def publishFails : List Label :=
  Demo.oneJoined ++ Demo.sending (Demo.conn 1) "hello" ++ Demo.turns (Demo.conn 1) 1
    ++ [.settle (.handler (Demo.conn 1)) .refused false, .resume (.handler (Demo.conn 1)),
      .resume (.handler (Demo.conn 1))]

/-- A frame whose message was appended, is part of the history, and was answered by a refusal. -/
def Sys.keptButRefused (s : Sys) (k : ConnKey) (n : ℕ) : Bool :=
  match s.world.trace k n with
  | [.deciding k₁ n₁ e, .appended k₂ n₂ _ roomId m, .replied k₃ n₃ (.reject c _ _)] =>
      decide (k₁ = k ∧ n₁ = n ∧ k₂ = k ∧ n₂ = n ∧ k₃ = k ∧ n₃ = n ∧ c = e.clientId ∧
        m ∈ (s.world.store.recentMessages s.clock roomId 50).1)
  | _ => false

/-- Without the condition a refused message stays in the history: its sender is told that it
was refused, and whoever joins reads it. -/
theorem answered_despite_history : ∃ s, (system (Demo.env none)).Reaches Free s ∧
    (s.conn (Demo.conn 1)).handler = none ∧
    ∃ e l roomId m reason hint, s.world.trace (Demo.conn 1) 2 =
        [.deciding (Demo.conn 1) 2 e, .appended (Demo.conn 1) 2 l roomId m,
          .replied (Demo.conn 1) 2 (.reject e.clientId reason hint)] ∧
      m ∈ (s.world.store.recentMessages s.clock roomId 50).1 ∧
      ∀ e, ¬ Answered (Demo.conn 1) 2 e (s.world.trace (Demo.conn 1) 2) := by
  obtain ⟨s, hs, hP⟩ := exists_reached_free (Demo.env none)
    (fun s => (s.conn (Demo.conn 1)).handler.isNone && s.keptButRefused (Demo.conn 1) 2)
    Demo.noon publishFails (by decide +kernel)
  rw [Bool.and_eq_true, Option.isNone_iff_eq_none] at hP
  obtain ⟨hh, hP⟩ := hP
  unfold Sys.keptButRefused at hP
  split at hP
  · rename_i k n e k' n' l roomId m k'' n'' c reason hint htr
    obtain ⟨rfl, rfl, rfl, rfl, rfl, rfl, rfl, hm⟩ := of_decide_eq_true hP
    refine ⟨s, hs, hh, e, l, roomId, m, reason, hint, htr, hm, fun e' h => ?_⟩
    rw [htr] at h
    cases h
  · cases hP

end RoomBackend
