import RoomBackend.Copies
import RoomBackend.Redis

/-! # When the data of a day expires

Every session record, resume token and name claim is stored with the end of its own room. The
room of a session is fixed when its id is drawn: `f` in the predicates below tells the room of
every id drawn so far, and every record that a connection, a suspended function or the store
holds is of the room of its id. A write takes its expiry from a room of the calendar: `create`
from the one it was called with, `persist` from the server's, which is that of the record. -/

namespace RoomBackend

open Async Day Lts Expiring

/-! ### Rooms and their ends -/

/-- The room is the room of some instant. -/
def Env.Daily (env : Env) (room : DailyRoom) : Prop := ∃ t, env.roomAt t = room

/-- The room with this id ends then. -/
def Env.Ends (env : Env) (roomId : String) (exp : ℤ) : Prop :=
  ∃ room, env.Daily room ∧ room.roomId = roomId ∧ exp = room.endsAt

theorem Env.Daily.ends {env : Env} {room : DailyRoom} (h : env.Daily room) :
    env.Ends room.roomId room.endsAt := ⟨room, h, rfl, rfl⟩

/-- A room of the calendar is known by its id. -/
theorem Env.Daily.eq {env : Env} {room room' : DailyRoom} (h : env.Daily room)
    (h' : env.Daily room') (he : room.roomId = room'.roomId) : room = room' := by
  obtain ⟨t, rfl⟩ := h
  obtain ⟨t', rfl⟩ := h'
  exact roomAt_eq_of_roomId he

theorem Env.Ends.eq {env : Env} {roomId : String} {exp : ℤ} {room : DailyRoom}
    (h : env.Ends roomId exp) (hr : env.Daily room) (he : room.roomId = roomId) :
    exp = room.endsAt := by
  obtain ⟨room', hr', he', rfl⟩ := h
  rw [hr'.eq hr (he'.trans he.symm)]

/-! ### What is stored, and what is about to be -/

section dated

variable (env : Env) (f : Sid → Option String)

/-- The record is of the room of its session. -/
def SessionIdent.Fits (r : SessionIdent) : Prop := f r.sid = some r.roomId

/-- Everything a day owns expires at the end of that day. -/
structure World.Dated (w : World) : Prop where
  sess : ∀ sid e, w.store.sess sid = some e →
    e.v.toSessionIdent.Fits f ∧ env.Ends e.v.roomId e.exp
  resume : ∀ hash e, w.store.resume hash = some e →
    ∃ roomId, f e.v = some roomId ∧ env.Ends roomId e.exp
  names : ∀ roomId name e, w.store.names (roomId, name) = some e →
    f e.v = some roomId ∧ env.Ends roomId e.exp
  lists : ∀ roomId e, w.store.lists roomId = some e → env.Ends roomId e.exp

/-- A save pairs a record with the end of its own room. -/
structure SaveReq.Dated (q : SaveReq) : Prop where
  fits : q.record.toSessionIdent.Fits f
  ends : env.Ends q.record.roomId q.expireAt

/-- `create` goes on for a room of the calendar. -/
def CreatePc.Dated : CreatePc → Prop
  | claim room _ sid _ _ _ => env.Daily room ∧ f sid = some room.roomId
  | save room record _ _ | link room record _ _ _ =>
      env.Daily room ∧ record.roomId = room.roomId ∧ record.toSessionIdent.Fits f

/-- What a frame handler goes on with. -/
def Handler.Dated : Handler → Prop
  | .join (.newsess _ room _) => env.Daily room
  | .join (.create _ p) => p.Dated env f
  | .join (.resume _ _ r) => env.Daily r.room ∧ ∀ x ∈ r.copies, x.toSessionIdent.Fits f
  | .join (.rejoin _ r _ _) | .join (.block _ r _ _) => r.toSessionIdent.Fits f
  | .send (.append _ room _ _) => env.Daily room
  | .send (.escalate _ _ e) => ∀ q, e.saving = some q → q.Dated env f
  | .challenge p => ∀ q, (Handler.challenge p).saving = some q → q.Dated env f
  | _ => True

/-- A detached save. -/
def Task.Dated : Task → Prop
  | .persist _ req _ => req.Dated env f
  | .admin _ _ => True

/-- Every write under way pairs what it writes with the end of its room. -/
structure Dated (c : Core) : Prop where
  drawn : ∀ sid roomId, f sid = some roomId → ∃ d < c.draws, sid = env.newSessionId d
  world : c.world.Dated env f
  rooms : ∀ i, (c.srv i).started = true → env.Daily (c.srv i).room
  held : ∀ k r, (c.conn k).record = some r → r.Fits f
  handler : ∀ k h, (c.conn k).handler = some h → h.Dated env f
  rolling : ∀ k p, (c.conn k).rolling = some p → p.create.Dated env f
  task : ∀ n b, c.task n = some b → b.Dated env f

end dated

/-! ### New sessions -/

/-- `g` knows the sessions of `f`. -/
def Extends (g f : Sid → Option String) : Prop :=
  ∀ sid roomId, f sid = some roomId → g sid = some roomId

/-- The ids drawn from `lo` to `hi` are of sessions of one room. -/
def assign (env : Env) (f : Sid → Option String) (lo hi : ℕ) (roomId : String) (sid : Sid) :
    Option String :=
  (f sid).or (if (List.range hi).any fun d => decide (lo ≤ d ∧ env.newSessionId d = sid) then
    some roomId else none)

section assign

variable {env : Env} {f : Sid → Option String} {lo hi : ℕ} {x : String}

theorem assign_extends : Extends (assign env f lo hi x) f := by
  intro sid roomId h
  rw [assign, h]
  rfl

theorem assign_drawn (hlo : lo ≤ hi)
    (h : ∀ sid roomId, f sid = some roomId → ∃ d < lo, sid = env.newSessionId d) (sid : Sid)
    (roomId : String) (ha : assign env f lo hi x sid = some roomId) :
    ∃ d < hi, sid = env.newSessionId d := by
  cases hf : f sid with
  | some y =>
      obtain ⟨d, hd, he⟩ := h sid y hf
      exact ⟨d, by omega, he⟩
  | none =>
      rw [assign, hf, Option.none_or] at ha
      split at ha
      · rename_i hany
        obtain ⟨d, hd, he⟩ := List.any_eq_true.mp hany
        exact ⟨d, List.mem_range.mp hd, (of_decide_eq_true he).2.symm⟩
      · cases ha

theorem assign_new (h : ∀ sid roomId, f sid = some roomId → ∃ d < lo, sid = env.newSessionId d)
    {d : ℕ} (hlo : lo ≤ d) (hhi : d < hi) :
    assign env f lo hi x (env.newSessionId d) = some x := by
  have hf : f (env.newSessionId d) = none := by
    cases hf : f (env.newSessionId d) with
    | none => rfl
    | some y =>
        obtain ⟨d', hd', he⟩ := h _ y hf
        have := env.newSessionId_injective he
        omega
  have hany : ((List.range hi).any fun d' =>
      decide (lo ≤ d' ∧ env.newSessionId d' = env.newSessionId d)) = true :=
    List.any_eq_true.mpr ⟨d, List.mem_range.mpr hhi, decide_eq_true ⟨hlo, rfl⟩⟩
  rw [assign, hf, Option.none_or, if_pos hany]

end assign

section mono

variable {env : Env} {f g : Sid → Option String} (hg : Extends g f)

include hg

theorem SessionIdent.Fits.mono {r : SessionIdent} (h : r.Fits f) : r.Fits g := hg _ _ h

theorem World.Dated.mono {w : World} (h : w.Dated env f) : w.Dated env g := by
  refine ⟨fun sid e he => ?_, fun hash e he => ?_, fun roomId name e he => ?_, h.lists⟩
  · obtain ⟨hf, he⟩ := h.sess sid e he
    exact ⟨hf.mono hg, he⟩
  · obtain ⟨roomId, hf, he⟩ := h.resume hash e he
    exact ⟨roomId, hg _ _ hf, he⟩
  · obtain ⟨hf, he⟩ := h.names roomId name e he
    exact ⟨hg _ _ hf, he⟩

theorem SaveReq.Dated.mono {q : SaveReq} (h : q.Dated env f) : q.Dated env g :=
  ⟨h.fits.mono hg, h.ends⟩

theorem CreatePc.Dated.mono {p : CreatePc} (h : p.Dated env f) : p.Dated env g := by
  cases p with
  | claim => exact ⟨h.1, hg _ _ h.2⟩
  | save => exact ⟨h.1, h.2.1, h.2.2.mono hg⟩
  | link => exact ⟨h.1, h.2.1, h.2.2.mono hg⟩

theorem Handler.Dated.mono {h : Handler} (hd : h.Dated env f) : h.Dated env g := by
  cases h with
  | join p =>
      cases p with
      | newsess => exact hd
      | create => exact CreatePc.Dated.mono hg hd
      | resume => exact ⟨hd.1, fun x hx => (hd.2 x hx).mono hg⟩
      | rejoin => exact SessionIdent.Fits.mono hg hd
      | block => exact SessionIdent.Fits.mono hg hd
      | history => trivial
  | send p =>
      cases p with
      | append => exact hd
      | escalate => exact fun q hq => (hd q hq).mono hg
      | _ => trivial
  | challenge p => exact fun q hq => (hd q hq).mono hg
  | report => trivial

theorem Task.Dated.mono {b : Task} (h : b.Dated env f) : b.Dated env g := by
  cases b with
  | persist => exact SaveReq.Dated.mono hg h
  | admin => trivial

end mono

/-! ### Answered operations -/

section settle

variable {env : Env} {f : Sid → Option String} {now : ℤ} {v : Bool} {k : ConnKey} {n : ℕ}
  {info : AdmitInfo} {o : Outcome} {w w' : World}

theorem CreatePc.settle_dated {p p' : CreatePc} (hs : p.settle now k o w = some (p', w'))
    (h : p.Dated env f) : p'.Dated env f := by
  cases p with
  | _ =>
      obtain ⟨q, -, he⟩ := Option.map_eq_some_iff.mp hs
      rw [← (Prod.mk.inj he).1]
      exact h

theorem settleSave_unsaved {req : Option SaveReq} {p p' : Promise Unit} {q : SaveReq}
    (hs : settleSave k o req p w = some (p', w')) (hq : unsaved req p' = some q) :
    unsaved req p = some q := by
  cases req with
  | none => cases hs
  | some r =>
      obtain ⟨rfl, -, -⟩ := Promise.settle_eq_some.mp hs
      cases p' with
      | pending => exact hq
      | _ => cases hq

theorem BlockPc.settle_saving {b b' : BlockPc} {q : SaveReq}
    (hs : b.settle now k info o w = some (b', w')) (hq : b'.saving = some q) :
    b.saving = some q := by
  cases b with
  | save b req p =>
      obtain ⟨⟨x, w₁⟩, hr, he⟩ := Option.map_eq_some_iff.mp hs
      rw [← (Prod.mk.inj he).1] at hq
      exact settleSave_unsaved hr hq
  | _ =>
      obtain ⟨x, -, he⟩ := Option.map_eq_some_iff.mp hs
      rw [← (Prod.mk.inj he).1] at hq
      cases hq

theorem EscalatePc.settle_saving {e e' : EscalatePc} {q : SaveReq}
    (hs : e.settle now k info o w = some (e', w')) (hq : e'.saving = some q) :
    e.saving = some q := by
  cases e with
  | returned => cases hs
  | challenge req p =>
      obtain ⟨⟨x, w₁⟩, hr, he⟩ := Option.map_eq_some_iff.mp hs
      rw [← (Prod.mk.inj he).1] at hq
      exact settleSave_unsaved hr hq
  | block b =>
      obtain ⟨⟨x, w₁⟩, hr, he⟩ := Option.map_eq_some_iff.mp hs
      rw [← (Prod.mk.inj he).1] at hq
      exact BlockPc.settle_saving hr hq

theorem ChallengePc.settle_saving {p p' : ChallengePc} {q : SaveReq}
    (hs : p.settle now v k info o w = some (p', w'))
    (hq : (Handler.challenge p').saving = some q) : (Handler.challenge p).saving = some q := by
  cases p with
  | verify =>
      obtain ⟨x, -, he⟩ := Option.map_eq_some_iff.mp hs
      rw [← (Prod.mk.inj he).1] at hq
      cases hq
  | passed req p =>
      obtain ⟨⟨x, w₁⟩, hr, he⟩ := Option.map_eq_some_iff.mp hs
      rw [← (Prod.mk.inj he).1] at hq
      exact settleSave_unsaved hr hq
  | failed req p =>
      obtain ⟨⟨x, w₁⟩, hr, he⟩ := Option.map_eq_some_iff.mp hs
      rw [← (Prod.mk.inj he).1] at hq
      exact settleSave_unsaved hr hq
  | block b =>
      obtain ⟨⟨x, w₁⟩, hr, he⟩ := Option.map_eq_some_iff.mp hs
      rw [← (Prod.mk.inj he).1] at hq
      exact BlockPc.settle_saving hr hq

/-- A record that is loaded is of the room of its session. -/
theorem World.Dated.load (h : w.Dated env f) {sid : Sid} {r : SessionRecord}
    (hr : (World.load now sid w).1 = some r) : r.toSessionIdent.Fits f := by
  obtain ⟨r', hr', rfl⟩ := Option.map_eq_some_iff.mp hr
  rw [Store.getSession, Map.read_fst] at hr'
  obtain ⟨e, he, -, rfl⟩ := Map.lookup_eq_some.mp hr'
  exact (h.sess sid e he).1

theorem Handler.settle_dated {h h' : Handler}
    (hs : h.settle env now v k n info o w = some (h', w')) (hw : w.Dated env f)
    (hd : h.Dated env f) : h'.Dated env f := by
  cases h with
  | join p =>
      obtain ⟨⟨x, w₁⟩, hx, he⟩ := Option.map_eq_some_iff.mp hs
      rw [← (Prod.mk.inj he).1]
      cases p with
      | resume j token r =>
          obtain ⟨⟨y, w₂⟩, hy, he'⟩ := Option.map_eq_some_iff.mp hx
          rw [← (Prod.mk.inj he').1]
          refine ⟨?_, fun r' hr' => ?_⟩
          · rw [ResumePc.settle_room hy]
            exact hd.1
          · obtain ⟨sid, hload⟩ := ResumePc.settle_copies hy hr'
            exact hw.load hload
      | create j p =>
          obtain ⟨⟨y, w₂⟩, hy, he'⟩ := Option.map_eq_some_iff.mp hx
          rw [← (Prod.mk.inj he').1]
          exact CreatePc.settle_dated hy hd
      | _ =>
          obtain ⟨y, -, he'⟩ := Option.map_eq_some_iff.mp hx
          rw [← (Prod.mk.inj he').1]
          exact hd
  | send p =>
      obtain ⟨⟨x, w₁⟩, hx, he⟩ := Option.map_eq_some_iff.mp hs
      rw [← (Prod.mk.inj he).1]
      cases p with
      | escalate l site e =>
          obtain ⟨⟨y, w₂⟩, hy, he'⟩ := Option.map_eq_some_iff.mp hx
          rw [← (Prod.mk.inj he').1]
          exact fun q hq => hd q (EscalatePc.settle_saving hy hq)
      | reply => cases hx
      | _ =>
          obtain ⟨y, -, he'⟩ := Option.map_eq_some_iff.mp hx
          rw [← (Prod.mk.inj he').1]
          exact hd
  | challenge p =>
      obtain ⟨⟨x, w₁⟩, hx, he⟩ := Option.map_eq_some_iff.mp hs
      rw [← (Prod.mk.inj he).1]
      exact fun q hq => hd q (ChallengePc.settle_saving hx hq)
  | report p =>
      obtain ⟨x, -, he⟩ := Option.map_eq_some_iff.mp hs
      rw [← (Prod.mk.inj he).1]
      trivial

end settle

/-! ### Stretches -/

section stretches

variable {env : Env} {g : Sid → Option String}

theorem CreatePc.wait_dated {d d' : ℕ} {p p' : CreatePc}
    (hr : p.resume env d = some (.wait p', d')) (h : p.Dated env g) : p'.Dated env g := by
  unfold CreatePc.resume at hr
  split at hr
  · split at hr
    · cases hr
    · cases hr
    · cases hr
      exact ⟨h.1, rfl, h.2⟩
    · split at hr
      · cases hr
        exact h
      · cases hr
  · split at hr
    · cases hr
    · cases hr
      exact h
    · cases hr
      exact h
  · split at hr
    · cases hr
    · cases hr
    · split at hr <;> cases hr

theorem CreatePc.done_dated {d d' : ℕ} {p : CreatePc} {r : SessionRecord} {token : Token}
    (hr : p.resume env d = some (.done r token, d')) (h : p.Dated env g) :
    r.toSessionIdent.Fits g := by
  unfold CreatePc.resume at hr
  split at hr
  · split at hr
    · cases hr
    · cases hr
    · cases hr
    · split at hr <;> cases hr
  · split at hr <;> cases hr
  · split at hr
    · cases hr
    · cases hr
    · split at hr
      · cases hr
        exact h.2.2
      · cases hr

theorem CreatePc.resume_draws {d d' : ℕ} {p : CreatePc} {r : CreateRes}
    (hr : p.resume env d = some (r, d')) : d ≤ d' := by
  unfold CreatePc.resume at hr
  split at hr
  · split at hr
    · cases hr
    · cases hr
      exact le_refl _
    · cases hr
      exact Nat.le_succ _
    · split at hr
      · cases hr
        exact Nat.le_succ _
      · cases hr
        exact le_refl _
  · split at hr <;> cases hr <;> exact le_refl _
  · split at hr
    · cases hr
    · cases hr
      exact le_refl _
    · cases hr
      exact le_refl _

/-- `persist` pairs the record with the end of the server's room, which is the record's. -/
theorem Core.saveReq_dated {c : Core} {k : ConnKey} {q : Rating} {req : SaveReq}
    (hq : c.saveReq k q = some req) (hroom : env.Daily (c.roomOf k))
    (hheld : ∀ r, (c.conn k).record = some r → r.Fits g) : req.Dated env g := by
  unfold Core.saveReq at hq
  split at hq
  · cases hq
  · rename_i r hr
    split at hq
    · cases hq
    · rename_i he
      cases hq
      refine ⟨hheld r hr, ⟨c.roomOf k, hroom, ?_, rfl⟩⟩
      exact (not_not.mp he).symm

theorem unsaved_savePromise {req : Option SaveReq} {q : SaveReq}
    (h : unsaved req (Sys.savePromise req) = some q) : req = some q := by
  cases req with
  | none => cases h
  | some r => exact h

variable {c c₁ : Core} {k : ConnKey} (hroom : env.Daily (c.roomOf k))
  (hheld : ∀ r, (c.conn k).record = some r → r.Fits g)

include hroom hheld

theorem BlockMove.dated {b b' : BlockPc} (hb : BlockMove c k b b') :
    ∀ q, b'.saving = some q → q.Dated env g := by
  intro q hq
  cases hb with
  | net => cases hq
  | save q' hp => exact Core.saveReq_dated (unsaved_savePromise hq) hroom hheld
  | saveNet q' hp => exact Core.saveReq_dated (unsaved_savePromise hq) hroom hheld

theorem Escalates.dated {e : EscalatePc} (he : Escalates c k c₁ e) :
    ∀ q, e.saving = some q → q.Dated env g := by
  intro q hq
  cases he with
  | quiet => cases hq
  | @challenge r q' hr =>
      refine Core.saveReq_dated (unsaved_savePromise hq) hroom ?_
      rw [Core.issue_conn]
      exact hheld
  | block => cases hq

theorem EscalateMove.dated {e e' : EscalatePc} (he : EscalateMove c k e c₁ e') :
    ∀ q, e'.saving = some q → q.Dated env g := by
  cases he with
  | challenged => exact fun q hq => by cases hq
  | block hb => exact hb.dated hroom hheld
  | blocked => exact fun q hq => by cases hq

omit hheld in
theorem JoinMove.dated {p p' : JoinPc} {d : ℕ} (hm : JoinMove env c k p p' d)
    (h : (Handler.join p).Dated env g)
    (hnew : ∀ j room p₀, p = .newsess j room p₀ → c.draws < d →
      g (env.newSessionId c.draws) = some room.roomId) : (Handler.join p').Dated env g := by
  cases hm with
  | @resume j token r r' hr =>
      refine ⟨?_, fun x hx => ?_⟩
      · rw [ResumePc.wait_room hr]
        exact h.1
      · rw [ResumePc.wait_copies hr] at hx
        cases hx
  | unknown => exact h.1
  | found hr => exact h.2 _ (ResumePc.done_copies hr)
  | create input hp => exact ⟨h, hnew _ _ _ rfl (Nat.lt_succ_self _)⟩
  | creating hp => exact CreatePc.wait_dated hp h
  | created hp => exact CreatePc.done_dated hp h
  | rejoined => exact h
  | retryCreated => exact hroom
  | retryRejoined => exact hroom

/-- A stretch of a handler goes on with a room of the calendar, with records of the rooms of
their sessions, and with saves of them. -/
theorem Act.dated {up : Bool} {h h' : Option Handler} (ha : Act env k up c h c₁ h')
    (hh : ∀ x, h = some x → x.Dated env g)
    (hnew : ∀ j room p₀, h = some (.join (.newsess j room p₀)) → c.draws < c₁.draws →
      g (env.newSessionId c.draws) = some room.roomId) : ∀ x, h' = some x → x.Dated env g := by
  intro x hx
  cases ha with
  | idle => cases hx
  | joinStart =>
      cases hx
      exact ⟨hroom, fun r hr => by cases hr⟩
  | joinFresh =>
      cases hx
      exact hroom
  | joinMove hp =>
      cases hx
      refine hp.dated hroom (hh _ rfl) fun j room p₀ he hlt => hnew j room p₀ ?_ hlt
      rw [he]
  | joinOver => cases hx
  | joinBlocked => cases hx
  | joinWelcome => cases hx
  | sendLimited hl he =>
      cases hx
      exact Escalates.dated (c := c.observe _) hroom hheld he
  | sendEscalate hs he =>
      cases hx
      exact he.dated hroom hheld
  | sendAccept =>
      cases hx
      exact hroom
  | sendEscalating he =>
      cases hx
      exact he.dated hroom hheld
  | sendReply => cases hx
  | verify =>
      cases hx
      exact fun q hq => by cases hq
  | passed q =>
      cases hx
      intro q' hq'
      refine Core.saveReq_dated (unsaved_savePromise hq') hroom ?_
      rw [Core.pass_conn]
      exact hheld
  | failed q =>
      cases hx
      intro q' hq'
      refine Core.saveReq_dated (unsaved_savePromise hq') hroom ?_
      rw [Core.fail_conn]
      exact hheld
  | failedOver => cases hx
  | failedBlock =>
      cases hx
      exact fun q hq => by cases hq
  | challengeBlock hb =>
      cases hx
      exact hb.dated hroom hheld
  | challengeBlocked => cases hx
  | _ =>
      cases hx
      trivial

end stretches

theorem Act.draws_le {env : Env} {k : ConnKey} {up : Bool} {c c₁ : Core} {h h' : Option Handler}
    (ha : Act env k up c h c₁ h') : c.draws ≤ c₁.draws := by
  cases ha with
  | joinMove hp =>
      cases hp with
      | create => exact Nat.le_succ _
      | creating hr => exact CreatePc.resume_draws hr
      | created hr => exact CreatePc.resume_draws hr
      | retryCreated hr => exact CreatePc.resume_draws hr
      | _ => exact le_refl _
  | joinOver hr => exact CreatePc.resume_draws hr
  | sendSwitch =>
      rw [Core.checkRoom_frame]
      exact le_refl _
  | sendLimited hl he =>
      rw [he.frame]
      exact le_refl _
  | sendEscalate hs he =>
      rw [he.frame]
  | sendEscalating he =>
      rw [he.frame]
  | sendAccept => exact Nat.le_succ _
  | sendReply =>
      split <;> exact le_refl _
  | _ => exact le_refl _

/-! ### The store -/

section store

variable {env : Env} {f : Sid → Option String} {c : Core}

theorem CreatePc.Dated.saving {p : CreatePc} {q : SaveReq} (h : p.Dated env f)
    (hq : p.saving = some q) : q.Dated env f := by
  cases p with
  | save room record token p =>
      obtain ⟨hroom, he, hfit⟩ := h
      cases p with
      | pending =>
          cases hq
          exact ⟨hfit, ⟨room, hroom, he.symm, rfl⟩⟩
      | _ => cases hq
  | _ => cases hq

theorem Handler.Dated.saving {h : Handler} {q : SaveReq} (hd : h.Dated env f)
    (hq : h.saving = some q) : q.Dated env f := by
  cases h with
  | join p =>
      cases p with
      | create j p => exact CreatePc.Dated.saving hd hq
      | _ => cases hq
  | send p =>
      cases p with
      | escalate l site e => exact hd q hq
      | _ => cases hq
  | challenge p => exact hd q hq
  | report p => cases hq

/-- Every save under way pairs a record with the end of its room. -/
theorem Dated.saving (h : Dated env f c) {th : Thread} {k : ConnKey} {q : SaveReq}
    (hq : c.saving th = some (k, q)) : q.Dated env f := by
  cases th with
  | handler j =>
      obtain ⟨q', hq', he⟩ := Option.map_eq_some_iff.mp hq
      obtain ⟨-, rfl⟩ := Prod.mk.inj he
      obtain ⟨x, hx, hs⟩ := Option.bind_eq_some_iff.mp hq'
      exact (h.handler j x hx).saving hs
  | rollover j =>
      obtain ⟨q', hq', he⟩ := Option.map_eq_some_iff.mp hq
      obtain ⟨-, rfl⟩ := Prod.mk.inj he
      obtain ⟨p, hp, hs⟩ := Option.bind_eq_some_iff.mp hq'
      exact (h.rolling j p hp).saving hs
  | task n =>
      unfold Core.saving at hq
      dsimp only at hq
      split at hq
      · rename_i j req p hb
        obtain ⟨q', hq', he⟩ := Option.map_eq_some_iff.mp hq
        obtain ⟨-, rfl⟩ := Prod.mk.inj he
        cases p with
        | pending =>
            cases hq'
            exact h.task n _ hb
        | _ => cases hq'
      · cases hq
  | _ => cases hq

theorem Dated.creating (h : Dated env f c) {th : Thread} {p : CreatePc}
    (hp : c.creating th = some p) : p.Dated env f := by
  cases th with
  | handler j =>
      unfold Core.creating at hp
      dsimp only at hp
      split at hp
      · rename_i j' p' hh
        cases hp
        exact h.handler j _ hh
      · cases hp
  | rollover j =>
      obtain ⟨r, hr, rfl⟩ := Option.map_eq_some_iff.mp hp
      exact h.rolling j r hr
  | _ => cases hp

theorem Effect.dated {th : Thread} {w : World} (he : Effect env c th w) (h : Dated env f c) :
    w.Dated env f := by
  have hw := h.world
  cases he with
  | @save k req hq =>
      have hd := h.saving hq
      refine ⟨fun sid e he => ?_, hw.resume, hw.names, hw.lists⟩
      replace he : c.world.store.sess.write req.record.sid req.record req.expireAt sid = some e :=
        he
      by_cases hs : sid = req.record.sid
      · subst hs
        rw [Map.write_same] at he
        cases he
        exact ⟨hd.fits, hd.ends⟩
      · rw [Map.write_ne _ _ _ hs] at he
        exact hw.sess sid e he
  | load sid => exact ⟨fun _ _ he => hw.sess _ _ (Map.read_snd_eq_some he), hw.resume, hw.names,
      hw.lists⟩
  | @append k l room m ht hh =>
      have hroom : env.Daily room := h.handler k _ hh
      refine ⟨hw.sess, hw.resume, hw.names, fun roomId e he => ?_⟩
      by_cases hr : roomId = room.roomId
      · subst hr
        rw [show (World.append c.clock env.config.historyLimit k (c.conn k).handled l room m
          c.world).2.store.lists room.roomId = some ⟨_, room.endsAt⟩ from Map.write_same ..] at he
        cases he
        exact hroom.ends
      · rw [show (World.append c.clock env.config.historyLimit k (c.conn k).handled l room m
          c.world).2.store.lists roomId = c.world.store.lists roomId from
            Map.write_ne _ _ _ hr] at he
        exact hw.lists roomId e he
  | @claim room input sid i candidate names hc hn =>
      obtain ⟨hroom, hfit⟩ : env.Daily room ∧ f sid = some room.roomId := h.creating hc
      refine ⟨hw.sess, hw.resume, fun roomId name e he => ?_, hw.lists⟩
      rcases hn _ e he with he | ⟨hkey, rfl⟩
      · exact hw.names roomId name e he
      · obtain ⟨rfl, -⟩ := Prod.mk.inj hkey
        exact ⟨hfit, hroom.ends⟩
  | @link room record token saved hc =>
      obtain ⟨hroom, hid, hfit⟩ : env.Daily room ∧ record.roomId = room.roomId ∧
        record.toSessionIdent.Fits f := h.creating hc
      refine ⟨hw.sess, fun hash e he => ?_, hw.names, hw.lists⟩
      replace he : c.world.store.resume.write (hashToken token) record.sid room.endsAt hash =
        some e := he
      by_cases hs : hash = hashToken token
      · subst hs
        rw [Map.write_same] at he
        cases he
        refine ⟨record.roomId, hfit, ?_⟩
        rw [hid]
        exact hroom.ends
      · rw [Map.write_ne _ _ _ hs] at he
        exact hw.resume hash e he
  | deleteRoom roomId' =>
      refine ⟨hw.sess, hw.resume, fun roomId name e he => ?_, fun roomId e he => ?_⟩
      · replace he : (if roomId = roomId' then none else c.world.store.names (roomId, name)) =
          some e := he
        split at he
        · cases he
        · exact hw.names roomId name e he
      · replace he : c.world.store.lists.erase roomId' roomId = some e := he
        by_cases hr : roomId = roomId'
        · rw [hr, Map.erase_same] at he
          cases he
        · rw [Map.erase_ne _ hr] at he
          exact hw.lists roomId e he
  | resolve hash => exact ⟨hw.sess, fun _ _ he => hw.resume _ _ (Map.read_snd_eq_some he), hw.names,
      hw.lists⟩
  | other hk =>
      refine ⟨fun sid e he => ?_, fun hash e he => ?_, fun roomId name e he => ?_,
        fun roomId e he => ?_⟩
      · exact hw.sess sid e (by rw [← hk.sess]; exact he)
      · exact hw.resume hash e (by rw [← hk.resume]; exact he)
      · exact hw.names roomId name e (hk.names _ e he)
      · exact hw.lists roomId e (by rw [← hk.lists]; exact he)
  | _ => exact ⟨hw.sess, hw.resume, hw.names, hw.lists⟩

theorem WorldStep.dated {up : ConnKey → Bool} {l : Label} {w : World}
    (hs : WorldStep env up c l w) (h : Dated env f c) : w.Dated env f := by
  have hw := h.world
  cases hs with
  | settled hl ho he => exact he.dated h
  | _ => exact ⟨hw.sess, hw.resume, hw.names, hw.lists⟩

end store

/-! ### Steps -/

/-- The rollovers that start draw the ids of their sessions. -/
theorem Begins.creating {env : Env} {i : InstanceId} {next : DailyRoom} {c c' : Core} {ns : List ℕ}
    (h : Begins env i next c ns c') (j : ConnKey) : (c'.conn j).rolling = (c.conn j).rolling ∨
      ∃ (d : ℕ) (input : NewSessionInput) (now : ℤ), c.draws ≤ d ∧ d < c'.draws ∧
        (c'.conn j).rolling = some ⟨now, next, createSession env d next input⟩ := by
  induction h with
  | nil c => exact Or.inl rfl
  | @cons c c' n ns q h ih =>
      rcases Core.rollover_cases env c ⟨i, n⟩ next q with hc | ⟨-, -, input, -, hc⟩
      · rw [hc] at ih
        exact ih
      · have hle := h.draws_le
        rw [hc] at ih hle
        have hlt : c.draws < c'.draws := hle
        rcases ih with ih | ⟨d, input', now, hd, hlt', ih⟩
        · by_cases hk : j = ⟨i, n⟩
          · subst hk
            refine Or.inr ⟨c.draws, input, c.clock, le_refl _, hlt, ih.trans ?_⟩
            rw [Core.setRolling, Core.updConn_conn]
          · refine Or.inl (ih.trans ?_)
            rw [Core.setRolling, Core.updConn_conn_ne _ hk]
            rfl
        · exact Or.inr ⟨d, input', now, (Nat.le_succ _).trans hd, hlt', ih⟩

theorem Batches.creating {env : Env} {i : InstanceId} {prev next : DailyRoom} {c c' : Core}
    {rest : List ℕ} (h : Batches env i prev next c rest c') (j : ConnKey) :
    c.draws ≤ c'.draws ∧ ((c'.conn j).rolling = (c.conn j).rolling ∨
      ∃ (d : ℕ) (input : NewSessionInput) (now : ℤ), c.draws ≤ d ∧ d < c'.draws ∧
        (c'.conn j).rolling = some ⟨now, next, createSession env d next input⟩) := by
  cases h with
  | ended => exact ⟨le_refl _, Or.inl rfl⟩
  | batch hne hb => exact ⟨hb.draws_le, hb.creating j⟩

theorem ResetMove.creating {env : Env} {i : InstanceId} {c c' : Core} {p : RollingPc}
    (h : ResetMove env i c p c') (j : ConnKey) :
    c.draws ≤ c'.draws ∧ ((c'.conn j).rolling = (c.conn j).rolling ∨
      ∃ (d : ℕ) (input : NewSessionInput) (now : ℤ), c.draws ≤ d ∧ d < c'.draws ∧
        (c'.conn j).rolling = some ⟨now, p.next, createSession env d p.next input⟩) := by
  cases h with
  | listed hp hb =>
      have hnext := hb.creating j
      rcases hp with ⟨q, rfl⟩ | ⟨q, rfl⟩ | ⟨q, rfl⟩ <;> exact hnext
  | next hb => exact hb.creating j
  | _ => exact ⟨le_refl _, Or.inl rfl⟩

theorem RolloverMove.draws_le {env : Env} {k : ConnKey} {up : Bool} {prev : DailyRoom} {c c' : Core}
    {p : RolloverPc} (h : RolloverMove env k up prev c p c') : c.draws ≤ c'.draws := by
  cases h with
  | wait hr => exact CreatePc.resume_draws hr
  | closed hr => exact CreatePc.resume_draws hr
  | enter hr => exact CreatePc.resume_draws hr
  | threw hr => exact CreatePc.resume_draws hr

theorem CoreStep.draws_le {env : Env} {up : ConnKey → Bool} {c c' : Core} {l : Label}
    (h : CoreStep env up c l c') : c.draws ≤ c'.draws := by
  cases h with
  | act hh ha => exact ha.draws_le
  | handle hk hh ha => exact ha.draws_le
  | rollover hp hprev hm => exact hm.draws_le
  | @reset i p c' hp hm => exact (hm.creating ⟨i, 0⟩).1
  | tick =>
      rw [Core.checkRoom_frame]
  | message =>
      rw [Core.onMessage_frame]
      exact le_refl _
  | @settle th o v c' hs =>
      cases th with
      | chore => cases hs
      | _ =>
          obtain ⟨x, -, hs⟩ := Option.bind_eq_some_iff.mp hs
          obtain ⟨r, -, rfl⟩ := Option.map_eq_some_iff.mp hs
          exact le_refl _
  | _ => exact le_refl _

/-- A server that has started is in a room of the calendar. -/
theorem SrvStep.daily {env : Env} {c : Core} {l : Label} {i : InstanceId} {v : Srv}
    (h : SrvStep env c l i v) (hI : (c.srv i).started = true → env.Daily (c.srv i).room)
    (hv : v.started = true) : env.Daily v.room := by
  cases h with
  | start hs => exact ⟨_, rfl⟩
  | switch hl hr hn hnext => exact ⟨_, hnext.symm⟩
  | @close k hl hc hi =>
      have he : (((c.shut k).onClosed k).srv i).started = (c.srv i).started ∧
          (((c.shut k).onClosed k).srv i).room = (c.srv i).room := by
        subst hi
        unfold Core.onClosed
        rw [Core.updSrv_srv]
        split <;> exact ⟨rfl, rfl⟩
      rw [he.2]
      rw [he.1] at hv
      exact hI hv
  | _ => exact hI hv

/-- The room of the sessions whose ids a step draws. -/
def Core.drawsFor (c : Core) : Label → String
  | .resume (.handler k) =>
      match (c.conn k).handler with
      | some (.join (.newsess _ room _)) => room.roomId
      | _ => ""
  | .resume (.reset i) => (c.srv i).room.roomId
  | _ => ""

theorem Core.entering_handler {c : Core} {k : ConnKey} {r : SessionRecord}
    (h : c.entering k = some r) :
    ∃ j token p, (c.conn k).handler = some (.join (.block j r token p)) := by
  unfold Core.entering at h
  split at h
  · rename_i j r' token p hh
    obtain rfl : r' = r := by
      split at h
      · split at h
        · exact Option.some.inj h
        · cases h
      · cases h
    exact ⟨j, token, p, hh⟩
  · cases h

section step

variable {env : Env} {up : ConnKey → Bool} {c c' : Core} {l : Label} {f g : Sid → Option String}

theorem Dated.held_step (hs : CoreStep env up c l c') (hS : Seats c) (hg : Extends g f)
    (h : Dated env f c) (k : ConnKey) (r : SessionIdent) (hr : (c'.conn k).record = some r) :
    r.Fits g := by
  refine SessionIdent.Fits.mono hg ?_
  have hx := hs.shift hS k
  replace hr : (c'.berth k).record = some r := hr
  generalize c'.berth k = b at hx hr
  cases hx with
  | accept => cases hr
  | enter hl he =>
      cases hr
      obtain ⟨j, token, p, hh⟩ := Core.entering_handler he
      exact h.handler k _ hh
  | renewed hl hp hres hc =>
      cases hr
      exact CreatePc.done_dated hres (h.rolling k _ hp)
  | _ => exact h.held k r hr

theorem Dated.handler_step (hs : CoreStep env up c l c') (hB : Born c) (hg : Extends g f)
    (hnew : c.draws < c'.draws → g (env.newSessionId c.draws) = some (c.drawsFor l))
    (h : Dated env f c) (k : ConnKey) (x : Handler) (hx : (c'.conn k).handler = some x) :
    x.Dated env g := by
  have kept : (c.conn k).handler = some x → x.Dated env g := fun hh => (h.handler k x hh).mono hg
  have held : ∀ r, (c.conn k).record = some r → r.Fits g := fun r hr => (h.held k r hr).mono hg
  have hc := hs.conn k
  by_cases hl : l = .resume (.handler k) ∨ l = .handle k
  · rcases hl with rfl | rfl
    · cases hs with
      | same => exact kept hx
      | @act k h₀ c₁ h' hh ha =>
          have hst : (c.srv k.inst).started = true := by
            cases hst : (c.srv k.inst).started with
            | true => rfl
            | false =>
                rw [hB.unstarted hst] at hh
                cases hh
          rw [Core.setHandler_conn] at hx
          refine ha.dated (h.rooms k.inst hst) held (fun z hz => ?_) (fun j room p he hlt => ?_)
            x hx
          · cases hz
            exact (h.handler k _ hh).mono hg
          · cases he
            have := hnew hlt
            rwa [Core.drawsFor, hh] at this
    · cases hs with
      | same => exact kept hx
      | @handle k c₁ h' hk hh ha =>
          rw [Core.setHandler_conn] at hx
          have hd : ∀ r, ((c.take k).conn k).record = some r → r.Fits g := by
            rw [Core.take_conn]
            exact held
          refine Act.dated (c := c.take k) (h.rooms k.inst (hB.running k hk)) hd ha
            (fun z hz => ?_) (fun j room p he hlt => ?_) x hx
          · cases hz
          · cases he
  · by_cases hset : ∃ o v, l = .settle (.handler k) o v
    · obtain ⟨o, v, rfl⟩ := hset
      rcases hs.settledHandler with rfl | ⟨h₀, h', hh, hh', hr⟩
      · exact kept hx
      · obtain rfl := Option.some.inj (hh'.symm.trans hx)
        exact (Handler.settle_dated hr h.world (h.handler k h₀ hh)).mono hg
    · generalize c'.conn k = y at hc hx
      cases hc with
      | act hl' => exact absurd (Or.inl hl') hl
      | handle hl' => exact absurd (Or.inr hl') hl
      | settled hl' => exact absurd ⟨_, _, hl'⟩ hset
      | accepted => cases hx
      | _ => exact kept hx

theorem Dated.rolling_step (hs : CoreStep env up c l c') (hR : Renewals c) (hg : Extends g f)
    (hnew : ∀ d, c.draws ≤ d → d < c'.draws → g (env.newSessionId d) = some (c.drawsFor l))
    (h : Dated env f c) (k : ConnKey) (p : RolloverPc) (hp : (c'.conn k).rolling = some p) :
    p.create.Dated env g := by
  have kept : ∀ q, (c.conn k).rolling = some q → q.create.Dated env g :=
    fun q hq => (h.rolling k q hq).mono hg
  by_cases hl : ∃ i, l = .resume (.reset i)
  · obtain ⟨i, rfl⟩ := hl
    cases hs with
    | same => exact kept p hp
    | @reset i q c' hq hm =>
        rcases (hm.creating k).2 with he | ⟨d, input, now, hd, hlt, he⟩
        · rw [he] at hp
          exact kept p hp
        · rw [he] at hp
          cases hp
          have hst : (c.srv i).started = true := by
            cases hst : (c.srv i).started with
            | true => rfl
            | false =>
                rw [hR.started i hst] at hq
                cases hq
          have hnext : q.next = (c.srv i).room := ((hR.fits ⟨i, 0⟩).room q hq).1
          have hdr := hnew d hd hlt
          rw [hnext]
          exact ⟨h.rooms i hst, hdr⟩
  · have hx := hs.conn k
    generalize c'.conn k = y at hx hp
    cases hx with
    | act hl' hh ha =>
        rw [show _ = (c.conn k).rolling from ha.kept.rolling] at hp
        exact kept p hp
    | handle hl' hk hh ha =>
        rw [show _ = ((c.take k).conn k).rolling from ha.kept.rolling, Core.take_conn] at hp
        exact kept p hp
    | accepted => cases hp
    | begins hd hj hc hi hl' => exact absurd hl' hl
    | @rolling q q' o v w hl' hq hset =>
        cases hp
        obtain ⟨⟨x, w'⟩, hr, he⟩ := Option.map_eq_some_iff.mp hset
        rw [← (Prod.mk.inj he).1]
        exact (CreatePc.settle_dated hr (h.rolling k q hq)).mono hg
    | creating hq hr =>
        cases hp
        exact (CreatePc.wait_dated hr (h.rolling k _ hq)).mono hg
    | rolled => cases hp
    | renewed => cases hp
    | _ => exact kept p hp

theorem Dated.task_step (hs : CoreStep env up c l c') (hB : Born c) (hg : Extends g f)
    (h : Dated env f c) (n : ℕ) (b : Task) (hb : c'.task n = some b) : b.Dated env g := by
  refine Task.Dated.mono hg ?_
  have hx := hs.task_step n
  rw [hb] at hx
  generalize hob : some b = ob at hx
  cases hx with
  | same => exact h.task n b hob.symm
  | @settled o v b₀ b' w hl' hb' hset =>
      cases hob
      cases b₀ with
      | persist k req p =>
          obtain ⟨q, -, he⟩ := Option.map_eq_some_iff.mp hset
          rw [← (Prod.mk.inj he).1]
          have hreq := h.task n _ hb'
          exact hreq
      | admin i a =>
          obtain ⟨q, -, he⟩ := Option.map_eq_some_iff.mp hset
          rw [← (Prod.mk.inj he).1]
          trivial
  | ended => cases hob
  | admin =>
      cases hob
      trivial
  | @save k q req hq =>
      cases hob
      have hst : (c.srv k.inst).started = true := by
        cases hst : (c.srv k.inst).started with
        | true => rfl
        | false =>
            rw [Core.saveReq, hB.unstarted hst] at hq
            cases hq
      exact Core.saveReq_dated hq (h.rooms k.inst hst) (h.held k)

/-- A step keeps the pairing, for the ids it draws are of sessions of one room. -/
theorem Dated.step (hs : CoreStep env up c l c') (hS : Seats c) (hB : Born c) (hR : Renewals c)
    (h : Dated env f c) : Dated env (assign env f c.draws c'.draws (c.drawsFor l)) c' := by
  have hg : Extends (assign env f c.draws c'.draws (c.drawsFor l)) f := assign_extends
  have hnew := fun d (hd : c.draws ≤ d) (hlt : d < c'.draws) =>
    @assign_new env f c.draws c'.draws (c.drawsFor l) h.drawn d hd hlt
  exact ⟨assign_drawn hs.draws_le h.drawn, (hs.world.dated h).mono hg,
    fun i => (hs.srv i).daily (h.rooms i), h.held_step hs hS hg,
    h.handler_step hs hB hg fun hlt => hnew c.draws (le_refl _) hlt,
    h.rolling_step hs hR hg hnew, h.task_step hs hB hg⟩

end step

theorem initial_dated {env : Env} (t : ℤ) : Dated env (fun _ => none) (Sys.initial t).toCore := by
  refine ⟨fun sid x hx => ?_, ⟨fun sid e he => ?_, fun hash e he => ?_, fun roomId name e he => ?_,
    fun roomId e he => ?_⟩, fun i hi => ?_, fun k r hr => ?_, fun k x hx => ?_, fun k p hp => ?_,
    fun n b hb => ?_⟩
  · cases hx
  · cases he
  · cases he
  · cases he
  · cases he
  · cases hi
  · cases hr
  · cases hx
  · cases hp
  · cases hb

theorem dated_of_reaches {env : Env} {C : Sys → Label → Prop} {s : Sys}
    (h : (system env).Reaches C s) : ∃ f, Dated env f s.toCore := by
  refine Machine.Reaches.invariant_of
    (J := fun s => Seats s.toCore ∧ Born s.toCore ∧ Renewals s.toCore)
    (I := fun s => ∃ f, Dated env f s.toCore)
    (fun s hs => ⟨seats_of_reaches hs, born_of_reaches hs, renewals_of_reaches hs⟩) ?_ ?_ h
  · rintro s ⟨t, rfl⟩
    exact ⟨_, initial_dated t⟩
  · rintro s l t ⟨hS, hB, hR⟩ ⟨f, hf⟩ _ hs
    exact ⟨_, hf.step (Sys.coreStep hs) hS hB hR⟩

/-! ### The same writes on a `RedisStore` -/

/-- The write `create` waits for. -/
def CreatePc.write : CreatePc → Option DayWrite
  | claim room _ sid _ candidate .pending => some (.claimName room.roomId candidate sid room.endsAt)
  | save room record _ .pending => some (.saveSession record room.endsAt)
  | link room record token _ .pending => some (.setResume (hashToken token) record.sid room.endsAt)
  | _ => none

/-- The day-scoped write a frame handler waits for. -/
def Handler.write : Handler → Option DayWrite
  | .join (.create _ p) => p.write
  | .send (.append _ room m .pending) => some (.appendMessage room.roomId m room.endsAt)
  | h => h.saving.map fun q => .saveSession q.record q.expireAt

/-- The day-scoped write a thread waits for. -/
def Core.write (c : Core) : Thread → Option DayWrite
  | .handler k => (c.conn k).handler.bind Handler.write
  | .rollover k => (c.conn k).rolling.bind fun p => p.create.write
  | .reset i =>
      match (c.srv i).rolling with
      | some (.cleanup prev _ .pending) => some (.deleteRoom prev.roomId)
      | _ => none
  | th => (c.saving th).map fun q => .saveSession q.2.record q.2.expireAt

/-- The store after a step: what the thread waits for is written when it takes effect. -/
def Sys.redis (env : Env) (s : Sys) (r : RedisStore) : Label → RedisStore
  | .settle th o _ =>
      if o.applied then
        match s.toCore.write th with
        | some w => r.perform s.clock env.config.historyLimit w
        | none => r
      else r
  | _ => r

/-- The system, with every day-scoped write made on a `RedisStore` too. -/
def mirrored (env : Env) : Machine (Sys × RedisStore) Label :=
  { init := fun x => (system env).init x.1 ∧ x.2 = RedisStore.empty
    step := fun x l => (x.1.step env l).map fun t => (t, x.1.redis env x.2 l) }

section redis

variable (env : Env) (f : Sid → Option String)

/-- The write pairs what it writes with the end of its room. -/
def DayWrite.Dated : DayWrite → Prop
  | claimName roomId _ sid expireAt => f sid = some roomId ∧ env.Ends roomId expireAt
  | saveSession r expireAt => r.toSessionIdent.Fits f ∧ env.Ends r.roomId expireAt
  | setResume _ sid expireAt => ∃ roomId, f sid = some roomId ∧ env.Ends roomId expireAt
  | appendMessage roomId _ expireAt => env.Ends roomId expireAt
  | deleteRoom _ => True

/-- Everything a day owns expires at the end of that day, its history a grace period later. -/
structure RedisStore.Dated (r : RedisStore) : Prop where
  sess : ∀ sid e, r.sess sid = some e → e.v.toSessionIdent.Fits f ∧ env.Ends e.v.roomId e.exp
  resume : ∀ hash e, r.resume hash = some e →
    ∃ roomId, f e.v = some roomId ∧ env.Ends roomId e.exp
  names : ∀ roomId name e, r.names (roomId, name) = some e →
    f e.v = some roomId ∧ env.Ends roomId e.exp
  lists : ∀ roomId e, r.lists roomId = some e → env.Ends roomId (e.exp - ROOM_GRACE_MS)

variable {env f}

theorem CreatePc.Dated.write {p : CreatePc} {w : DayWrite} (h : p.Dated env f)
    (hw : p.write = some w) : w.Dated env f := by
  unfold CreatePc.write at hw
  split at hw
  · cases hw
    exact ⟨h.2, h.1.ends⟩
  · cases hw
    refine ⟨h.2.2, ?_⟩
    rw [h.2.1]
    exact h.1.ends
  · cases hw
    refine ⟨_, h.2.2, ?_⟩
    rw [h.2.1]
    exact h.1.ends
  · cases hw

theorem Handler.Dated.write {h : Handler} {w : DayWrite} (hd : h.Dated env f)
    (hw : h.write = some w) : w.Dated env f := by
  unfold Handler.write at hw
  split at hw
  · exact CreatePc.Dated.write hd hw
  · cases hw
    exact Env.Daily.ends hd
  · obtain ⟨q, hq, rfl⟩ := Option.map_eq_some_iff.mp hw
    exact ⟨(hd.saving hq).fits, (hd.saving hq).ends⟩

theorem Dated.write {c : Core} (h : Dated env f c) {th : Thread} {w : DayWrite}
    (hw : c.write th = some w) : w.Dated env f := by
  cases th with
  | handler k =>
      obtain ⟨x, hx, hw⟩ := Option.bind_eq_some_iff.mp hw
      exact (h.handler k x hx).write hw
  | rollover k =>
      obtain ⟨p, hp, hw⟩ := Option.bind_eq_some_iff.mp hw
      exact (h.rolling k p hp).write hw
  | reset i =>
      unfold Core.write at hw
      dsimp only at hw
      split at hw
      · cases hw
        trivial
      · cases hw
  | task n =>
      obtain ⟨⟨k, q⟩, hq, rfl⟩ := Option.map_eq_some_iff.mp hw
      exact ⟨(h.saving hq).fits, (h.saving hq).ends⟩
  | upgrade n => cases hw
  | chore n => cases hw

theorem RedisStore.Dated.perform {r : RedisStore} {now : ℤ} {keep : ℕ} {w : DayWrite}
    (h : r.Dated env f) (hw : w.Dated env f) : (r.perform now keep w).Dated env f := by
  cases w with
  | claimName roomId name sid expireAt =>
      show (r.claimName now roomId name sid expireAt).Dated env f
      unfold RedisStore.claimName
      split
      · exact h
      · refine ⟨h.sess, h.resume, fun roomId' name' e he => ?_, h.lists⟩
        by_cases hk : (roomId', name') = (roomId, name)
        · obtain ⟨rfl, rfl⟩ := Prod.mk.inj hk
          dsimp only at he
          rw [Map.write_same] at he
          cases he
          exact hw
        · dsimp only at he
          rw [Map.write_ne _ _ _ hk] at he
          exact h.names roomId' name' e he
  | saveSession x expireAt =>
      refine ⟨fun sid e he => ?_, h.resume, h.names, h.lists⟩
      replace he : r.sess.write x.sid x expireAt sid = some e := he
      by_cases hk : sid = x.sid
      · subst hk
        rw [Map.write_same] at he
        cases he
        exact hw
      · rw [Map.write_ne _ _ _ hk] at he
        exact h.sess sid e he
  | setResume hash sid expireAt =>
      refine ⟨h.sess, fun hash' e he => ?_, h.names, h.lists⟩
      replace he : r.resume.write hash sid expireAt hash' = some e := he
      by_cases hk : hash' = hash
      · subst hk
        rw [Map.write_same] at he
        cases he
        exact hw
      · rw [Map.write_ne _ _ _ hk] at he
        exact h.resume hash' e he
  | appendMessage roomId msg expireAt =>
      refine ⟨h.sess, h.resume, h.names, fun roomId' e he => ?_⟩
      replace he : (r.appendMessage now roomId msg keep expireAt).lists roomId' = some e := he
      unfold RedisStore.appendMessage at he
      dsimp only at he
      by_cases hk : roomId' = roomId
      · subst hk
        split at he
        · rw [Map.erase_same] at he
          cases he
        · rw [Map.write_same] at he
          cases he
          dsimp only
          rw [show expireAt + ROOM_GRACE_MS - ROOM_GRACE_MS = expireAt by omega]
          exact hw
      · refine h.lists roomId' e ?_
        split at he
        · rwa [Map.erase_ne _ hk] at he
        · rwa [Map.write_ne _ _ _ hk] at he
  | deleteRoom roomId =>
      refine ⟨h.sess, h.resume, h.names, fun roomId' e he => ?_⟩
      replace he : r.lists.erase roomId roomId' = some e := he
      by_cases hk : roomId' = roomId
      · rw [hk, Map.erase_same] at he
        cases he
      · rw [Map.erase_ne _ hk] at he
        exact h.lists roomId' e he

theorem RedisStore.Dated.mono {g : Sid → Option String} {r : RedisStore} (hg : Extends g f)
    (h : r.Dated env f) : r.Dated env g := by
  refine ⟨fun sid e he => ?_, fun hash e he => ?_, fun roomId name e he => ?_, h.lists⟩
  · obtain ⟨hf, he⟩ := h.sess sid e he
    exact ⟨hf.mono hg, he⟩
  · obtain ⟨roomId, hf, he⟩ := h.resume hash e he
    exact ⟨roomId, hg _ _ hf, he⟩
  · obtain ⟨hf, he⟩ := h.names roomId name e he
    exact ⟨hg _ _ hf, he⟩

theorem Sys.redis_dated {s : Sys} {r : RedisStore} {l : Label} (h : Dated env f s.toCore)
    (hr : r.Dated env f) : (s.redis env r l).Dated env f := by
  unfold Sys.redis
  split
  · split
    · split
      · rename_i w hw
        exact hr.perform (h.write hw)
      · exact hr
    · exact hr
  · exact hr

end redis

/-! ### Runs -/

theorem mirrored_fst {env : Env} {x : Sys × RedisStore} (h : (mirrored env).Reaches Free x) :
    (system env).Reaches Free x.1 := by
  have hb : ((system env).beside RedisStore.empty fun s l _ r => s.redis env r l).Reaches Free x :=
    h
  exact hb.fst

theorem mirrored_dated {env : Env} {x : Sys × RedisStore} (h : (mirrored env).Reaches Free x) :
    ∃ f, Dated env f x.1.toCore ∧ x.2.Dated env f := by
  have hb : ((system env).beside RedisStore.empty fun s l _ r => s.redis env r l).Reaches Free x :=
    h
  refine hb.beside (I := fun s r => ∃ f, Dated env f s.toCore ∧ r.Dated env f) ?_ ?_
  · rintro s ⟨t, rfl⟩
    refine ⟨fun _ => none, initial_dated t, fun sid e he => ?_, fun hash e he => ?_,
      fun roomId name e he => ?_, fun roomId e he => ?_⟩
    · cases he
    · cases he
    · cases he
    · cases he
  · rintro s r l t hreach hs ⟨f, hf, hr⟩
    exact ⟨_, hf.step (Sys.coreStep hs) (seats_of_reaches hreach) (born_of_reaches hreach)
      (renewals_of_reaches hreach), (Sys.redis_dated hf hr).mono assign_extends⟩

/-- What is stored for the room expires when the room ends, its history `grace` later. -/
structure Expiries (f : Sid → Option String) (room : DailyRoom) (sess : Map Sid SessionRecord)
    (resume : Map TokenHash Sid) (names : Map (String × String) Sid)
    (lists : Map String (List StoredMessage)) (grace : ℤ) : Prop where
  sess : ∀ sid e, sess sid = some e → e.v.roomId = room.roomId → e.exp = room.endsAt
  resume : ∀ hash e, resume hash = some e → f e.v = some room.roomId → e.exp = room.endsAt
  names : ∀ name e, names (room.roomId, name) = some e → e.exp = room.endsAt
  lists : ∀ e, lists room.roomId = some e → e.exp = room.endsAt + grace

/-- **Expiries.** In every reached state every session has one room `f`, which is that of every
record that is held or stored for it, and everything stored for a room of the calendar expires
exactly at its end, in `MemoryStore` as in `RedisStore`, where only the history has ten minutes
more; and so does whatever a save under way is about to store. -/
theorem expiries_of_reaches {env : Env} {s : Sys} {r : RedisStore}
    (h : (mirrored env).Reaches Free (s, r)) : ∃ f : Sid → Option String,
    (∀ k x, (s.conn k).record = some x → f x.sid = some x.roomId) ∧
    (∀ sid e, s.world.store.sess sid = some e → f sid = some e.v.roomId) ∧
    (∀ hash e, s.world.store.resume hash = some e →
      ∃ room, env.Daily room ∧ f e.v = some room.roomId) ∧
    ∀ room, env.Daily room →
      Expiries f room s.world.store.sess s.world.store.resume s.world.store.names
        s.world.store.lists 0 ∧
      Expiries f room r.sess r.resume r.names r.lists ROOM_GRACE_MS ∧
      ∀ th k q, s.saving th = some (k, q) → q.record.roomId = room.roomId →
        q.expireAt = room.endsAt := by
  obtain ⟨f, hf, hr⟩ := mirrored_dated h
  have hw := hf.world
  refine ⟨f, hf.held, fun sid e he => ?_, fun hash e he => ?_, fun room hroom =>
    ⟨⟨fun sid e he hid => ?_, fun hash e he hid => ?_, fun name e he => ?_, fun e he => ?_⟩,
      ⟨fun sid e he hid => ?_, fun hash e he hid => ?_, fun name e he => ?_, fun e he => ?_⟩,
      fun th k q hq hid => ?_⟩⟩
  · have hsid := (sourced_of_reaches (mirrored_fst h)).world.sids sid e he
    have hfit : f e.v.sid = some e.v.roomId := (hw.sess sid e he).1
    rwa [hsid] at hfit
  · obtain ⟨roomId, hfit, room, hroom, rfl, -⟩ := hw.resume hash e he
    exact ⟨room, hroom, hfit⟩
  · exact (hw.sess sid e he).2.eq hroom hid.symm
  · obtain ⟨roomId, hfit, hends⟩ := hw.resume hash e he
    exact hends.eq hroom (Option.some.inj (hid.symm.trans hfit))
  · exact (hw.names room.roomId name e he).2.eq hroom rfl
  · rw [Int.add_zero]
    exact (hw.lists room.roomId e he).eq hroom rfl
  · exact (hr.sess sid e he).2.eq hroom hid.symm
  · obtain ⟨roomId, hfit, hends⟩ := hr.resume hash e he
    exact hends.eq hroom (Option.some.inj (hid.symm.trans hfit))
  · exact (hr.names room.roomId name e he).2.eq hroom rfl
  · have := (hr.lists room.roomId e he).eq hroom rfl
    omega
  · exact (hf.saving hq).ends.eq hroom hid.symm

/-- A run of the theorem: a client joins at noon and sends a message; its session and the
history expire at midnight, in Redis the history ten minutes later. -/
theorem expiries_sent : ∃ s r, (mirrored (Demo.env none)).Reaches Free (s, r) ∧
    ∃ e e' e'', s.world.store.sess 0 = some e ∧ e.exp = Demo.midnight ∧
      s.world.store.lists "2026-09-11" = some e' ∧ e'.exp = Demo.midnight ∧
      r.lists "2026-09-11" = some e'' ∧ e''.exp = Demo.midnight + 600000 := by
  have hrun : ((mirrored (Demo.env none)).execs (fun _ _ => true)
      (Sys.initial Demo.noon, RedisStore.empty)
      (Demo.oneJoined ++ Demo.sent (Demo.conn 1) "hello")).any (fun x =>
        (x.1.world.store.sess 0).any (fun e => decide (e.v.roomId = "2026-09-11")) &&
          (x.1.world.store.lists "2026-09-11").isSome && (x.2.lists "2026-09-11").isSome) =
      true := by decide +kernel
  obtain ⟨⟨s, r⟩, hs, hP⟩ := (Option.any_eq_true _ _).mp hrun
  simp only [Bool.and_eq_true] at hP
  obtain ⟨⟨hsess, hlist⟩, hredis⟩ := hP
  obtain ⟨e, he, hid⟩ := (Option.any_eq_true _ _).mp hsess
  obtain ⟨e', he'⟩ := Option.isSome_iff_exists.mp hlist
  obtain ⟨e'', he''⟩ := Option.isSome_iff_exists.mp hredis
  have hreach : (mirrored (Demo.env none)).Reaches Free (s, r) :=
    Machine.reaches_of_execs (fun _ _ _ => trivial) ⟨⟨Demo.noon, rfl⟩, rfl⟩ hs
  have hroom : (Demo.env none).roomAt Demo.noon =
      ⟨"2026-09-11", 185, 1789084800000, Demo.midnight⟩ := by
    decide +kernel
  obtain ⟨f, -, -, -, hf⟩ := expiries_of_reaches hreach
  obtain ⟨hmem, hred, -⟩ := hf _ ⟨Demo.noon, hroom⟩
  refine ⟨s, r, hreach, e, e', e'', he, hmem.sess 0 e he (of_decide_eq_true hid), he', ?_, he'', ?_⟩
  · exact (hmem.lists e' he').trans (Int.add_zero _)
  · exact hred.lists e'' he''

end RoomBackend
