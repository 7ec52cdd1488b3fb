import RoomBackend.Effects

/-! # Calls of the session service on one shared store

Any number of calls of `SessionService.create`, `resume` and `save`, from any instances, run on
one store, beside lookups of name owners and the removal of rooms. A label starts a call, lets
the operation it waits for take effect, or lets the call run to its next await. -/

namespace RoomBackend

open Async Day Lts Expiring

/-! ### The calls -/

/-- A call of `create`. -/
inductive CreateCall where
  | running (p : CreatePc)
  | returned (record : SessionRecord) (token : Token)
  | failed
deriving DecidableEq

/-- What has become of a call of `resume`. -/
inductive ResumeState where
  | running (p : ResumePc)
  | answered (r : Option SessionRecord)
deriving DecidableEq

/-- A call of `resume(room, token)`: the instants at which its store reads took effect, and what
was last saved for the session when its record was read (history variables). -/
structure ResumeCall where
  room : DailyRoom
  token : Token
  reads : List ℤ
  latest : Option SessionRecord
  state : ResumeState
deriving DecidableEq

/-- The store, the clock, the draws made so far, and all calls. -/
structure Service where
  clock : ℤ
  world : World
  draws : ℕ
  create : ℕ → Option CreateCall
  creates : ℕ
  resume : ℕ → Option ResumeCall
  resumes : ℕ
  save : ℕ → Option (SaveReq × Promise Unit)
  saves : ℕ

/-- A step of the scheduler. -/
inductive Call where
  | clock (t : ℤ)
  | create (roomId : String) (input : NewSessionInput)
  | createOp (n : ℕ) (o : Outcome)
  | createNext (n : ℕ)
  | resume (roomId : String) (token : Token)
  | resumeOp (n : ℕ) (o : Outcome)
  | resumeNext (n : ℕ)
  | save (r : SessionRecord)
  | saveOp (n : ℕ) (o : Outcome)
  | nameOwner (roomId name : String)
  | deleteRoom (roomId : String)
deriving DecidableEq

/-- One room for every room id. -/
structure Calendar where
  room : String → DailyRoom
  roomId_room : ∀ roomId, (room roomId).roomId = roomId

/-- A save of this session replaces what was saved before. -/
def Obs.lastSaved (sid : Sid) (x : Option SessionRecord) : Obs → Option SessionRecord
  | .saved _ r _ => if r.sid = sid then some r else x
  | _ => x

/-- The record that was last saved for a session. -/
def World.latest (w : World) (sid : Sid) : Option SessionRecord :=
  w.journal.foldl (Obs.lastSaved sid) none

/-- What becomes of a call of `create` after an await. -/
def CreateRes.call : CreateRes → CreateCall
  | .wait p => .running p
  | .done record token => .returned record token
  | .threw => .failed

/-- What becomes of a call of `resume` after an await. -/
def ResumeRes.state : ResumeRes → ResumeState
  | .wait p => .running p
  | .done r => .answered r

/-- What was last saved for the session whose record is being read. -/
def ResumePc.latest (w : World) (x : Option SessionRecord) : ResumePc → Option SessionRecord
  | .resolve _ _ _ => x
  | .load _ sid _ => w.latest sid

/-! ### The steps -/

namespace Service

variable (env : Env) (cal : Calendar) (s : Service)

/-- `create(room, input)` is called. -/
def startCreate (roomId : String) (input : NewSessionInput) : Service :=
  { s with
    create := Function.update s.create s.creates
      (some (.running (createSession env s.draws (cal.room roomId) input)))
    creates := s.creates + 1
    draws := s.draws + 1 }

/-- The operation a call of `create` waits for takes effect. The connection it works for is of
no consequence. -/
def createOp (n : ℕ) (o : Outcome) : Option Service :=
  match s.create n with
  | some (.running p) =>
      (p.settle s.clock ⟨0, n⟩ o s.world).map fun r =>
        { s with create := Function.update s.create n (some (.running r.1)), world := r.2 }
  | _ => none

def createNext (n : ℕ) : Option Service :=
  match s.create n with
  | some (.running p) =>
      (p.resume env s.draws).map fun r =>
        { s with create := Function.update s.create n (some r.1.call), draws := r.2 }
  | _ => none

/-- `resume(room, token)` is called. -/
def startResume (roomId : String) (token : Token) : Service :=
  { s with
    resume := Function.update s.resume s.resumes
      (some { room := cal.room roomId, token := token, reads := [], latest := none
              state := .running (resumeSession (cal.room roomId) token) })
    resumes := s.resumes + 1 }

/-- The store read a call of `resume` waits for takes effect. -/
def resumeOp (n : ℕ) (o : Outcome) : Option Service :=
  match s.resume n with
  | some q =>
      match q.state with
      | .running p =>
          (p.settle s.clock o s.world).map fun r =>
            { s with
              resume := Function.update s.resume n
                (some { q with
                  reads := q.reads ++ [s.clock]
                  latest := p.latest s.world q.latest
                  state := .running r.1 })
              world := r.2 }
      | .answered _ => none
  | none => none

def resumeNext (n : ℕ) : Option Service :=
  match s.resume n with
  | some q =>
      match q.state with
      | .running p =>
          p.resume.map fun r =>
            { s with resume := Function.update s.resume n (some { q with state := r.state }) }
      | .answered _ => none
  | none => none

/-- `save(record, room)`, with the room of the record. -/
def startSave (r : SessionRecord) : Service :=
  { s with
    save := Function.update s.save s.saves (some (⟨r, (cal.room r.roomId).endsAt⟩, .pending))
    saves := s.saves + 1 }

def saveOp (n : ℕ) (o : Outcome) : Option Service :=
  match s.save n with
  | some (q, p) =>
      (p.settle (World.save ⟨0, n⟩ q) o s.world).map fun r =>
        { s with save := Function.update s.save n (some (q, r.1)), world := r.2 }
  | none => none

def step : Call → Option Service
  | .clock t => if s.clock ≤ t then some { s with clock := t } else none
  | .create roomId input => some (s.startCreate env cal roomId input)
  | .createOp n o => s.createOp n o
  | .createNext n => s.createNext env n
  | .resume roomId token => some (s.startResume cal roomId token)
  | .resumeOp n o => s.resumeOp n o
  | .resumeNext n => s.resumeNext n
  | .save r => some (s.startSave cal r)
  | .saveOp n o => s.saveOp n o
  | .nameOwner roomId name =>
      some { s with world := (World.onStore (fun x => x.nameOwner s.clock roomId name) s.world).2 }
  | .deleteRoom roomId =>
      some { s with world := (World.onStore (fun x => x.deleteRoom roomId) s.world).2 }

/-- Nothing is stored and no call has been made. -/
structure Fresh : Prop where
  store : s.world.store = Store.empty
  journal : s.world.journal = []
  create : ∀ n, s.create n = none
  resume : ∀ n, s.resume n = none
  save : ∀ n, s.save n = none

/-- The owner of a name, as a lookup at this instant tells it. -/
def nameOwner (roomId name : String) : Option Sid :=
  (s.world.store.nameOwner s.clock roomId name).1

end Service

/-- Any number of calls on one shared store. -/
def service (env : Env) (cal : Calendar) : Machine Service Call where
  init := Service.Fresh
  step := fun s l => s.step env cal l

/-- An empty store at instant `t`. -/
def Service.initial (t : ℤ) : Service :=
  { clock := t
    world := { store := Store.empty, subscribers := [], inFlight := [], journal := []
               lastSave := fun _ => none }
    draws := 0
    create := fun _ => none
    creates := 0
    resume := fun _ => none
    resumes := 0
    save := fun _ => none
    saves := 0 }

theorem Service.fresh_initial (t : ℤ) : (Service.initial t).Fresh :=
  ⟨rfl, rfl, fun _ => rfl, fun _ => rfl, fun _ => rfl⟩

theorem exists_called (env : Env) (cal : Calendar) (c : Service → Call → Bool)
    (P : Service → Bool) (t : ℤ) (ls : List Call)
    (h : ((service env cal).execs c (Service.initial t) ls).any P = true) :
    ∃ s, (service env cal).Reaches (fun s l => c s l = true) s ∧ P s = true := by
  obtain ⟨s, hs, hP⟩ := Option.any_eq_true _ _ |>.mp h
  exact ⟨s, Machine.reaches_of_execs (fun _ _ hc => hc) (Service.fresh_initial t) hs, hP⟩

/-- The call has returned a session of this room. -/
def CreateCall.made (roomId : String) : CreateCall → Bool
  | .returned r _ => decide (r.roomId = roomId)
  | _ => false

theorem CreateCall.made_iff {roomId : String} {c : CreateCall} :
    c.made roomId = true ↔ ∃ r token, c = .returned r token ∧ r.roomId = roomId := by
  cases c with
  | returned r token => simp [made]
  | _ => simp [made]

namespace Demo

/-- The rooms of one day. -/
def calendar : Calendar :=
  { room := fun roomId =>
      { roomId := roomId, day := 160, startsAt := midnight - 86400000, endsAt := midnight }
    roomId_room := fun _ => rfl }

/-- A visitor. -/
def visitor : NewSessionInput :=
  { ipHash := "a", country := none, now := noon, suspicion := 0, challengePending := false }

/-- A call of `create` goes on to its next await. -/
def createTurn (n : ℕ) : List Call := [.createOp n .answered, .createNext n]

/-- A generator that proposes each name twice in a row. -/
def twice : Env := { env none with generatePublicName := fun n => "guest-" ++ toString (n / 2) }

end Demo

/-! ### What a call does -/

section inversion

variable {env : Env} {cal : Calendar} {s t : Service} {n : ℕ} {o : Outcome}

/-- How `create` goes on after an await, with `d` draws made before. -/
inductive CreatePc.Goes (env : Env) (d : ℕ) : CreatePc → CreateCall → ℕ → Prop
  | claimed (room : DailyRoom) (input : NewSessionInput) (sid : Sid) (i : ℕ) (name : String) :
      Goes env d (.claim room input sid i name (.fulfilled true))
        (.running (.save room (newRecord room input sid name) (env.newResumeToken d) .pending))
        (d + 1)
  | again (room : DailyRoom) (input : NewSessionInput) (sid : Sid) (i : ℕ) (name : String) :
      Goes env d (.claim room input sid i name (.fulfilled false))
        (.running (.claim room input sid (i + 1) (env.generatePublicName d) .pending)) (d + 1)
  | saved (room : DailyRoom) (r : SessionRecord) (token : Token) :
      Goes env d (.save room r token (.fulfilled ()))
        (.running (.link room r token true .pending)) d
  | unsaved (room : DailyRoom) (r : SessionRecord) (token : Token) :
      Goes env d (.save room r token .rejected) (.running (.link room r token false .pending)) d
  | returned (room : DailyRoom) (r : SessionRecord) (token : Token) :
      Goes env d (.link room r token true (.fulfilled ())) (.returned r token) d
  | unclaimed (room : DailyRoom) (input : NewSessionInput) (sid : Sid) (i : ℕ) (name : String)
      (p : Promise Bool) : Goes env d (.claim room input sid i name p) .failed d
  | unlinked (room : DailyRoom) (r : SessionRecord) (token : Token) (b : Bool)
      (p : Promise Unit) (h : b = false ∨ p = .rejected) :
      Goes env d (.link room r token b p) .failed d

theorem CreatePc.goes_of_resume {d : ℕ} {p : CreatePc} {r : CreateRes × ℕ}
    (h : p.resume env d = some r) : p.Goes env d r.1.call r.2 := by
  cases p with
  | claim room input sid i name p =>
      cases p with
      | pending => cases h
      | rejected =>
          obtain rfl := Option.some.inj h
          exact .unclaimed room input sid i name _
      | fulfilled b =>
          cases b with
          | true =>
              obtain rfl := Option.some.inj h
              exact .claimed room input sid i name
          | false =>
              simp only [CreatePc.resume] at h
              split at h
              · obtain rfl := Option.some.inj h
                exact .again room input sid i name
              · obtain rfl := Option.some.inj h
                exact .unclaimed room input sid i name _
  | save room r token p =>
      cases p with
      | pending => cases h
      | rejected =>
          obtain rfl := Option.some.inj h
          exact .unsaved room r token
      | fulfilled u =>
          obtain rfl := Option.some.inj h
          exact .saved room r token
  | link room r token b p =>
      cases p with
      | pending => cases h
      | rejected =>
          obtain rfl := Option.some.inj h
          exact .unlinked room r token b _ (.inr rfl)
      | fulfilled u =>
          obtain rfl := Option.some.inj h
          cases b with
          | true => exact .returned room r token
          | false => exact .unlinked room r token false _ (.inl rfl)

namespace Service

theorem createNext_inv (h : s.createNext env n = some t) :
    ∃ p c d, s.create n = some (.running p) ∧ p.Goes env s.draws c d ∧
      t = { s with create := Function.update s.create n (some c), draws := d } := by
  unfold createNext at h
  split at h
  · rename_i p hp
    obtain ⟨r, hr, rfl⟩ := Option.map_eq_some_iff.mp h
    exact ⟨p, r.1.call, r.2, hp, CreatePc.goes_of_resume hr, rfl⟩
  · cases h

/-- The operations of `create`: a claim, the save of the record, the link of the token. -/
theorem createOp_inv (h : s.createOp n o = some t) :
    (∃ room input sid i name, s.create n = some (.running (.claim room input sid i name .pending)) ∧
      t = { s with
        create := Function.update s.create n (some (.running (.claim room input sid i name
          (Promise.answer (World.onStore fun x =>
            x.claimName s.clock room.roomId name sid room.endsAt) o s.world))))
        world := Promise.effect (World.onStore fun x =>
          x.claimName s.clock room.roomId name sid room.endsAt) o s.world }) ∨
    (∃ room r token, s.create n = some (.running (.save room r token .pending)) ∧
      t = { s with
        create := Function.update s.create n (some (.running (.save room r token
          (Promise.answer (World.save ⟨0, n⟩ ⟨r, room.endsAt⟩) o s.world))))
        world := Promise.effect (World.save ⟨0, n⟩ ⟨r, room.endsAt⟩) o s.world }) ∨
    (∃ room r token b, s.create n = some (.running (.link room r token b .pending)) ∧
      t = { s with
        create := Function.update s.create n (some (.running (.link room r token b
          (Promise.answer (World.link token r.sid room.endsAt) o s.world))))
        world := Promise.effect (World.link token r.sid room.endsAt) o s.world }) := by
  unfold createOp at h
  split at h
  · rename_i p hp
    obtain ⟨r, hr, rfl⟩ := Option.map_eq_some_iff.mp h
    cases p with
    | claim room input sid i name p =>
        obtain ⟨⟨q, w⟩, hq, rfl⟩ := Option.map_eq_some_iff.mp hr
        obtain ⟨rfl, rfl, rfl⟩ := Promise.settle_eq_some.mp hq
        exact .inl ⟨room, input, sid, i, name, hp, rfl⟩
    | save room r token p =>
        obtain ⟨⟨q, w⟩, hq, rfl⟩ := Option.map_eq_some_iff.mp hr
        obtain ⟨rfl, rfl, rfl⟩ := Promise.settle_eq_some.mp hq
        exact .inr (.inl ⟨room, r, token, hp, rfl⟩)
    | link room r token b p =>
        obtain ⟨⟨q, w⟩, hq, rfl⟩ := Option.map_eq_some_iff.mp hr
        obtain ⟨rfl, rfl, rfl⟩ := Promise.settle_eq_some.mp hq
        exact .inr (.inr ⟨room, r, token, b, hp, rfl⟩)
  · cases h

/-- The operations of `resume`: a read of the token and a read of the record. -/
theorem resumeOp_inv (h : s.resumeOp n o = some t) :
    ∃ q, s.resume n = some q ∧
      ((∃ room token, q.state = .running (.resolve room token .pending) ∧
        t = { s with
          resume := Function.update s.resume n (some { q with
            reads := q.reads ++ [s.clock]
            state := .running (.resolve room token (Promise.answer (World.onStore fun x =>
              x.resolveResume s.clock (hashToken token)) o s.world)) })
          world := Promise.effect (World.onStore fun x =>
            x.resolveResume s.clock (hashToken token)) o s.world }) ∨
      (∃ room sid, q.state = .running (.load room sid .pending) ∧
        t = { s with
          resume := Function.update s.resume n (some { q with
            reads := q.reads ++ [s.clock]
            latest := s.world.latest sid
            state := .running (.load room sid
              (Promise.answer (World.load s.clock sid) o s.world)) })
          world := Promise.effect (World.load s.clock sid) o s.world })) := by
  unfold resumeOp at h
  split at h
  · rename_i q hq
    split at h
    · rename_i p hp
      obtain ⟨r, hr, rfl⟩ := Option.map_eq_some_iff.mp h
      refine ⟨q, hq, ?_⟩
      cases p with
      | resolve room token p =>
          obtain ⟨⟨x, w⟩, hx, rfl⟩ := Option.map_eq_some_iff.mp hr
          obtain ⟨rfl, rfl, rfl⟩ := Promise.settle_eq_some.mp hx
          exact .inl ⟨room, token, hp, rfl⟩
      | load room sid p =>
          obtain ⟨⟨x, w⟩, hx, rfl⟩ := Option.map_eq_some_iff.mp hr
          obtain ⟨rfl, rfl, rfl⟩ := Promise.settle_eq_some.mp hx
          exact .inr ⟨room, sid, hp, rfl⟩
    · cases h
  · cases h

theorem resumeNext_inv (h : s.resumeNext n = some t) :
    ∃ q p r, s.resume n = some q ∧ q.state = .running p ∧ p.resume = some r ∧
      t = { s with resume := Function.update s.resume n (some { q with state := r.state }) } := by
  unfold resumeNext at h
  split at h
  · rename_i q hq
    split at h
    · rename_i p hp
      obtain ⟨r, hr, rfl⟩ := Option.map_eq_some_iff.mp h
      exact ⟨q, p, r, hq, hp, hr, rfl⟩
    · cases h
  · cases h

theorem saveOp_inv (h : s.saveOp n o = some t) :
    ∃ q, s.save n = some (q, .pending) ∧
      t = { s with
        save := Function.update s.save n
          (some (q, Promise.answer (World.save ⟨0, n⟩ q) o s.world))
        world := Promise.effect (World.save ⟨0, n⟩ q) o s.world } := by
  unfold saveOp at h
  split at h
  · rename_i q p hq
    obtain ⟨⟨x, w⟩, hx, rfl⟩ := Option.map_eq_some_iff.mp h
    obtain ⟨rfl, rfl, rfl⟩ := Promise.settle_eq_some.mp hx
    exact ⟨q, hq, rfl⟩
  · cases h

end Service

end inversion

end RoomBackend
