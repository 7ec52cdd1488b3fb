import RoomBackend.Steps

/-! # What happens to the shared world

`Effect env c th w`: the operation the thread `th` waits for in state `c` turns the world into
`w`. `WorldStep env up c l w`: a step under label `l` does so. Together they say who may write
what, and when. -/

namespace RoomBackend

open Async Day RateLimit Suspicion Expiring

/-! ### The saves under way -/

/-- The save behind a promise that is still pending. -/
def unsaved (req : Option SaveReq) (p : Promise Unit) : Option SaveReq :=
  match p with
  | .pending => req
  | _ => none

def CreatePc.saving : CreatePc → Option SaveReq
  | .save room record _ p => unsaved (some ⟨record, room.endsAt⟩) p
  | _ => none

def BlockPc.saving : BlockPc → Option SaveReq
  | .save _ req p => unsaved req p
  | _ => none

def EscalatePc.saving : EscalatePc → Option SaveReq
  | .returned _ => none
  | .challenge req p => unsaved req p
  | .block b => b.saving

def Handler.saving : Handler → Option SaveReq
  | .join (.create _ p) => p.saving
  | .send (.escalate _ _ e) => e.saving
  | .challenge (.passed req p) => unsaved req p
  | .challenge (.failed req p) => unsaved req p
  | .challenge (.block b) => b.saving
  | _ => none

namespace Core

variable (c : Core)

/-- The save a thread waits for, and the connection that makes it. -/
def saving : Thread → Option (ConnKey × SaveReq)
  | .handler k => ((c.conn k).handler.bind Handler.saving).map fun q => (k, q)
  | .rollover k => ((c.conn k).rolling.bind fun p => p.create.saving).map fun q => (k, q)
  | .task n =>
      match c.task n with
      | some (.persist k req p) => (unsaved (some req) p).map fun q => (k, q)
      | _ => none
  | _ => none

/-- The `create` a thread is in. -/
def creating : Thread → Option CreatePc
  | .handler k =>
      match (c.conn k).handler with
      | some (.join (.create _ p)) => some p
      | _ => none
  | .rollover k => (c.conn k).rolling.map RolloverPc.create
  | _ => none

/-- The locals of the `tempBlock` a handler is in. -/
def blockOf (k : ConnKey) : Option BlockPc :=
  match (c.conn k).handler with
  | some (.send (.escalate _ _ (.block b))) => some b
  | some (.challenge (.block b)) => some b
  | _ => none

/-- The session a thread is about to block in the store, and for how long. -/
def blocking : Thread → Option (Sid × ℤ)
  | .handler k =>
      match c.blockOf k with
      | some (.sess b .pending) => some (b.record.sid, b.ttl)
      | _ => none
  | .task n =>
      match c.task n with
      | some (.admin _ (.block b sid .pending)) => some (sid, b.minutes * 60000)
      | _ => none
  | _ => none

end Core

/-! ### Settled operations -/

/-- Sessions, resume tokens, blocks and histories are those of another store, and no name is
claimed. -/
structure Store.Keeps (s t : Store) : Prop where
  sess : s.sess = t.sess
  resume : s.resume = t.resume
  blocks : s.blocks = t.blocks
  lists : s.lists = t.lists
  names : ∀ key e, s.names key = some e → t.names key = some e

/-- What the operation a thread waits for makes of the world. -/
inductive Effect (env : Env) (c : Core) (th : Thread) : World → Prop
  | save {k : ConnKey} {req : SaveReq} (h : c.saving th = some (k, req)) :
      Effect env c th (World.save k req c.world).2
  | load (sid : Sid) : Effect env c th (World.load c.clock sid c.world).2
  | append {k : ConnKey} {l : SendLocals} {room : DailyRoom} {m : StoredMessage}
      (ht : th = .handler k) (hh : (c.conn k).handler = some (.send (.append l room m .pending))) :
      Effect env c th
        (World.append c.clock env.config.historyLimit k (c.conn k).handled l room m c.world).2
  | publish {k : ConnKey} {l : SendLocals} {room : DailyRoom} {m : StoredMessage}
      (ht : th = .handler k) (hh : (c.conn k).handler = some (.send (.publish l room m .pending))) :
      Effect env c th (World.publishSend k (c.conn k).handled l (busMessage k room m) c.world).2
  | kick (i : InstanceId) (sid : Sid) (reason : String) :
      Effect env c th (World.publish (.kick i sid reason) c.world).2
  | block {sid : Sid} {ttl : ℤ} (reason : String) (h : c.blocking th = some (sid, ttl)) :
      Effect env c th (World.onStore (fun s => s.setBlock c.clock (.sess sid) ttl reason) c.world).2
  | blockOther {key : BlockKey} (ttl : ℤ) (reason : String) (h : ∀ sid, key ≠ .sess sid) :
      Effect env c th (World.onStore (fun s => s.setBlock c.clock key ttl reason) c.world).2
  | unblock {n : ℕ} {i : InstanceId} {sid : Sid} (ht : th = .task n)
      (hb : c.task n = some (.admin i (.unblock sid .pending))) :
      Effect env c th (World.onStore (fun s => s.deleteBlock (.sess sid)) c.world).2
  | deleteRoom (roomId : String) (h : ∃ i prev next p, th = .reset i ∧
      (c.srv i).rolling = some (.cleanup prev next p) ∧ prev.roomId = roomId) :
      Effect env c th (World.onStore (fun s => s.deleteRoom roomId) c.world).2
  | claim {room : DailyRoom} {input : NewSessionInput} {sid : Sid} {i : ℕ} {candidate : String}
      {names : Expiring.Map (String × String) Sid}
      (h : c.creating th = some (.claim room input sid i candidate .pending))
      (hn : ∀ key e, names key = some e → c.world.store.names key = some e ∨
        key = (room.roomId, candidate) ∧ e = ⟨sid, room.endsAt⟩) :
      Effect env c th { c.world with store := { c.world.store with names := names } }
  | link {room : DailyRoom} {record : SessionRecord} {token : Token} {saved : Bool}
      (h : c.creating th = some (.link room record token saved .pending)) :
      Effect env c th (World.link token record.sid room.endsAt c.world).2
  | resolve (hash : TokenHash) :
      Effect env c th (World.onStore (fun s => s.resolveResume c.clock hash) c.world).2
  | other {st : Store} (h : st.Keeps c.world.store) : Effect env c th { c.world with store := st }

/-- The world once an operation is settled: changed if the operation took effect. -/
def Settles (env : Env) (c : Core) (th : Thread) (o : Outcome) (w : World) : Prop :=
  (o.applied = false ∧ w = c.world) ∨ (o.applied = true ∧ Effect env c th w)

section settles

variable {env : Env} {c : Core} {th : Thread} {o : Outcome} {w : World}

theorem Settles.of_promise {α : Type} {p p' : Promise α} {f : World → α × World}
    (h : p.settle f o c.world = some (p', w)) (he : p = .pending → Effect env c th (f c.world).2) :
    Settles env c th o w := by
  obtain ⟨hp, -, rfl⟩ := Promise.settle_eq_some.mp h
  unfold Promise.effect
  split
  · rename_i ho
    exact Or.inr ⟨ho, he hp⟩
  · rename_i ho
    exact Or.inl ⟨by simpa using ho, rfl⟩

/-- An operation that leaves sessions, resume tokens, blocks, histories and names alone. -/
theorem Settles.other {α : Type} {p p' : Promise α} {f : Store → α × Store}
    (h : p.settle (World.onStore f) o c.world = some (p', w))
    (hk : (f c.world.store).2.Keeps c.world.store) : Settles env c th o w :=
  Settles.of_promise h fun _ => Effect.other hk

theorem Settles.addAbuseEvent {p p' : Promise Unit} {now retentionMs : ℤ} {e : AbuseEvent}
    (h : p.settle (World.onStore fun s => s.addAbuseEvent now e retentionMs) o c.world =
      some (p', w)) : Settles env c th o w := by
  obtain ⟨v, hv⟩ := c.world.store.addAbuseEvent_eq now e retentionMs
  exact Settles.other h (by rw [hv]; exact ⟨rfl, rfl, rfl, rfl, fun _ _ h => h⟩)

theorem Settles.unsaved {k : ConnKey} {req : Option SaveReq} {p : Promise Unit}
    {r : Promise Unit × World} (h : settleSave k o req p c.world = some r)
    (hs : c.saving th = (unsaved req p).map fun q => (k, q)) : Settles env c th o r.2 := by
  cases req with
  | none => cases h
  | some q =>
      refine Settles.of_promise (f := World.save k q) h fun hp => Effect.save ?_
      rw [hs, hp]
      rfl

/-- `claimName` adds at most the claim itself. -/
theorem Store.claimName_names (s : Store) (now : ℤ) (roomId name : String) (sid : Sid)
    (expireAt : ℤ) :
    ∃ names, (s.claimName now roomId name sid expireAt).2 = { s with names := names } ∧
      ∀ key e, names key = some e →
        s.names key = some e ∨ key = (roomId, name) ∧ e = ⟨sid, expireAt⟩ := by
  unfold Store.claimName
  dsimp only
  split
  · exact ⟨_, rfl, fun key e he => Or.inl (Map.read_snd_eq_some he)⟩
  · refine ⟨_, rfl, fun key e he => ?_⟩
    by_cases hk : key = (roomId, name)
    · subst hk
      rw [Map.write_same] at he
      exact Or.inr ⟨rfl, (Option.some.inj he).symm⟩
    · rw [Map.write_ne _ _ _ hk] at he
      exact Or.inl (Map.read_snd_eq_some he)

theorem CreatePc.settles {now : ℤ} {k : ConnKey} {p : CreatePc} {r : CreatePc × World}
    (h : p.settle now k o c.world = some r) (hc : c.creating th = some p)
    (hs : c.saving th = p.saving.map fun q => (k, q)) : Settles env c th o r.2 := by
  cases p with
  | claim room input sid i candidate p =>
      obtain ⟨r, hr, rfl⟩ := Option.map_eq_some_iff.mp h
      refine Settles.of_promise hr fun hp => ?_
      obtain ⟨names, he, hn⟩ :=
        c.world.store.claimName_names now room.roomId candidate sid room.endsAt
      have hw : (World.onStore (fun s => s.claimName now room.roomId candidate sid room.endsAt)
          c.world).2 = { c.world with store := { c.world.store with names := names } } :=
        congrArg (fun st => ({ c.world with store := st } : World)) he
      rw [hw]
      exact Effect.claim (by rw [hc, hp]) hn
  | save room record token p =>
      obtain ⟨r, hr, rfl⟩ := Option.map_eq_some_iff.mp h
      refine Settles.of_promise hr fun hp => Effect.save ?_
      rw [hs, hp]
      rfl
  | link room record token saved p =>
      obtain ⟨r, hr, rfl⟩ := Option.map_eq_some_iff.mp h
      exact Settles.of_promise hr fun hp => Effect.link (by rw [hc, hp])

theorem blockTtl_store (s : Store) (now : ℤ) (key : BlockKey) : (s.blockTtl now key).2 = s := by
  unfold Store.blockTtl
  split <;> rfl

theorem JoinPc.settles {k : ConnKey} {info : AdmitInfo} {p : JoinPc} {r : JoinPc × World}
    (hh : (c.conn k).handler = some (.join p))
    (h : p.settle env c.clock k info o c.world = some r) :
    Settles env c (.handler k) o r.2 := by
  cases p with
  | resume j token p =>
      obtain ⟨r, hr, rfl⟩ := Option.map_eq_some_iff.mp h
      cases p with
      | resolve room token p =>
          obtain ⟨r, hr', rfl⟩ := Option.map_eq_some_iff.mp hr
          exact Settles.of_promise hr' fun _ => Effect.resolve _
      | load room sid p =>
          obtain ⟨r, hr', rfl⟩ := Option.map_eq_some_iff.mp hr
          exact Settles.of_promise hr' fun _ => Effect.load sid
  | rejoin j record token p =>
      obtain ⟨r, hr, rfl⟩ := Option.map_eq_some_iff.mp h
      exact Settles.other hr ⟨rfl, rfl, rfl, rfl, fun _ _ h => h⟩
  | newsess j room p =>
      obtain ⟨r, hr, rfl⟩ := Option.map_eq_some_iff.mp h
      exact Settles.other hr ⟨rfl, rfl, rfl, rfl, fun _ _ h => h⟩
  | create j p =>
      obtain ⟨r, hr, rfl⟩ := Option.map_eq_some_iff.mp h
      exact p.settles hr (by simp only [Core.creating, hh])
        (by simp only [Core.saving, hh, Option.bind_some, Handler.saving])
  | block j record token p =>
      obtain ⟨r, hr, rfl⟩ := Option.map_eq_some_iff.mp h
      exact Settles.other hr (by rw [blockTtl_store]; exact ⟨rfl, rfl, rfl, rfl, fun _ _ h => h⟩)
  | history j record token room p =>
      obtain ⟨r, hr, rfl⟩ := Option.map_eq_some_iff.mp h
      exact Settles.other hr ⟨rfl, rfl, rfl, rfl, fun _ _ h => h⟩

theorem BlockPc.settles {k : ConnKey} {info : AdmitInfo} {b : BlockPc} {r : BlockPc × World}
    (hb : c.blockOf k = some b) (hs : c.saving (.handler k) = b.saving.map fun q => (k, q))
    (h : b.settle c.clock k info o c.world = some r) : Settles env c (.handler k) o r.2 := by
  cases b with
  | sess b p =>
      obtain ⟨r, hr, rfl⟩ := Option.map_eq_some_iff.mp h
      refine Settles.of_promise hr fun hp => Effect.block _ ?_
      simp only [Core.blocking, hb, hp]
  | net b netTtl p =>
      obtain ⟨r, hr, rfl⟩ := Option.map_eq_some_iff.mp h
      exact Settles.of_promise hr fun _ => Effect.blockOther _ _ fun sid h => by cases h
  | save b req p =>
      obtain ⟨r, hr, rfl⟩ := Option.map_eq_some_iff.mp h
      exact Settles.unsaved hr hs

theorem SendPc.settles {k : ConnKey} {info : AdmitInfo} {p : SendPc} {r : SendPc × World}
    (hh : (c.conn k).handler = some (.send p))
    (h : p.settle env c.clock k (c.conn k).handled info o c.world = some r) :
    Settles env c (.handler k) o r.2 := by
  cases p with
  | hit l p =>
      obtain ⟨r, hr, rfl⟩ := Option.map_eq_some_iff.mp h
      exact Settles.other hr ⟨rfl, rfl, rfl, rfl, fun _ _ h => h⟩
  | dup l p =>
      obtain ⟨r, hr, rfl⟩ := Option.map_eq_some_iff.mp h
      exact Settles.other hr ⟨rfl, rfl, rfl, rfl, fun _ _ h => h⟩
  | escalate l site e =>
      obtain ⟨r, hr, rfl⟩ := Option.map_eq_some_iff.mp h
      have hs : c.saving (.handler k) = e.saving.map fun q => (k, q) := by
        simp only [Core.saving, hh, Option.bind_some, Handler.saving]
      cases e with
      | returned reason => cases hr
      | challenge req p =>
          obtain ⟨r, hr', rfl⟩ := Option.map_eq_some_iff.mp hr
          exact Settles.unsaved hr' hs
      | block b =>
          obtain ⟨r, hr', rfl⟩ := Option.map_eq_some_iff.mp hr
          exact b.settles (by simp only [Core.blockOf, hh]) hs hr'
  | append l room m p =>
      obtain ⟨r, hr, rfl⟩ := Option.map_eq_some_iff.mp h
      exact Settles.of_promise hr fun hp => Effect.append rfl (by rw [hh, hp])
  | publish l room m p =>
      obtain ⟨r, hr, rfl⟩ := Option.map_eq_some_iff.mp h
      exact Settles.of_promise hr fun hp => Effect.publish rfl (by rw [hh, hp])
  | reply e reply => cases h

theorem ChallengePc.settles {k : ConnKey} {info : AdmitInfo} {v : Bool} {p : ChallengePc}
    {r : ChallengePc × World} (hh : (c.conn k).handler = some (.challenge p))
    (h : p.settle c.clock v k info o c.world = some r) : Settles env c (.handler k) o r.2 := by
  cases p with
  | verify token record t p =>
      obtain ⟨r, hr, rfl⟩ := Option.map_eq_some_iff.mp h
      exact Settles.of_promise hr fun _ => Effect.other ⟨rfl, rfl, rfl, rfl, fun _ _ h => h⟩
  | passed req p =>
      obtain ⟨r, hr, rfl⟩ := Option.map_eq_some_iff.mp h
      exact Settles.unsaved hr (by simp only [Core.saving, hh, Option.bind_some, Handler.saving])
  | failed req p =>
      obtain ⟨r, hr, rfl⟩ := Option.map_eq_some_iff.mp h
      exact Settles.unsaved hr (by simp only [Core.saving, hh, Option.bind_some, Handler.saving])
  | block b =>
      obtain ⟨r, hr, rfl⟩ := Option.map_eq_some_iff.mp h
      exact b.settles (by simp only [Core.blockOf, hh])
        (by simp only [Core.saving, hh, Option.bind_some, Handler.saving]) hr

theorem ReportPc.settles {p : ReportPc} {r : ReportPc × World}
    (h : p.settle env c.clock o c.world = some r) : Settles env c th o r.2 := by
  cases p with
  | hit record id reason p =>
      obtain ⟨r, hr, rfl⟩ := Option.map_eq_some_iff.mp h
      exact Settles.other hr ⟨rfl, rfl, rfl, rfl, fun _ _ h => h⟩
  | recent record id reason roomId p =>
      obtain ⟨r, hr, rfl⟩ := Option.map_eq_some_iff.mp h
      exact Settles.other hr ⟨rfl, rfl, rfl, rfl, fun _ _ h => h⟩
  | event id e p =>
      obtain ⟨r, hr, rfl⟩ := Option.map_eq_some_iff.mp h
      exact Settles.addAbuseEvent hr

theorem Handler.settles {k : ConnKey} {v : Bool} {h : Handler} {r : Handler × World}
    (hh : (c.conn k).handler = some h)
    (hs : h.settle env c.clock v k (c.conn k).handled (c.conn k).info o c.world = some r) :
    Settles env c (.handler k) o r.2 := by
  cases h with
  | join p =>
      obtain ⟨r, hr, rfl⟩ := Option.map_eq_some_iff.mp hs
      exact p.settles hh hr
  | send p =>
      obtain ⟨r, hr, rfl⟩ := Option.map_eq_some_iff.mp hs
      exact p.settles hh hr
  | challenge p =>
      obtain ⟨r, hr, rfl⟩ := Option.map_eq_some_iff.mp hs
      exact p.settles hh hr
  | report p =>
      obtain ⟨r, hr, rfl⟩ := Option.map_eq_some_iff.mp hs
      exact p.settles hr

theorem RollingPc.settles {i : InstanceId} {p : RollingPc} {r : RollingPc × World}
    (hp : (c.srv i).rolling = some p) (h : p.settle c.clock o c.world = some r) :
    Settles env c (.reset i) o r.2 := by
  cases p with
  | acquire prev next p =>
      obtain ⟨r, hr, rfl⟩ := Option.map_eq_some_iff.mp h
      have he : ∃ locks, (c.world.store.acquireOnce c.clock ("reset:" ++ prev.roomId) 3600000).2 =
          { c.world.store with locks := locks } := by
        unfold Store.acquireOnce
        dsimp only
        split <;> exact ⟨_, rfl⟩
      obtain ⟨locks, he⟩ := he
      exact Settles.other hr (by rw [he]; exact ⟨rfl, rfl, rfl, rfl, fun _ _ h => h⟩)
  | cleanup prev next p =>
      obtain ⟨r, hr, rfl⟩ := Option.map_eq_some_iff.mp h
      exact Settles.of_promise hr fun _ => Effect.deleteRoom _ ⟨i, prev, next, p, rfl, hp, rfl⟩
  | log prev next p =>
      obtain ⟨r, hr, rfl⟩ := Option.map_eq_some_iff.mp h
      exact Settles.addAbuseEvent hr
  | batch prev next current rest => cases h
  | breathe prev next rest => cases h

theorem UpgradePc.settles {info : AdmitInfo} {p : UpgradePc} {r : UpgradePc × World}
    (h : p.settle c.clock info o c.world = some r) : Settles env c th o r.2 := by
  cases p with
  | netBlock p =>
      obtain ⟨r, hr, rfl⟩ := Option.map_eq_some_iff.mp h
      exact Settles.other hr (by rw [blockTtl_store]; exact ⟨rfl, rfl, rfl, rfl, fun _ _ h => h⟩)
  | backoff b p =>
      obtain ⟨r, hr, rfl⟩ := Option.map_eq_some_iff.mp h
      exact Settles.other hr (by rw [blockTtl_store]; exact ⟨rfl, rfl, rfl, rfl, fun _ _ h => h⟩)
  | attempts p =>
      obtain ⟨r, hr, rfl⟩ := Option.map_eq_some_iff.mp h
      exact Settles.other hr ⟨rfl, rfl, rfl, rfl, fun _ _ h => h⟩
  | floods p =>
      obtain ⟨r, hr, rfl⟩ := Option.map_eq_some_iff.mp h
      exact Settles.other hr ⟨rfl, rfl, rfl, rfl, fun _ _ h => h⟩
  | penalty n p =>
      obtain ⟨r, hr, rfl⟩ := Option.map_eq_some_iff.mp h
      exact Settles.of_promise hr fun _ => Effect.blockOther _ _ fun sid h => by cases h
  | _ => cases h

theorem AdminPc.settles {n : ℕ} {i : InstanceId} {a : AdminPc} {r : AdminPc × World}
    (hb : c.task n = some (.admin i a)) (h : a.settle env c.clock i o c.world = some r) :
    Settles env c (.task n) o r.2 := by
  cases a with
  | owner b name roomId p =>
      obtain ⟨r, hr, rfl⟩ := Option.map_eq_some_iff.mp h
      exact Settles.other hr ⟨rfl, rfl, rfl, rfl, fun _ _ h => Map.read_snd_eq_some h⟩
  | recent b roomId p =>
      obtain ⟨r, hr, rfl⟩ := Option.map_eq_some_iff.mp h
      exact Settles.other hr ⟨rfl, rfl, rfl, rfl, fun _ _ h => h⟩
  | block b sid p =>
      obtain ⟨r, hr, rfl⟩ := Option.map_eq_some_iff.mp h
      refine Settles.of_promise hr fun hp => Effect.block _ ?_
      simp only [Core.blocking, hb, hp]
  | kick b sid p =>
      obtain ⟨r, hr, rfl⟩ := Option.map_eq_some_iff.mp h
      exact Settles.of_promise hr fun _ => Effect.kick _ _ _
  | log b sid p =>
      obtain ⟨r, hr, rfl⟩ := Option.map_eq_some_iff.mp h
      exact Settles.addAbuseEvent hr
  | unblockOwner name roomId p =>
      obtain ⟨r, hr, rfl⟩ := Option.map_eq_some_iff.mp h
      exact Settles.other hr ⟨rfl, rfl, rfl, rfl, fun _ _ h => Map.read_snd_eq_some h⟩
  | unblock sid p =>
      obtain ⟨r, hr, rfl⟩ := Option.map_eq_some_iff.mp h
      exact Settles.of_promise hr fun hp => Effect.unblock rfl (by rw [hb, hp])

/-- A settled operation changes the world in one of the listed ways, or not at all. -/
theorem Core.settles {c' : Core} {v : Bool} (h : c.settle env o v th = some c') :
    Settles env c th o c'.world := by
  cases th with
  | handler k =>
      obtain ⟨h₀, hh, h⟩ := Option.bind_eq_some_iff.mp h
      obtain ⟨r, hr, rfl⟩ := Option.map_eq_some_iff.mp h
      exact Handler.settles hh hr
  | rollover k =>
      obtain ⟨p, hp, h⟩ := Option.bind_eq_some_iff.mp h
      obtain ⟨r, hr, rfl⟩ := Option.map_eq_some_iff.mp h
      obtain ⟨r, hr', rfl⟩ := Option.map_eq_some_iff.mp hr
      exact p.create.settles hr' (by simp only [Core.creating, hp, Option.map_some])
        (by simp only [Core.saving, hp, Option.bind_some])
  | reset i =>
      obtain ⟨p, hp, h⟩ := Option.bind_eq_some_iff.mp h
      obtain ⟨r, hr, rfl⟩ := Option.map_eq_some_iff.mp h
      exact p.settles hp hr
  | upgrade n =>
      obtain ⟨u, hu, h⟩ := Option.bind_eq_some_iff.mp h
      obtain ⟨r, hr, rfl⟩ := Option.map_eq_some_iff.mp h
      exact u.pc.settles hr
  | task n =>
      obtain ⟨b, hb, h⟩ := Option.bind_eq_some_iff.mp h
      obtain ⟨r, hr, rfl⟩ := Option.map_eq_some_iff.mp h
      cases b with
      | persist k req p =>
          obtain ⟨r, hr', rfl⟩ := Option.map_eq_some_iff.mp hr
          refine Settles.of_promise hr' fun hp => Effect.save ?_
          simp only [Core.saving, hb, hp]
          rfl
      | admin i a =>
          obtain ⟨r, hr', rfl⟩ := Option.map_eq_some_iff.mp hr
          exact a.settles hb hr'
  | chore n => cases h

/-- The operation of a chore changes presence and the abuse log only. -/
theorem Chore.settles {v : Bool} {b : Chore} {r : Chore × World}
    (h : b.settle c.clock v o c.world = some r) : Settles env c th o r.2 := by
  cases b with
  | verify k token p =>
      obtain ⟨r, hr, rfl⟩ := Option.map_eq_some_iff.mp h
      exact Settles.of_promise hr fun _ => Effect.other ⟨rfl, rfl, rfl, rfl, fun _ _ h => h⟩
  | abuse e retentionMs p =>
      obtain ⟨r, hr, rfl⟩ := Option.map_eq_some_iff.mp h
      exact Settles.addAbuseEvent hr
  | reportPresence i ts count p =>
      obtain ⟨r, hr, rfl⟩ := Option.map_eq_some_iff.mp h
      exact Settles.other hr ⟨rfl, rfl, rfl, rfl, fun _ _ h => h⟩
  | totalPresence i ts p =>
      obtain ⟨r, hr, rfl⟩ := Option.map_eq_some_iff.mp h
      exact Settles.other hr ⟨rfl, rfl, rfl, rfl, fun _ _ h => h⟩
  | removePresence i p =>
      obtain ⟨r, hr, rfl⟩ := Option.map_eq_some_iff.mp h
      exact Settles.other hr ⟨rfl, rfl, rfl, rfl, fun _ _ h => h⟩

end settles

/-! ### Stretches of a handler -/

/-- What a stretch of a handler appends to the journal. -/
inductive ActLog (k : ConnKey) (up : Bool) (c : Core) (h : Option Handler) : List Obs → Prop
  | none : ActLog k up c h []
  | deciding {e : SendEvent} (hh : h = none) (hj : (c.conn k).joined = true) :
      ActLog k up c h [.deciding k (c.conn k).handled e]
  | limited {e : SendEvent} {r : SessionIdent} (hh : h = none) (hj : (c.conn k).joined = true)
      (hr : (c.conn k).record = some r) :
      ActLog k up c h [.deciding k (c.conn k).handled e, .issued k r.sid]
  | issued {r : SessionIdent} (hr : (c.conn k).record = some r) : ActLog k up c h [.issued k r.sid]
  | passed {token : String} {r : SessionIdent} {now : ℤ} {p : Promise Bool}
      (hh : h = some (.challenge (.verify token r now p))) : ActLog k up c h [.passed k r.sid]
  | blocked {b : BlockLocals} {req : Option SaveReq} {p : Promise Unit}
      (hh : (∃ l site, h = some (.send (.escalate l site (.block (.save b req p))))) ∨
        h = some (.challenge (.block (.save b req p))))
      (hp : p ≠ .pending) : ActLog k up c h [.blocked k b]
  | replied {e : SendEvent} {reply : ServerEvent} (hh : h = some (.send (.reply e reply)))
      (hup : up = true) : ActLog k up c h [.replied k (c.conn k).handled reply]

/-- The journal with more entries. -/
def World.note (log : List Obs) (w : World) : World := { w with journal := w.journal ++ log }

@[simp] theorem World.note_nil (w : World) : w.note [] = w := by simp [note]

@[simp] theorem World.note_note (w : World) (log log' : List Obs) :
    (w.note log).note log' = w.note (log ++ log') := by simp [note]

theorem Core.observe_world (c : Core) (o : Obs) : (c.observe o).world = c.world.note [o] := rfl

theorem Escalates.world {c c' : Core} {k : ConnKey} {e : EscalatePc} (h : Escalates c k c' e) :
    c'.world = c.world ∨
      ∃ r, (c.conn k).record = some r ∧ c'.world = c.world.note [.issued k r.sid] := by
  cases h with
  | quiet => exact Or.inl rfl
  | challenge q hr => exact Or.inr ⟨_, hr, rfl⟩
  | block reason hr => exact Or.inl rfl

/-- A stretch of a handler writes to the journal only. -/
theorem Act.world {env : Env} {k : ConnKey} {up : Bool} {c c₁ : Core} {h h' : Option Handler}
    (ha : Act env k up c h c₁ h') : ∃ log, ActLog k up c h log ∧ c₁.world = c.world.note log := by
  have quiet : c₁.world = c.world → ∃ log, ActLog k up c h log ∧ c₁.world = c.world.note log :=
    fun hw => ⟨[], ActLog.none, by rw [hw, World.note_nil]⟩
  cases ha with
  | sendReject hr hj => exact ⟨_, ActLog.deciding rfl hj, rfl⟩
  | @sendSwitch r e hr hj =>
      refine ⟨_, ActLog.deciding (e := e) rfl hj, ?_⟩
      rw [Core.checkRoom_frame]
      rfl
  | sendOpen hl => exact ⟨_, ActLog.deciding rfl hl.joined, rfl⟩
  | @sendLimited l c' e hl he =>
      rcases he.world with hw | ⟨r, hr, hw⟩
      · exact ⟨_, ActLog.deciding rfl hl.joined, hw⟩
      · refine ⟨_, ActLog.limited (e := l.event) rfl hl.joined hr, hw.trans ?_⟩
        rw [Core.observe_world, World.note_note]
        rfl
  | sendEscalate hh he =>
      rcases he.world with hw | ⟨r, hr, hw⟩
      · exact quiet hw
      · exact ⟨_, ActLog.issued hr, hw⟩
  | sendEscalating he =>
      cases he with
      | challenged hp => exact quiet rfl
      | block hb => exact quiet rfl
      | blocked hp => exact ⟨_, ActLog.blocked (Or.inl ⟨_, _, rfl⟩) hp, rfl⟩
  | sendReply =>
      split
      · rename_i hup
        exact ⟨_, ActLog.replied rfl hup, rfl⟩
      · exact ⟨_, ActLog.none, by simp⟩
  | passed q => exact ⟨_, ActLog.passed rfl, rfl⟩
  | challengeBlocked hp => exact ⟨_, ActLog.blocked (Or.inr rfl) hp, rfl⟩
  | _ => exact quiet rfl

/-! ### Steps -/

/-- What a step makes of the world. -/
inductive WorldStep (env : Env) (up : ConnKey → Bool) (c : Core) (l : Label) : World → Prop
  | same : WorldStep env up c l c.world
  | act {k : ConnKey} {h : Handler} {log : List Obs} (hl : l = .resume (.handler k))
      (hh : (c.conn k).handler = some h) (hlog : ActLog k (up k) c (some h) log) :
      WorldStep env up c l (c.world.note log)
  | handle {k : ConnKey} {log : List Obs} (hl : l = .handle k) (hk : k ∈ c.accepted)
      (hh : (c.conn k).handler = none) (hlog : ActLog k (up k) (c.take k) none log) :
      WorldStep env up c l (c.world.note log)
  | settled {th : Thread} {o : Outcome} {v : Bool} {w : World} (hl : l = .settle th o v)
      (ho : o.applied = true) (he : Effect env c th w) : WorldStep env up c l w
  | rolled {k : ConnKey} {p : RolloverPc} {prev : DailyRoom} {r : SessionRecord} {token : Token}
      {d : ℕ} (hl : l = .resume (.rollover k)) (hp : (c.conn k).rolling = some p)
      (hprev : ∀ a b x y, (c.srv k.inst).rolling = some (.batch a b x y) → prev = a)
      (hr : p.create.resume env c.draws = some (.done r token, d))
      (hc : (c.conn k).closed = false) :
      WorldStep env up c l (c.world.note [.rolled k (c.srv k.inst).resets prev
        ((c.conn k).record.getD r.toSessionIdent) r.toSessionIdent])
  | received {n : ℕ} {i : InstanceId} {e : BusEvent} {log : List Obs} (hl : l = .deliver n)
      (hn : c.world.inFlight[n]? = some (i, e))
      (hlog : log = [] ∨ ∃ m, e = .message m ∧ m.roomId ≠ (c.srv i).room.roomId ∧
        log = [.dropped i m (c.srv i).room.roomId]) :
      WorldStep env up c l ((c.receive n).world.note log)
  | flushed {i : InstanceId} (hl : l = .flush i) :
      WorldStep env up c l (c.world.note
        ((c.stale i).map (fun m => Obs.dropped i m (c.srv i).room.roomId) ++
          [.flushed i (c.batch i)]))
  | subscribers (subs : List InstanceId) :
      WorldStep env up c l { c.world with subscribers := subs }

/-- Every step makes of the world one of the listed states. -/
theorem CoreStep.world {env : Env} {up : ConnKey → Bool} {c c' : Core} {l : Label}
    (h : CoreStep env up c l c') : WorldStep env up c l c'.world := by
  have settled : ∀ {th : Thread} {o : Outcome} {v : Bool} {w : World}, Settles env c th o w →
      WorldStep env up c (.settle th o v) w := by
    rintro th o v w (⟨-, rfl⟩ | ⟨ho, he⟩)
    · exact WorldStep.same
    · exact WorldStep.settled rfl ho he
  cases h with
  | settle h => exact settled (Core.settles h)
  | settleChore h => exact settled (Chore.settles h)
  | @act k h c₁ h' hh ha =>
      obtain ⟨log, hlog, hw⟩ := ha.world
      rw [show (c₁.setHandler k h').world = c.world.note log from hw]
      exact WorldStep.act rfl hh hlog
  | @handle k c₁ h' hk hh ha =>
      obtain ⟨log, hlog, hw⟩ := ha.world
      rw [show (c₁.setHandler k h').world = c.world.note log from hw]
      exact WorldStep.handle rfl hk hh hlog
  | @rollover k p prev c' hp hprev hm =>
      cases hm with
      | wait hr => exact WorldStep.same
      | closed hr hc => exact WorldStep.same
      | threw hr => exact WorldStep.same
      | enter hr hc => exact WorldStep.rolled rfl hp hprev hr hc
  | reset hp hm =>
      rw [hm.frame]
      exact WorldStep.same
  | tick h =>
      rw [Core.checkRoom_frame]
      exact WorldStep.same
  | flush => exact WorldStep.flushed rfl
  | @message n i m hn =>
      unfold Core.onMessage
      split
      · rename_i hm
        exact WorldStep.received rfl hn (Or.inr ⟨m, rfl, hm, rfl⟩)
      · have := @WorldStep.received env up c _ n i _ [] rfl hn (Or.inl rfl)
        rwa [World.note_nil] at this
  | @kick n i origin sid reason hn =>
      have := @WorldStep.received env up c _ n i _ [] rfl hn (Or.inl rfl)
      rwa [World.note_nil] at this
  | start => exact WorldStep.subscribers _
  | stopEnd => exact WorldStep.subscribers _
  | _ => exact WorldStep.same

/-! ### The journal -/

/-- What a step appends to the journal. -/
inductive StepLog (env : Env) (up : ConnKey → Bool) (c : Core) (l : Label) : List Obs → Prop
  | none : StepLog env up c l []
  | act {k : ConnKey} {h : Handler} {log : List Obs} (hl : l = .resume (.handler k))
      (hh : (c.conn k).handler = some h) (hlog : ActLog k (up k) c (some h) log) :
      StepLog env up c l log
  | handle {k : ConnKey} {log : List Obs} (hl : l = .handle k) (hk : k ∈ c.accepted)
      (hh : (c.conn k).handler = none) (hlog : ActLog k (up k) (c.take k) none log) :
      StepLog env up c l log
  | saved {th : Thread} {o : Outcome} {v : Bool} {k : ConnKey} {req : SaveReq}
      (hl : l = .settle th o v) (ho : o.applied = true) (h : c.saving th = some (k, req)) :
      StepLog env up c l [.saved k req.record (c.world.stored req.record.sid)]
  | linked {th : Thread} {o : Outcome} {v : Bool} {token : Token} {sid : Sid}
      (hl : l = .settle th o v) : StepLog env up c l [.linked token sid]
  | appended {k : ConnKey} {o : Outcome} {v : Bool} {l' : SendLocals} {room : DailyRoom}
      {m : StoredMessage} (hl : l = .settle (.handler k) o v) (ho : o.applied = true)
      (hh : (c.conn k).handler = some (.send (.append l' room m .pending))) :
      StepLog env up c l [.appended k (c.conn k).handled l' room.roomId m]
  | published {k : ConnKey} {o : Outcome} {v : Bool} {l' : SendLocals} {room : DailyRoom}
      {m : StoredMessage} (hl : l = .settle (.handler k) o v) (ho : o.applied = true)
      (hh : (c.conn k).handler = some (.send (.publish l' room m .pending))) :
      StepLog env up c l
        [.published k (c.conn k).handled l' (busMessage k room m) c.world.subscribers]
  | rolled {k : ConnKey} {p : RolloverPc} {prev : DailyRoom} {r : SessionRecord} {token : Token}
      {d : ℕ} (hl : l = .resume (.rollover k)) (hp : (c.conn k).rolling = some p)
      (hprev : ∀ a b x y, (c.srv k.inst).rolling = some (.batch a b x y) → prev = a)
      (hr : p.create.resume env c.draws = some (.done r token, d))
      (hc : (c.conn k).closed = false) :
      StepLog env up c l [.rolled k (c.srv k.inst).resets prev
        ((c.conn k).record.getD r.toSessionIdent) r.toSessionIdent]
  | dropped {n : ℕ} {i : InstanceId} {m : BusMessage} (hl : l = .deliver n)
      (hn : c.world.inFlight[n]? = some (i, .message m))
      (hm : m.roomId ≠ (c.srv i).room.roomId) :
      StepLog env up c l [.dropped i m (c.srv i).room.roomId]
  | flushed {i : InstanceId} (hl : l = .flush i) :
      StepLog env up c l ((c.stale i).map (fun m => Obs.dropped i m (c.srv i).room.roomId) ++
        [.flushed i (c.batch i)])

/-- Every step appends one of the listed logs to the journal. -/
theorem WorldStep.log {env : Env} {up : ConnKey → Bool} {c : Core} {l : Label} {w : World}
    (h : WorldStep env up c l w) : ∃ log, StepLog env up c l log ∧
      w.journal = c.world.journal ++ log := by
  have quiet : w.journal = c.world.journal →
      ∃ log, StepLog env up c l log ∧ w.journal = c.world.journal ++ log :=
    fun hw => ⟨[], StepLog.none, by rw [hw, List.append_nil]⟩
  cases h with
  | same => exact quiet rfl
  | act hl hh hlog => exact ⟨_, StepLog.act hl hh hlog, rfl⟩
  | handle hl hk hh hlog => exact ⟨_, StepLog.handle hl hk hh hlog, rfl⟩
  | rolled hl hp hprev hr hc => exact ⟨_, StepLog.rolled hl hp hprev hr hc, rfl⟩
  | received hl hn hlog =>
      rcases hlog with rfl | ⟨m, rfl, hm, rfl⟩
      · exact quiet (List.append_nil _)
      · exact ⟨_, StepLog.dropped hl hn hm, rfl⟩
  | flushed hl => exact ⟨_, StepLog.flushed hl, rfl⟩
  | subscribers => exact quiet rfl
  | settled hl ho he =>
      cases he with
      | save hsv => exact ⟨_, StepLog.saved hl ho hsv, rfl⟩
      | link => exact ⟨_, StepLog.linked hl, rfl⟩
      | append ht hh =>
          subst ht
          exact ⟨_, StepLog.appended hl ho hh, rfl⟩
      | publish ht hh =>
          subst ht
          exact ⟨_, StepLog.published hl ho hh, rfl⟩
      | _ => exact quiet rfl

theorem WorldStep.length_le {env : Env} {up : ConnKey → Bool} {c : Core} {l : Label} {w : World}
    (h : WorldStep env up c l w) : c.world.journal.length ≤ w.journal.length := by
  obtain ⟨log, -, hj⟩ := h.log
  rw [hj, List.length_append]
  exact Nat.le_add_right _ _

end RoomBackend
