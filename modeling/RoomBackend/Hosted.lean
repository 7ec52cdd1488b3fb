import RoomBackend.Asks
import RoomBackend.Filing
import RoomBackend.Lifetimes
import RoomBackend.Progress

/-! # The system on a `MemoryStore`

The machine keeps names, sessions, resume tokens, counters, sets, blocks and locks in maps of their
own. Here every operation that takes effect is performed on a `MemoryStore` too, on string keys in
one map. No room of the system has a colon in its id (`Colonless`), so in every run both hold the
same, and whatever a thread is about to ask is answered the same by both (`hosted_answers`). -/

namespace RoomBackend

open Async Day Lts Expiring

/-! ### The machine -/

/-- The operation that the step settles is performed on the string keys. -/
def Sys.host (env : Env) (sp : Spelling) (s : Sys) (l : Label) (m : MemoryStore) : MemoryStore :=
  match l with
  | .settle th o _ =>
      match s.ask env th with
      | some (.store op) => if o.applied then (m.perform sp (s.clock, op)).2 else m
      | _ => m
  | _ => m

/-- The system, beside a `MemoryStore`. -/
def hosted (env : Env) (sp : Spelling) : Machine (Sys × MemoryStore) Label :=
  (system env).beside .empty fun s l _ m => s.host env sp l m

/-! ### Rooms without colons -/

/-- The room an admin request asks for has no colon in its id. -/
def AdminPc.Plain : AdminPc → Prop
  | owner _ _ roomId _ | unblockOwner _ roomId _ => ':' ∉ roomId.toList
  | _ => True

/-- The ids of rooms have no colon. -/
structure Colonless (c : Core) : Prop where
  rooms : ∀ i, ':' ∉ (c.srv i).room.roomId.toList
  rolling : ∀ i p, (c.srv i).rolling = some p → ':' ∉ p.prev.roomId.toList
  locals : ∀ k l, (c.conn k).handler.bind Handler.locals = some l → ':' ∉ l.record.roomId.toList
  admin : ∀ n i a, c.task n = some (.admin i a) → a.Plain

theorem Env.colon_not_mem (env : Env) (t : ℤ) : ':' ∉ (env.roomAt t).roomId.toList :=
  colon_not_mem_roomDateAt t env.zone

theorem Env.Daily.colon_not_mem {env : Env} {room : DailyRoom} (h : env.Daily room) :
    ':' ∉ room.roomId.toList := by
  obtain ⟨t, rfl⟩ := h
  exact env.colon_not_mem t

section moves

variable {env : Env} {i : InstanceId} {c c' : Core} {p p' : RollingPc}

theorem Batches.prev {prev next : DailyRoom} {rest : List ℕ}
    (h : Batches env i prev next c rest c') (hp : (c'.srv i).rolling = some p') :
    p'.prev = prev := by
  cases h with
  | ended =>
      rw [Core.setReset_srv] at hp
      cases hp
  | batch hne hb =>
      rw [Core.setReset_srv] at hp
      cases hp
      rfl

/-- A rollover leaves one room, from its start to its end. -/
theorem ResetMove.prev (h : ResetMove env i c p c') (hp : (c'.srv i).rolling = some p') :
    p'.prev = p.prev := by
  cases h with
  | listed hq hb =>
      rw [hb.prev hp]
      rcases hq with ⟨q, rfl⟩ | ⟨q, rfl⟩ | ⟨q, rfl⟩ <;> rfl
  | next hb => exact hb.prev hp
  | _ =>
      rw [Core.setReset_srv] at hp
      cases hp
      rfl

theorem RollingPc.settle_prev {now : ℤ} {o : Outcome} {w w' : World}
    (h : p.settle now o w = some (p', w')) : p'.prev = p.prev := by
  cases p with
  | batch => cases h
  | breathe => cases h
  | _ =>
      obtain ⟨r, -, he⟩ := Option.map_eq_some_iff.mp h
      cases he
      rfl

theorem AdminPc.settle_plain {now : ℤ} {o : Outcome} {a a' : AdminPc} {w w' : World}
    (h : a.settle env now i o w = some (a', w')) (ha : a.Plain) : a'.Plain := by
  cases a with
  | _ =>
      obtain ⟨r, -, he⟩ := Option.map_eq_some_iff.mp h
      cases he
      exact ha

/-- A request asks for the owner of a name at its start only. -/
theorem Sys.adminTarget_plain {s : Sys} {b : BlockReq} {sid : Option Sid} {a : AdminPc}
    (h : s.adminTarget i b sid = some a) : a.Plain := by
  unfold adminTarget at h
  split at h
  · cases h
    trivial
  · split at h
    · cases h
      trivial
    · cases h

theorem Sys.adminResume_plain {s : Sys} {a a' : AdminPc} (h : s.adminResume i a = some (some a')) :
    a'.Plain := by
  cases a with
  | owner b name roomId q =>
      cases q with
      | fulfilled sid => exact s.adminTarget_plain (Option.some.inj h)
      | _ => cases h
  | recent b roomId q =>
      cases q with
      | fulfilled recent =>
          obtain ⟨m, -, rfl⟩ := Option.map_eq_some_iff.mp (Option.some.inj h)
          trivial
      | _ => cases h
  | unblockOwner name roomId q =>
      cases q with
      | fulfilled sid =>
          obtain ⟨m, -, rfl⟩ := Option.map_eq_some_iff.mp (Option.some.inj h)
          trivial
      | _ => cases h
  | block b sid q =>
      cases q with
      | fulfilled => cases h; trivial
      | _ => cases h
  | kick b sid q =>
      cases q with
      | fulfilled => cases h; trivial
      | _ => cases h
  | _ =>
      obtain ⟨x, -, he⟩ := Option.map_eq_some_iff.mp h
      cases he

end moves

namespace Colonless

variable {env : Env} {s t : Sys} {l : Label}

theorem rooms_step {c c' : Core} {up : ConnKey → Bool} (h : Colonless c)
    (hs : CoreStep env up c l c') (i : InstanceId) : ':' ∉ (c'.srv i).room.roomId.toList := by
  have hx := hs.srv i
  generalize c'.srv i = v at hx
  cases hx with
  | start => exact env.colon_not_mem _
  | switch hl hr hn hnext =>
      subst hnext
      exact env.colon_not_mem _
  | @close k hl hc hi =>
      have he : (((c.shut k).onClosed k).srv i).room = (c.srv i).room := by
        subst hi
        unfold Core.onClosed
        rw [Core.updSrv_srv]
        split <;> rfl
      rw [he]
      exact h.rooms i
  | _ => exact h.rooms i

theorem rolling_step {c c' : Core} {up : ConnKey → Bool} (h : Colonless c)
    (hs : CoreStep env up c l c') (i : InstanceId) (p : RollingPc)
    (hp : (c'.srv i).rolling = some p) : ':' ∉ p.prev.roomId.toList := by
  have hx := hs.srv i
  generalize c'.srv i = v at hx hp
  cases hx with
  | switch =>
      cases hp
      exact h.rooms i
  | settleReset hq hset =>
      cases hp
      rw [RollingPc.settle_prev hset]
      exact h.rolling i _ hq
  | reset hl hq hm =>
      rw [hm.prev hp]
      exact h.rolling i _ hq
  | @close k hl hc hi =>
      have he : (((c.shut k).onClosed k).srv i).rolling = (c.srv i).rolling := by
        subst hi
        unfold Core.onClosed
        rw [Core.updSrv_srv]
        split <;> rfl
      exact h.rolling i p (he.symm.trans hp)
  | _ => exact h.rolling i p hp

theorem locals_step {c c' : Core} {up : ConnKey → Bool} (h : Colonless c)
    (hs : CoreStep env up c l c') (k : ConnKey) (x : SendLocals)
    (hx : (c'.conn k).handler.bind Handler.locals = some x) : ':' ∉ x.record.roomId.toList := by
  have hc := hs.conn k
  generalize c'.conn k = y at hc hx
  cases hc with
  | act hl hh ha =>
      rcases ha.locals hx with he | ⟨he, -⟩
      · exact h.locals k x (hh ▸ he)
      · cases he
  | handle hl hk hh ha =>
      rcases ha.locals hx with he | ⟨-, ho⟩
      · cases he
      · rw [ho.ours, ← ho.today]
        exact env.colon_not_mem _
  | settled hl hh hset =>
      refine h.locals k x ?_
      rw [hh]
      exact (Handler.settle_locals hset).1.symm.trans hx
  | accepted => cases hx
  | _ => exact h.locals k x hx

theorem admin_step (h : Colonless s.toCore) (hs : s.step env l = some t) (n : ℕ) (i : InstanceId)
    (a : AdminPc) (ha : t.task n = some (.admin i a)) : a.Plain := by
  cases Sys.adminMove hs ha with
  | same hb => exact h.admin n i a hb
  | settled hl hb hset => exact AdminPc.settle_plain hset (h.admin n i _ hb)
  | resumed hl hb hr => exact Sys.adminResume_plain hr
  | unblock hl => exact h.rooms i
  | @block b a hl hb =>
      unfold Sys.adminBlock at hb
      split at hb
      · cases hb
        exact h.rooms i
      · exact Sys.adminTarget_plain hb

theorem step (h : Colonless s.toCore) (hs : s.step env l = some t) : Colonless t.toCore :=
  ⟨h.rooms_step (Sys.coreStep hs), h.rolling_step (Sys.coreStep hs),
    h.locals_step (Sys.coreStep hs), h.admin_step hs⟩

/-- The rooms that a thread names have no colon in their ids. -/
theorem ask_plain {c : Core} {f : Sid → Option String} (h : Colonless c) (hD : Dated env f c)
    {th : Thread} {op : StoreOp} (ha : c.ask env th = some (.store op)) : op.Plain := by
  have creating : ∀ {p : CreatePc}, p.Dated env f → p.ask = .store op → op.Plain := by
    intro p hp he
    cases p with
    | claim =>
        cases he
        exact hp.1.colon_not_mem
    | _ =>
        cases he
        trivial
  have saving : ∀ {req : Option SaveReq}, req.map SaveReq.ask = some (.store op) → op.Plain := by
    intro req he
    obtain ⟨q, -, he⟩ := Option.map_eq_some_iff.mp he
    cases he
    trivial
  have blocking : ∀ {b : BlockPc} {info : AdmitInfo}, b.ask info = some (.store op) →
      op.Plain := by
    intro b info he
    cases b with
    | save => exact saving he
    | _ =>
        cases he
        trivial
  cases th with
  | handler k =>
      obtain ⟨x, hx, ha⟩ := Option.bind_eq_some_iff.mp ha
      cases x with
      | join p =>
          replace ha := Option.some.inj ha
          cases p with
          | create j p => exact creating (hD.handler k _ hx) ha
          | resume j token r =>
              cases r with
              | _ =>
                  cases ha
                  trivial
          | _ =>
              cases ha
              trivial
      | send p =>
          cases p with
          | dup l q =>
              cases ha
              refine h.locals k l ?_
              rw [hx]
              rfl
          | escalate l site e =>
              cases e with
              | returned => cases ha
              | challenge => exact saving ha
              | block => exact blocking ha
          | publish => cases ha
          | reply => cases ha
          | _ =>
              cases ha
              trivial
      | challenge p =>
          cases p with
          | verify => cases ha
          | block => exact blocking ha
          | _ => exact saving ha
      | report p =>
          cases p with
          | event => cases ha
          | _ =>
              cases ha
              trivial
  | rollover k =>
      obtain ⟨p, hp, ha⟩ := Option.map_eq_some_iff.mp ha
      exact creating (hD.rolling k p hp) ha
  | reset i =>
      obtain ⟨p, hp, ha⟩ := Option.bind_eq_some_iff.mp ha
      cases p with
      | cleanup =>
          cases ha
          exact h.rolling i _ hp
      | acquire =>
          cases ha
          trivial
      | _ => cases ha
  | upgrade n =>
      obtain ⟨u, hu, ha⟩ := Option.bind_eq_some_iff.mp ha
      generalize u.pc = pc at ha
      -- no request of an upgrade names a room
      unfold UpgradePc.ask at ha
      split at ha <;> cases ha <;> trivial
  | task n =>
      obtain ⟨b, hb, ha⟩ := Option.map_eq_some_iff.mp ha
      cases b with
      | persist =>
          cases ha
          trivial
      | admin i a =>
          cases a with
          | owner =>
              cases ha
              exact h.admin n i _ hb
          | unblockOwner =>
              cases ha
              exact h.admin n i _ hb
          | kick => cases ha
          | log => cases ha
          | _ =>
              cases ha
              trivial
  | chore n => cases ha

end Colonless

theorem colonless_of_reaches {env : Env} {C : Sys → Label → Prop} {s : Sys}
    (h : (system env).Reaches C s) : Colonless s.toCore := by
  refine Machine.Reaches.invariant (I := fun s => Colonless s.toCore) ?_ ?_ h
  · rintro s ⟨t, rfl⟩
    refine ⟨fun i => ?_, fun i p hp => ?_, fun k l hl => ?_, fun n i a ha => ?_⟩
    · exact List.not_mem_nil
    · cases hp
    · cases hl
    · cases ha
  · exact fun s l t hI _ hs => hI.step hs

/-! ### Runs -/

section models

variable {env : Env} {sp : Spelling}

/-- Presence and the abuse log aside, only the seven maps and the histories matter. -/
theorem Models.of_eq {m : MemoryStore} {s s' : Store} (h : Models sp m s)
    (hkv : s'.kv sp = s.kv sp) (hl : s'.lists = s.lists) : Models sp m s' :=
  ⟨fun k hk => by rw [hkv]; exact h.kv k hk, fun roomId => by rw [hl]; exact h.lists roomId⟩

/-- No other request has a string key. -/
theorem Models.effect {m : MemoryStore} {s : Store} (h : Models sp m s) {x : Ask}
    (hx : ∀ op, x ≠ .store op) (now : ℤ) : Models sp m (x.effect now s) := by
  cases x with
  | store op => exact absurd rfl (hx op)
  | abuse e retentionMs =>
      obtain ⟨v, hv⟩ := s.addAbuseEvent_eq now e retentionMs
      rw [Ask.effect, hv]
      exact h.of_eq rfl rfl
  | _ => exact h.of_eq rfl rfl

/-- Chores ask for no such operation. -/
theorem Sys.ask_core {s : Sys} {th : Thread} {op : StoreOp}
    (h : s.ask env th = some (.store op)) : s.toCore.ask env th = some (.store op) := by
  cases th with
  | chore n =>
      obtain ⟨b, -, hb⟩ := Option.map_eq_some_iff.mp h
      cases b <;> cases hb
  | _ => exact h

/-- The string keys keep up with the step. -/
theorem Models.step {s t : Sys} {l : Label} {m : MemoryStore} {f : Sid → Option String}
    (h : Models sp m s.world.store) (hC : Colonless s.toCore) (hD : Dated env f s.toCore)
    (hs : s.step env l = some t) : Models sp (s.host env sp l m) t.world.store := by
  by_cases hl : ∃ th o v, l = .settle th o v
  · obtain ⟨th, o, v, rfl⟩ := hl
    rw [Sys.settle_store hs]
    unfold Sys.host
    dsimp only
    cases ha : s.ask env th with
    | none => exact h
    | some x =>
        unfold landed
        rw [Option.elim_some]
        cases x with
        | store op =>
            dsimp only
            split
            · rw [Ask.effect, StoreOp.effect_eq sp]
              exact (h.perform (o := (s.clock, op)) (hC.ask_plain hD (Sys.ask_core ha))).2
            · exact h
        | _ =>
            dsimp only
            split
            · exact h.effect (fun op he => by cases he) s.clock
            · exact h
  · rw [Sys.store_kept hs fun th o v he => hl ⟨th, o, v, he⟩]
    unfold Sys.host
    split
    · exact absurd ⟨_, _, _, rfl⟩ hl
    · exact h

end models

/-- **One map for the whole system.** In every run a `MemoryStore` on which every operation that
takes effect is performed holds what the maps of the machine hold. So whatever operation a thread
waits for, the `MemoryStore` answers it as the machine does, and casts no value to a type that it
is not of. -/
theorem hosted_answers {env : Env} {sp : Spelling} {x : Sys × MemoryStore}
    (h : (hosted env sp).Reaches Free x) :
    Models sp x.2 x.1.world.store ∧ ∀ th op, x.1.ask env th = some (.store op) →
      (x.2.perform sp (x.1.clock, op)).1 = (x.1.world.store.perform sp (x.1.clock, op)).1 ∧
        (x.2.perform sp (x.1.clock, op)).1 ≠ .miscast := by
  have hM : Models sp x.2 x.1.world.store := by
    refine Machine.Reaches.beside (I := fun s m => Models sp m s.world.store) ?_ ?_ h
    · rintro s ⟨t, rfl⟩
      exact Models.empty
    · intro s m l t hreach hs hI
      obtain ⟨f, hf⟩ := dated_of_reaches hreach
      exact hI.step (colonless_of_reaches hreach) hf hs
  refine ⟨hM, fun th op ha => ?_⟩
  obtain ⟨f, hf⟩ := dated_of_reaches h.fst
  have hplain := (colonless_of_reaches h.fst).ask_plain hf (Sys.ask_core ha)
  have he := (hM.perform (o := (x.1.clock, op)) hplain).1
  exact ⟨he, he ▸ x.1.world.store.perform_ne_miscast sp _⟩

/-- A run of the theorem: a client has joined, and its record is found under its string key. -/
theorem hosted_answers_joined : ∃ (x : Sys × MemoryStore) (th : Thread) (op : StoreOp),
    (hosted (Demo.env none) .numerals).Reaches Free x ∧ (x.2.kv "sess:0".toList).isSome = true ∧
    x.1.ask (Demo.env none) th = some (.store op) ∧
    (x.2.perform .numerals (x.1.clock, op)).1 =
      (x.1.world.store.perform .numerals (x.1.clock, op)).1 := by
  have hdemo : ((hosted (Demo.env none) .numerals).execs (fun _ _ => true)
      (Sys.initial Demo.noon, .empty) (Demo.oneJoined ++ Demo.sending (Demo.conn 1) "hi")).any
      (fun x => (x.2.kv "sess:0".toList).isSome &&
        (x.1.ask (Demo.env none) (.handler (Demo.conn 1))).any fun a => a.op.isSome) = true := by
    decide +kernel
  obtain ⟨x, hx, hP⟩ := (Option.any_eq_true _ _).mp hdemo
  obtain ⟨hkv, ha⟩ := Bool.and_eq_true_iff.mp hP
  obtain ⟨a, ha, hop⟩ := (Option.any_eq_true _ _).mp ha
  cases a with
  | store op =>
      have hreach := Machine.reaches_of_execs (M := hosted (Demo.env none) .numerals) (C := Free)
        (fun _ _ _ => trivial) ⟨⟨Demo.noon, rfl⟩, rfl⟩ hx
      exact ⟨x, _, op, hreach, hkv, ha, ((hosted_answers hreach).2 _ op ha).1⟩
  | _ => cases hop

end RoomBackend
