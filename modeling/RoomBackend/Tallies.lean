import RoomBackend.Effects

/-! # What the operations count

`Counting env now o key l w w'`: an operation with outcome `o` turns the counters and the sets of
`w` into those of `w'`. It counts one counter, it adds a sender to the senders of a text, or it
leaves both alone. Of the counters, those that are kept for the network of a session are told
apart. -/

namespace RoomBackend

open Async Day Expiring

/-- The counters that are kept for the network of a session. -/
def CounterKey.ofSession : CounterKey → Bool
  | newsess _ => true
  | ipmsg _ => true
  | _ => false

/-- The counter of its network that a frame handler is about to count. -/
def Handler.hits (info : AdmitInfo) : Handler → Option CounterKey
  | .join (.newsess _ _ .pending) => some (.newsess info.net.dailyHash)
  | .send (.hit _ .pending) => some (.ipmsg info.net.dailyHash)
  | _ => none

/-- The send whose sender a frame handler is about to add to the senders of the text. -/
def Handler.gathers : Handler → Option SendLocals
  | .send (.dup l .pending) => some l
  | _ => none

namespace Core

variable (c : Core)

/-- The counter of its network that a thread is about to count. -/
def hits : Thread → Option CounterKey
  | .handler k => (c.conn k).handler.bind (Handler.hits (c.conn k).info)
  | _ => none

/-- The send whose sender a thread is about to add. -/
def gathers : Thread → Option SendLocals
  | .handler k => (c.conn k).handler.bind Handler.gathers
  | _ => none

end Core

/-- The key of the senders of a text in a room. -/
def SendLocals.dupKey (env : Env) (l : SendLocals) : String × String :=
  (l.record.roomId, env.textHash (env.fingerprint l.text))

/-- What an operation makes of the counters and the sets. -/
inductive Counting (env : Env) (now : ℤ) (o : Outcome) (hit : Option CounterKey)
    (l : Option SendLocals) (w : World) : World → Prop
  | quiet {w' : World} (hl : o.applied = true → l = none)
      (hc : w'.store.counters = w.store.counters) (hs : w'.store.sets = w.store.sets) :
      Counting env now o hit l w w'
  | hit {key : CounterKey} {windowMs : ℤ} (ho : o.applied = true) (hl : l = none)
      (h : key.ofSession = true → hit = some key) :
      Counting env now o hit l w (World.onStore (fun s => s.hit now key windowMs) w).2
  | add {x : SendLocals} (ho : o.applied = true) (h : l = some x) :
      Counting env now o hit l w
        (World.onStore (fun s => s.addToSet now (x.dupKey env) x.record.sid 30000) w).2

namespace Counting

variable {env : Env} {now : ℤ} {o : Outcome} {key : Option CounterKey} {l : Option SendLocals}
  {w w' : World}

theorem settle {α : Type} {p p' : Promise α} {f : World → α × World}
    (h : p.settle f o w = some (p', w'))
    (hf : p = .pending → o.applied = true → Counting env now o key l w (f w).2) :
    Counting env now o key l w w' := by
  obtain ⟨hp, -, rfl⟩ := Promise.settle_eq_some.mp h
  unfold Promise.effect
  split
  · rename_i ho
    exact hf hp ho
  · rename_i ho
    exact quiet (fun h => absurd h ho) rfl rfl

/-- An operation that leaves counters and sets alone. -/
theorem of_quiet {α : Type} {p p' : Promise α} {f : World → α × World}
    (h : p.settle f o w = some (p', w')) (hc : (f w).2.store.counters = w.store.counters)
    (hs : (f w).2.store.sets = w.store.sets) : Counting env now o key none w w' :=
  settle h fun _ _ => quiet (fun _ => rfl) hc hs

theorem of_hit {p p' : Promise ℕ} {key' : CounterKey} {windowMs : ℤ}
    (h : p.settle (World.onStore fun s => s.hit now key' windowMs) o w = some (p', w'))
    (hk : p = .pending → key'.ofSession = true → key = some key') :
    Counting env now o key none w w' := settle h fun hp ho => hit ho rfl (hk hp)

theorem of_abuse {p p' : Promise Unit} {retentionMs : ℤ} {e : AbuseEvent}
    (h : p.settle (World.onStore fun s => s.addAbuseEvent now e retentionMs) o w =
      some (p', w')) : Counting env now o key none w w' := by
  obtain ⟨v, hv⟩ := w.store.addAbuseEvent_eq now e retentionMs
  refine of_quiet h ?_ ?_
  · show (w.store.addAbuseEvent now e retentionMs).2.counters = _
    rw [hv]
  · show (w.store.addAbuseEvent now e retentionMs).2.sets = _
    rw [hv]

theorem of_claim {p p' : Promise Bool} {roomId name : String} {sid : Sid} {expireAt : ℤ}
    (h : p.settle (World.onStore fun s => s.claimName now roomId name sid expireAt) o w =
      some (p', w')) : Counting env now o key none w w' := by
  obtain ⟨names, hv, -⟩ := w.store.claimName_names now roomId name sid expireAt
  refine of_quiet h ?_ ?_
  · show (w.store.claimName now roomId name sid expireAt).2.counters = _
    rw [hv]
  · show (w.store.claimName now roomId name sid expireAt).2.sets = _
    rw [hv]

theorem of_blockTtl {p p' : Promise ℤ} {b : BlockKey}
    (h : p.settle (World.onStore fun s => s.blockTtl now b) o w = some (p', w')) :
    Counting env now o key none w w' := by
  refine of_quiet h ?_ ?_
  · show (w.store.blockTtl now b).2.counters = _
    rw [blockTtl_store]
  · show (w.store.blockTtl now b).2.sets = _
    rw [blockTtl_store]

theorem of_acquire {p p' : Promise Bool} {name : String} {ttlMs : ℤ}
    (h : p.settle (World.onStore fun s => s.acquireOnce now name ttlMs) o w = some (p', w')) :
    Counting env now o key none w w' := by
  have he : ∃ locks, (w.store.acquireOnce now name ttlMs).2 = { w.store with locks := locks } := by
    unfold Store.acquireOnce
    dsimp only
    split <;> exact ⟨_, rfl⟩
  obtain ⟨locks, he⟩ := he
  refine of_quiet h ?_ ?_
  · show (w.store.acquireOnce now name ttlMs).2.counters = _
    rw [he]
  · show (w.store.acquireOnce now name ttlMs).2.sets = _
    rw [he]

theorem of_save {k : ConnKey} {req : Option SaveReq} {p : Promise Unit}
    {r : Promise Unit × World} (h : settleSave k o req p w = some r) :
    Counting env now o key none w r.2 := by
  cases req with
  | none => cases h
  | some q => exact of_quiet (f := World.save k q) h rfl rfl

end Counting

section operations

variable {env : Env} {now : ℤ} {o : Outcome} {key : Option CounterKey} {w : World}

theorem CreatePc.counting {k : ConnKey} {p : CreatePc} {r : CreatePc × World}
    (h : p.settle now k o w = some r) : Counting env now o key none w r.2 := by
  cases p with
  | claim =>
      obtain ⟨r, hr, rfl⟩ := Option.map_eq_some_iff.mp h
      exact Counting.of_claim hr
  | _ =>
      obtain ⟨r, hr, rfl⟩ := Option.map_eq_some_iff.mp h
      exact Counting.of_quiet hr rfl rfl

theorem BlockPc.counting {k : ConnKey} {info : AdmitInfo} {b : BlockPc} {r : BlockPc × World}
    (h : b.settle now k info o w = some r) : Counting env now o key none w r.2 := by
  cases b with
  | save =>
      obtain ⟨r, hr, rfl⟩ := Option.map_eq_some_iff.mp h
      exact Counting.of_save hr
  | _ =>
      obtain ⟨r, hr, rfl⟩ := Option.map_eq_some_iff.mp h
      exact Counting.of_quiet hr rfl rfl

theorem Handler.counting {v : Bool} {k : ConnKey} {n : ℕ} {info : AdmitInfo} {h : Handler}
    {r : Handler × World} (hs : h.settle env now v k n info o w = some r) :
    Counting env now o (h.hits info) h.gathers w r.2 := by
  cases h with
  | join p =>
      obtain ⟨r, hr, rfl⟩ := Option.map_eq_some_iff.mp hs
      cases p with
      | resume j token p =>
          obtain ⟨x, hx, rfl⟩ := Option.map_eq_some_iff.mp hr
          cases p with
          | _ =>
              obtain ⟨y, hy, rfl⟩ := Option.map_eq_some_iff.mp hx
              exact Counting.of_quiet hy rfl rfl
      | rejoin =>
          obtain ⟨x, hx, rfl⟩ := Option.map_eq_some_iff.mp hr
          exact Counting.of_hit hx fun _ hk => by cases hk
      | newsess j room p =>
          obtain ⟨x, hx, rfl⟩ := Option.map_eq_some_iff.mp hr
          refine Counting.of_hit hx fun hp _ => ?_
          rw [hp]
          rfl
      | create =>
          obtain ⟨x, hx, rfl⟩ := Option.map_eq_some_iff.mp hr
          exact CreatePc.counting hx
      | block =>
          obtain ⟨x, hx, rfl⟩ := Option.map_eq_some_iff.mp hr
          exact Counting.of_blockTtl hx
      | history =>
          obtain ⟨x, hx, rfl⟩ := Option.map_eq_some_iff.mp hr
          exact Counting.of_quiet hx rfl rfl
  | send p =>
      obtain ⟨r, hr, rfl⟩ := Option.map_eq_some_iff.mp hs
      cases p with
      | hit l p =>
          obtain ⟨x, hx, rfl⟩ := Option.map_eq_some_iff.mp hr
          refine Counting.of_hit hx fun hp _ => ?_
          rw [hp]
          rfl
      | dup l p =>
          obtain ⟨x, hx, rfl⟩ := Option.map_eq_some_iff.mp hr
          refine Counting.settle hx fun hp ho => Counting.add ho ?_
          rw [hp]
          rfl
      | escalate l site e =>
          obtain ⟨x, hx, rfl⟩ := Option.map_eq_some_iff.mp hr
          cases e with
          | returned => cases hx
          | challenge =>
              obtain ⟨y, hy, rfl⟩ := Option.map_eq_some_iff.mp hx
              exact Counting.of_save hy
          | block =>
              obtain ⟨y, hy, rfl⟩ := Option.map_eq_some_iff.mp hx
              exact BlockPc.counting hy
      | reply => cases hr
      | _ =>
          obtain ⟨x, hx, rfl⟩ := Option.map_eq_some_iff.mp hr
          exact Counting.of_quiet hx rfl rfl
  | challenge p =>
      obtain ⟨r, hr, rfl⟩ := Option.map_eq_some_iff.mp hs
      cases p with
      | verify =>
          obtain ⟨x, hx, rfl⟩ := Option.map_eq_some_iff.mp hr
          exact Counting.of_quiet hx rfl rfl
      | block =>
          obtain ⟨x, hx, rfl⟩ := Option.map_eq_some_iff.mp hr
          exact BlockPc.counting hx
      | _ =>
          obtain ⟨x, hx, rfl⟩ := Option.map_eq_some_iff.mp hr
          exact Counting.of_save hx
  | report p =>
      obtain ⟨r, hr, rfl⟩ := Option.map_eq_some_iff.mp hs
      cases p with
      | hit =>
          obtain ⟨x, hx, rfl⟩ := Option.map_eq_some_iff.mp hr
          exact Counting.of_hit hx fun _ hk => by cases hk
      | recent =>
          obtain ⟨x, hx, rfl⟩ := Option.map_eq_some_iff.mp hr
          exact Counting.of_quiet hx rfl rfl
      | event =>
          obtain ⟨x, hx, rfl⟩ := Option.map_eq_some_iff.mp hr
          exact Counting.of_abuse hx

theorem RollingPc.counting {p : RollingPc} {r : RollingPc × World}
    (h : p.settle now o w = some r) : Counting env now o key none w r.2 := by
  cases p with
  | acquire prev next p =>
      obtain ⟨r, hr, rfl⟩ := Option.map_eq_some_iff.mp h
      exact Counting.of_acquire hr
  | cleanup =>
      obtain ⟨r, hr, rfl⟩ := Option.map_eq_some_iff.mp h
      exact Counting.of_quiet hr rfl rfl
  | log =>
      obtain ⟨r, hr, rfl⟩ := Option.map_eq_some_iff.mp h
      exact Counting.of_abuse hr
  | _ => cases h

theorem UpgradePc.counting {info : AdmitInfo} {p : UpgradePc} {r : UpgradePc × World}
    (h : p.settle now info o w = some r) : Counting env now o key none w r.2 := by
  cases p with
  | netBlock =>
      obtain ⟨r, hr, rfl⟩ := Option.map_eq_some_iff.mp h
      exact Counting.of_blockTtl hr
  | backoff =>
      obtain ⟨r, hr, rfl⟩ := Option.map_eq_some_iff.mp h
      exact Counting.of_blockTtl hr
  | attempts =>
      obtain ⟨r, hr, rfl⟩ := Option.map_eq_some_iff.mp h
      exact Counting.of_hit hr fun _ hk => by cases hk
  | floods =>
      obtain ⟨r, hr, rfl⟩ := Option.map_eq_some_iff.mp h
      exact Counting.of_hit hr fun _ hk => by cases hk
  | penalty =>
      obtain ⟨r, hr, rfl⟩ := Option.map_eq_some_iff.mp h
      exact Counting.of_quiet hr rfl rfl
  | _ => cases h

theorem Task.counting {b : Task} {r : Task × World} (h : b.settle env now o w = some r) :
    Counting env now o key none w r.2 := by
  cases b with
  | persist =>
      obtain ⟨r, hr, rfl⟩ := Option.map_eq_some_iff.mp h
      exact Counting.of_quiet hr rfl rfl
  | admin i a =>
      obtain ⟨r, hr, rfl⟩ := Option.map_eq_some_iff.mp h
      cases a with
      | log =>
          obtain ⟨x, hx, rfl⟩ := Option.map_eq_some_iff.mp hr
          exact Counting.of_abuse hx
      | _ =>
          obtain ⟨x, hx, rfl⟩ := Option.map_eq_some_iff.mp hr
          exact Counting.of_quiet hx rfl rfl

theorem Chore.counting {v : Bool} {b : Chore} {r : Chore × World}
    (h : b.settle now v o w = some r) : Counting env now o key none w r.2 := by
  cases b with
  | abuse =>
      obtain ⟨r, hr, rfl⟩ := Option.map_eq_some_iff.mp h
      exact Counting.of_abuse hr
  | _ =>
      obtain ⟨r, hr, rfl⟩ := Option.map_eq_some_iff.mp h
      exact Counting.of_quiet hr rfl rfl

theorem Core.counting {c c' : Core} {v : Bool} {th : Thread} (h : c.settle env o v th = some c') :
    Counting env c.clock o (c.hits th) (c.gathers th) c.world c'.world := by
  cases th with
  | handler k =>
      obtain ⟨x, hx, h⟩ := Option.bind_eq_some_iff.mp h
      obtain ⟨r, hr, rfl⟩ := Option.map_eq_some_iff.mp h
      rw [Core.hits, Core.gathers, hx]
      exact Handler.counting hr
  | rollover k =>
      obtain ⟨p, hp, h⟩ := Option.bind_eq_some_iff.mp h
      obtain ⟨r, hr, rfl⟩ := Option.map_eq_some_iff.mp h
      obtain ⟨x, hx, rfl⟩ := Option.map_eq_some_iff.mp hr
      exact CreatePc.counting hx
  | reset i =>
      obtain ⟨p, hp, h⟩ := Option.bind_eq_some_iff.mp h
      obtain ⟨r, hr, rfl⟩ := Option.map_eq_some_iff.mp h
      exact RollingPc.counting hr
  | upgrade n =>
      obtain ⟨u, hu, h⟩ := Option.bind_eq_some_iff.mp h
      obtain ⟨r, hr, rfl⟩ := Option.map_eq_some_iff.mp h
      exact UpgradePc.counting hr
  | task n =>
      obtain ⟨b, hb, h⟩ := Option.bind_eq_some_iff.mp h
      obtain ⟨r, hr, rfl⟩ := Option.map_eq_some_iff.mp h
      exact Task.counting hr
  | chore n => cases h

end operations

/-- What a step counts: only a settled operation counts anything. -/
theorem Sys.counting {env : Env} {s t : Sys} {l : Label} (h : s.step env l = some t) :
    (∃ th o v, l = .settle th o v ∧
      Counting env s.clock o (s.toCore.hits th) (s.toCore.gathers th) s.world t.world) ∨
    (∀ th o v, l ≠ .settle th o v) ∧ t.world.store.counters = s.world.store.counters ∧
      t.world.store.sets = s.world.store.sets := by
  by_cases hl : ∃ th o v, l = .settle th o v
  · obtain ⟨th, o, v, rfl⟩ := hl
    refine Or.inl ⟨th, o, v, rfl, ?_⟩
    cases th with
    | chore n =>
        obtain ⟨b, -, h⟩ := Option.bind_eq_some_iff.mp h
        obtain ⟨r, hr, rfl⟩ := Option.map_eq_some_iff.mp h
        exact Chore.counting hr
    | _ =>
        obtain ⟨c, hc, rfl⟩ := Option.map_eq_some_iff.mp h
        exact Core.counting hc
  · refine Or.inr ⟨fun th o v he => hl ⟨th, o, v, he⟩, ?_⟩
    have hw := (Sys.coreStep h).world
    generalize t.world = w at hw
    cases hw with
    | settled hl' ho => exact absurd ⟨_, _, _, hl'⟩ hl
    | _ => exact ⟨rfl, rfl⟩

end RoomBackend
