import RoomBackend.Blocks
import RoomBackend.Gathering
import RoomBackend.Redis
import RoomBackend.Tallies

/-! # The same text from several sessions

`addToSet` keeps the senders of a text in a set that is renewed as a whole, so a session counts as
long as no gap of `ttl` has fallen since it sent the text. The answer counts those who sent it in
the last `ttl` exactly if everyone who is still counted has done so again (`addToSet_fair_iff`);
in Redis a set is still there at the instant it expires at. `gathered` runs the system and writes
down the sends whose senders were added. -/

namespace RoomBackend

open Async Day Lts Expiring Gathering

/-! ### The two stores -/

/-- A sender that is added to the senders under a key. -/
abbrev DupAdd := Add (String × String) Sid

namespace Store

/-- `addToSet` adds the member and renews the set. -/
theorem addToSet_eq (s : Store) (a : DupAdd) (ttlMs : ℤ) :
    s.addToSet a.time a.key a.member ttlMs =
      ((Gathering.add 0 ttlMs s.sets a).1,
        { s with sets := (Gathering.add 0 ttlMs s.sets a).2 }) := by
  have hwrite : ∀ v e, (s.sets.read a.time a.key).2.write a.key v e = s.sets.write a.key v e := by
    intro v e
    unfold Map.read Map.write
    split
    · rfl
    · split
      · exact Function.update_idem ..
      · rfl
  unfold addToSet Gathering.add
  dsimp only
  rw [Map.read_fst, hwrite, sub_zero]

/-- `MemoryStore` after a history of adds, latest first. -/
def gathers (ttlMs : ℤ) : List DupAdd → Store
  | [] => empty
  | a :: past => ((gathers ttlMs past).addToSet a.time a.key a.member ttlMs).2

theorem gathers_sets (ttlMs : ℤ) (past : List DupAdd) :
    (gathers ttlMs past).sets = after 0 ttlMs past := by
  induction past with
  | nil => rfl
  | cons a past ih =>
      show ((gathers ttlMs past).addToSet a.time a.key a.member ttlMs).2.sets = _
      rw [addToSet_eq, ih]
      rfl

end Store

namespace RedisStore

/-- `addToSet` on the sets of Redis: `SADD`, `PEXPIRE`, `SCARD` in one `MULTI`. An expiry that is
not positive deletes the set. -/
def addToSet (sets : Map (String × String) (List Sid)) (now : ℤ) (key : String × String)
    (member : Sid) (ttlMs : ℤ) : ℕ × Map (String × String) (List Sid) :=
  let v := ((Redis.get sets now key).getD []).insert member
  if ttlMs ≤ 0 then (0, sets.erase key) else (v.length, sets.write key v (now + ttlMs))

theorem addToSet_eq {ttlMs : ℤ} (httl : 0 < ttlMs) (sets : Map (String × String) (List Sid))
    (a : DupAdd) :
    addToSet sets a.time a.key a.member ttlMs = Gathering.add 1 ttlMs sets a :=
  if_neg (not_le.mpr httl)

/-- The sets of Redis after a history of adds, latest first. -/
def gathers (ttlMs : ℤ) : List DupAdd → Map (String × String) (List Sid)
  | [] => Map.empty
  | a :: past => (addToSet (gathers ttlMs past) a.time a.key a.member ttlMs).2

theorem gathers_eq {ttlMs : ℤ} (httl : 0 < ttlMs) (past : List DupAdd) :
    gathers ttlMs past = after 1 ttlMs past := by
  induction past with
  | nil => rfl
  | cons a past ih =>
      show (addToSet (gathers ttlMs past) a.time a.key a.member ttlMs).2 = _
      rw [addToSet_eq httl, ih]
      rfl

end RedisStore

/-- Both stores answer an add with the members since the set last lapsed, and this is at most the
number of those added in the last `ttlMs` exactly if every such member has been. -/
theorem addToSet_fair_iff {ttlMs : ℤ} (httl : 0 < ttlMs) {past : List DupAdd} {a : DupAdd}
    (ho : Ordered (a :: past)) :
    (((Store.gathers ttlMs past).addToSet a.time a.key a.member ttlMs).1 ≤
        (members (recent ttlMs past a)).card ↔ Fresh 0 ttlMs past a) ∧
      ((RedisStore.addToSet (RedisStore.gathers ttlMs past) a.time a.key a.member ttlMs).1 ≤
        (members (recent ttlMs past a)).card ↔ Fresh 1 ttlMs past a) := by
  constructor
  · rw [Store.addToSet_eq, Store.gathers_sets]
    exact answer_le_iff le_rfl httl.le ho
  · rw [RedisStore.addToSet_eq httl, RedisStore.gathers_eq httl]
    exact answer_le_iff zero_le_one httl.le ho

/-! ### Sends whose sender is added -/

/-- A send that reaches the check for duplicates across sessions, at the instant of the check, and
the handler that waits for the answer. -/
structure DupSend where
  thread : Thread
  roomId : String
  text : String
  sid : Sid
  time : ℤ
deriving DecidableEq

def SendLocals.dupSend (l : SendLocals) (th : Thread) (now : ℤ) : DupSend :=
  { thread := th, roomId := l.record.roomId, text := l.text, sid := l.record.sid, time := now }

/-- What is added for it. -/
def DupSend.add (env : Env) (x : DupSend) : DupAdd :=
  { key := (x.roomId, env.textHash (env.fingerprint x.text)), member := x.sid, time := x.time }

/-- The send whose sender a step adds. -/
def Sys.dupSend (s : Sys) : Label → Option DupSend
  | .settle th o _ => if o.applied then (s.toCore.gathers th).map (·.dupSend th s.clock) else none
  | _ => none

/-- The system, with the sends whose senders it has added, latest first. -/
def gathered (env : Env) : Machine (Sys × List DupSend) Label :=
  { init := fun x => (system env).init x.1 ∧ x.2 = []
    step := fun x l => (x.1.step env l).map fun t => (t, (x.1.dupSend l).toList ++ x.2) }

/-- The answer to the check, by the sends before it. -/
def dupAnswer (env : Env) (past : List DupSend) (x : DupSend) : ℕ :=
  Gathering.answer 0 30000 (past.map (DupSend.add env)) (x.add env)

/-- The last send a thread had checked. -/
def lastOf (th : Thread) (log : List DupSend) : Option DupSend :=
  log.find? fun y => decide (y.thread = th)

/-- No two fingerprints of the sends have one hash. -/
def HashesApart (env : Env) (log : List DupSend) : Prop :=
  ∀ y ∈ log, ∀ z ∈ log,
    env.textHash (env.fingerprint y.text) = env.textHash (env.fingerprint z.text) →
      env.fingerprint y.text = env.fingerprint z.text

/-- A step that adds a sender finds only senders that have sent the text in the last 30 seconds. -/
def refreshed (env : Env) (x : Sys × List DupSend) (l : Label) : Bool :=
  (x.1.dupSend l).all fun y => decide (Fresh 0 30000 (x.2.map (DupSend.add env)) (y.add env))

/-- The sends that count for a send: same room, same fingerprint, in the 30 seconds up to it. -/
def DupSend.Counts (env : Env) (x y : DupSend) : Prop :=
  y.roomId = x.roomId ∧ env.fingerprint y.text = env.fingerprint x.text ∧
    x.time - 30000 ≤ y.time ∧ y.time ≤ x.time

instance (env : Env) (x : DupSend) : DecidablePred (x.Counts env) :=
  fun _ => inferInstanceAs (Decidable (_ ∧ _ ∧ _ ∧ _))

/-! ### Runs -/

/-- The sets of the store are those of the sends written down, and a handler that has its answer got
the one of its send. -/
structure Gathers (env : Env) (x : Sys × List DupSend) : Prop where
  sets : x.1.world.store.sets = after 0 30000 (x.2.map (DupSend.add env))
  ordered : Ordered (x.2.map (DupSend.add env))
  past : ∀ y ∈ x.2, y.time ≤ x.1.clock
  answered : ∀ k l n, (x.1.conn k).handler = some (.send (.dup l (.fulfilled n))) →
    ∃ later past t, x.2 = later ++ l.dupSend (.handler k) t :: past ∧
      (∀ y ∈ later, y.thread ≠ .handler k) ∧ n = dupAnswer env past (l.dupSend (.handler k) t)

section step

variable {env : Env} {s t : Sys} {log : List DupSend} {l : Label}

theorem addToSet_dup (w : World) (now : ℤ) (th : Thread) (x : SendLocals) :
    w.store.addToSet now (x.dupKey env) x.record.sid 30000 =
      ((Gathering.add 0 30000 w.store.sets ((x.dupSend th now).add env)).1,
        { w.store with
          sets := (Gathering.add 0 30000 w.store.sets ((x.dupSend th now).add env)).2 }) :=
  w.store.addToSet_eq ((x.dupSend th now).add env) 30000

/-- What a step does to the sets: it adds the sender of the send it writes down. -/
theorem Sys.sets_step (h : s.step env l = some t) :
    t.world.store.sets = s.world.store.sets ∧ s.dupSend l = none ∨
      ∃ x, s.dupSend l = some x ∧ x.time = s.clock ∧
        t.world.store.sets = (Gathering.add 0 30000 s.world.store.sets (x.add env)).2 := by
  rcases Sys.counting h with ⟨th, o, v, rfl, hw⟩ | ⟨hl, -, hs⟩
  · have hd : s.dupSend (.settle th o v) =
        if o.applied then (s.toCore.gathers th).map (·.dupSend th s.clock) else none := rfl
    rw [hd]
    generalize t.world = w at hw
    generalize s.toCore.gathers th = g at hw
    cases hw with
    | quiet hl hc hs =>
        refine Or.inl ⟨hs, ?_⟩
        split
        · rename_i ho
          rw [hl ho]
          rfl
        · rfl
    | hit ho hl hk => exact Or.inl ⟨rfl, by rw [if_pos ho, hl]; rfl⟩
    | @add x ho hx =>
        refine Or.inr ⟨x.dupSend th s.clock, by rw [if_pos ho, hx]; rfl, rfl, ?_⟩
        show (s.world.store.addToSet s.clock (x.dupKey env) x.record.sid 30000).2.sets = _
        rw [addToSet_dup _ _ th]
  · refine Or.inl ⟨hs, ?_⟩
    unfold Sys.dupSend
    split
    · exact absurd rfl (hl _ _ _)
    · rfl

/-- The handler whose send a step adds was waiting for the answer. -/
theorem Sys.dupSend_pending {y : DupSend} {k : ConnKey} (h : s.dupSend l = some y)
    (hk : y.thread = .handler k) :
    ∃ x, (s.conn k).handler = some (.send (.dup x .pending)) := by
  unfold Sys.dupSend at h
  split at h
  · split at h
    · obtain ⟨x, hx, rfl⟩ := Option.map_eq_some_iff.mp h
      cases hk
      obtain ⟨p, hp, hx⟩ := Option.bind_eq_some_iff.mp hx
      unfold Handler.gathers at hx
      split at hx
      · exact ⟨_, hp⟩
      · cases hx
    · cases h
  · cases h

/-- A handler that has its answer was waiting for it. -/
theorem Handler.settle_dup {now : ℤ} {v : Bool} {k : ConnKey} {n m : ℕ} {info : AdmitInfo}
    {o : Outcome} {h : Handler} {x : SendLocals} {w w' : World}
    (hs : h.settle env now v k n info o w = some (.send (.dup x (.fulfilled m)), w')) :
    h = .send (.dup x .pending) ∧ o.applied = true ∧
      m = (w.store.addToSet now (x.dupKey env) x.record.sid 30000).1 := by
  cases h with
  | send p =>
      obtain ⟨⟨q, w₁⟩, hq, he⟩ := Option.map_eq_some_iff.mp hs
      cases (Prod.mk.inj he).1
      cases p with
      | dup y p =>
          obtain ⟨⟨q, w₂⟩, hq', he'⟩ := Option.map_eq_some_iff.mp hq
          cases (Prod.mk.inj he').1
          obtain ⟨rfl, ha, -⟩ := Promise.settle_eq_some.mp hq'
          unfold Promise.answer at ha
          split at ha
          · rename_i ho
            rw [ho]
            exact ⟨rfl, rfl, Promise.fulfilled.inj ha⟩
          · cases ha
      | reply => cases hq
      | _ =>
          obtain ⟨r, -, he'⟩ := Option.map_eq_some_iff.mp hq
          cases (Prod.mk.inj he').1
  | _ =>
      obtain ⟨r, -, he⟩ := Option.map_eq_some_iff.mp hs
      cases (Prod.mk.inj he).1

/-- A handler has its answer as before, or is given it by this step. -/
theorem CoreStep.dup_handler {up : ConnKey → Bool} {c c' : Core} (hs : CoreStep env up c l c')
    {k : ConnKey} {x : SendLocals} {n : ℕ}
    (hh : (c'.conn k).handler = some (.send (.dup x (.fulfilled n)))) :
    (c.conn k).handler = some (.send (.dup x (.fulfilled n))) ∨
      ∃ o v, l = .settle (.handler k) o v ∧ o.applied = true ∧
        (c.conn k).handler = some (.send (.dup x .pending)) ∧
        n = (c.world.store.addToSet c.clock (x.dupKey env) x.record.sid 30000).1 := by
  have hx := hs.conn k
  generalize c'.conn k = y at hx hh
  cases hx with
  | act hl hh' ha =>
      dsimp only at hh
      subst hh
      cases ha
  | handle hl hk hh' ha =>
      dsimp only at hh
      subst hh
      cases ha
  | settled hl hh' hset =>
      cases hh
      obtain ⟨rfl, ho, hn⟩ := Handler.settle_dup hset
      exact Or.inr ⟨_, _, hl, ho, hh', hn⟩
  | accepted => cases hh
  | _ => exact Or.inl hh

theorem Gathers.step (hI : Gathers env (s, log)) (h : s.step env l = some t) :
    Gathers env (t, (s.dupSend l).toList ++ log) := by
  have hclock := Sys.clock_mono h
  have hsets := Sys.sets_step h
  refine ⟨?_, ?_, ?_, ?_⟩
  · rcases hsets with ⟨hs, hn⟩ | ⟨x, hx, -, hs⟩
    · rw [hn]
      exact hs.trans hI.sets
    · rw [hx]
      exact hs.trans (congrArg (fun m => (Gathering.add 0 30000 m (x.add env)).2) hI.sets)
  · rcases hsets with ⟨-, hn⟩ | ⟨x, hx, ht, -⟩
    · rw [hn]
      exact hI.ordered
    · rw [hx]
      refine List.pairwise_cons.mpr ⟨fun d hd => ?_, hI.ordered⟩
      obtain ⟨y, hy, rfl⟩ := List.mem_map.mp hd
      exact (hI.past y hy).trans ht.ge
  · intro y hy
    rcases List.mem_append.mp hy with hy | hy
    · rcases hsets with ⟨-, hn⟩ | ⟨x, hx, ht, -⟩
      · rw [hn] at hy
        cases hy
      · rw [hx] at hy
        rw [List.mem_singleton.mp hy, ht]
        exact hclock
    · exact (hI.past y hy).trans hclock
  · intro k x n hk
    rcases (Sys.coreStep h).dup_handler hk with hold | ⟨o, v, rfl, ho, hpend, rfl⟩
    · obtain ⟨later, past, time, he, hlater, hn⟩ := hI.answered k x n hold
      refine ⟨(s.dupSend l).toList ++ later, past, time, ?_, fun y hy hyk => ?_, hn⟩
      · show _ ++ log = _
        rw [show log = _ from he, List.append_assoc]
      · rcases List.mem_append.mp hy with hy | hy
        · -- it has its answer, so none is added for it
          obtain ⟨z, hz⟩ := Sys.dupSend_pending (Option.mem_toList.mp hy) hyk
          cases hold.symm.trans hz
        · exact hlater y hy hyk
    · refine ⟨[], log, s.clock, ?_, fun y hy => absurd hy List.not_mem_nil, ?_⟩
      · have hd : s.dupSend (.settle (.handler k) o v) =
            some (x.dupSend (.handler k) s.clock) := by
          show (if o.applied then _ else _) = _
          rw [if_pos ho, Core.gathers, hpend]
          rfl
        rw [hd]
        rfl
      · rw [addToSet_dup _ _ (.handler k)]
        exact congrArg (fun m =>
          (Gathering.add 0 30000 m ((x.dupSend (.handler k) s.clock).add env)).1) hI.sets

end step

theorem gathers_of_reaches {env : Env} {C : Sys × List DupSend → Label → Prop}
    {x : Sys × List DupSend} (h : (gathered env).Reaches C x) : Gathers env x := by
  refine Machine.Reaches.invariant (I := Gathers env) ?_ ?_ h
  · rintro ⟨s, log⟩ ⟨⟨t, rfl⟩, rfl⟩
    refine ⟨rfl, List.Pairwise.nil, fun y hy => ?_, fun k l n hk => ?_⟩
    · cases hy
    · cases hk
  · rintro ⟨s, log⟩ l ⟨t, log'⟩ hI _ hs
    obtain ⟨u, hu, he⟩ := Option.map_eq_some_iff.mp hs
    obtain ⟨rfl, rfl⟩ := Prod.mk.inj he
    exact hI.step hu

/-- In a run whose steps are refreshed, every send was. -/
theorem fresh_of_reaches {env : Env} {x : Sys × List DupSend}
    (h : (gathered env).Reaches (fun x l => refreshed env x l = true) x)
    {later past : List DupSend} {y : DupSend} (hy : x.2 = later ++ y :: past) :
    Fresh 0 30000 (past.map (DupSend.add env)) (y.add env) := by
  refine Machine.Reaches.invariant (M := gathered env)
    (C := fun x l => refreshed env x l = true)
    (I := fun x => ∀ later past y, x.2 = later ++ y :: past →
      Fresh 0 30000 (past.map (DupSend.add env)) (y.add env)) ?_ ?_ h later past y hy
  · rintro ⟨s, log⟩ ⟨-, rfl⟩ later past y hy
    exact absurd hy (by simp)
  · rintro ⟨s, log⟩ l ⟨t, log'⟩ hI hC hs later past y hy
    obtain ⟨u, -, he⟩ := Option.map_eq_some_iff.mp hs
    obtain ⟨rfl, rfl⟩ := Prod.mk.inj he
    have hy : (s.dupSend l).toList ++ log = later ++ y :: past := hy
    cases hd : s.dupSend l with
    | none =>
        rw [hd] at hy
        exact hI later past y hy
    | some z =>
        rw [hd] at hy
        cases later with
        | nil =>
            obtain ⟨rfl, rfl⟩ := List.cons.inj hy
            have hC : (s.dupSend l).all (fun y => decide (Fresh 0 30000
              (log.map (DupSend.add env)) (y.add env))) = true := hC
            rw [hd] at hC
            exact of_decide_eq_true hC
        | cons z' later => exact hI later past y (List.cons.inj hy).2

/-! ### The signal -/

/-- The members that are counted are senders of the text in the 30 seconds up to the send. -/
theorem recent_senders {env : Env} {past : List DupSend} {x : DupSend}
    (hfp : HashesApart env (x :: past)) (ho : Ordered ((x :: past).map (DupSend.add env)))
    {sid : Sid} (h : sid ∈ members (recent 30000 (past.map (DupSend.add env)) (x.add env))) :
    ∃ y ∈ x :: past, y.sid = sid ∧ x.Counts env y := by
  obtain ⟨d, hd, rfl⟩ := mem_members.mp h
  obtain ⟨hmem, hkey, ht⟩ := mem_recent.mp hd
  obtain ⟨y, hy, rfl⟩ := List.mem_map.mp (show d ∈ (x :: past).map (DupSend.add env) from hmem)
  obtain ⟨hroom, hhash⟩ := Prod.mk.inj hkey
  refine ⟨y, hy, rfl, hroom, hfp y hy x (List.mem_cons_self ..) hhash, ht, ?_⟩
  rcases List.mem_cons.mp hy with rfl | hy
  · exact le_rfl
  · exact (List.pairwise_cons.mp ho).1 _ (List.mem_map_of_mem hy)

/-- What comes before the last send of a thread is not its own. -/
theorem lastOf_append {th : Thread} {later past : List DupSend} {x : DupSend}
    (hlater : ∀ y ∈ later, y.thread ≠ th) (hx : x.thread = th) :
    lastOf th (later ++ x :: past) = some x := by
  have hnone : later.find? (fun y => decide (y.thread = th)) = none :=
    List.find?_eq_none.mpr fun y hy => by simpa using hlater y hy
  unfold lastOf
  rw [List.find?_append, hnone, Option.none_or, List.find?_cons_of_pos]
  exact decide_eq_true hx

/-- A handler that is about to raise the signal. -/
def Sys.raisesDup (s : Sys) (k : ConnKey) (l : SendLocals) : Prop :=
  ∃ n, (s.conn k).handler = some (.send (.dup l (.fulfilled n))) ∧ CROSS_DUP_SESSIONS ≤ n

/-- In a run in which everyone who is still counted as a sender of a text has sent it again in the
last 30 seconds, whenever the signal is raised the text was sent in the room by at least four
sessions, the sender among them, in the 30 seconds up to the send. -/
theorem senders_of_raisesDup {env : Env} {x : Sys × List DupSend}
    (h : (gathered env).Reaches (fun x l => refreshed env x l = true) x)
    (hfp : HashesApart env x.2) {k : ConnKey} {l : SendLocals} (hk : x.1.raisesDup k l) :
    ∃ t, lastOf (.handler k) x.2 = some (l.dupSend (.handler k) t) ∧
      ∃ senders : Finset Sid, CROSS_DUP_SESSIONS ≤ senders.card ∧ l.record.sid ∈ senders ∧
        ∀ sid ∈ senders, ∃ y ∈ x.2, y.sid = sid ∧ (l.dupSend (.handler k) t).Counts env y := by
  obtain ⟨n, hk, hn⟩ := hk
  have hI := gathers_of_reaches h
  obtain ⟨later, past, t, he, hlater, rfl⟩ := hI.answered k l n hk
  have ho : Ordered ((l.dupSend (.handler k) t :: past).map (DupSend.add env)) := by
    have ho := hI.ordered
    rw [he, List.map_append] at ho
    exact (List.pairwise_append.mp ho).2.1
  have hsub : ∀ y ∈ l.dupSend (.handler k) t :: past, y ∈ x.2 := fun y hy => by
    rw [he]
    exact List.mem_append_right _ hy
  have hpast : HashesApart env (l.dupSend (.handler k) t :: past) :=
    fun y hy z hz => hfp y (hsub y hy) z (hsub z hz)
  have hlast : lastOf (.handler k) x.2 = some (l.dupSend (.handler k) t) := by
    rw [he]
    exact lastOf_append hlater rfl
  have hle := (answer_le_iff le_rfl (by norm_num) ho).mpr (fresh_of_reaches h he)
  refine ⟨t, hlast, _, hn.trans hle, ?_, fun sid hsid => ?_⟩
  · exact mem_members.mpr ⟨_, self_mem_recent (by norm_num), rfl⟩
  · obtain ⟨y, hy, hs, hc⟩ := recent_senders hpast ho hsid
    exact ⟨y, hsub y hy, hs, hc⟩

/-- **Fair duplicates.** Both stores answer an add with at most the number of the members added in
the last `ttl` exactly if every member still held has been added again in it. And in a run in which
this is so at every add, and no two of the fingerprints have one hash, whenever the signal is
raised the text was sent in the room by at least four sessions, the sender among them, in the 30
seconds up to the check of the send. -/
theorem crossSessionDuplicate_fair {env : Env} :
    (∀ (ttlMs : ℤ) (past : List DupAdd) (a : DupAdd), 0 < ttlMs → Ordered (a :: past) →
      (((Store.gathers ttlMs past).addToSet a.time a.key a.member ttlMs).1 ≤
          (members (recent ttlMs past a)).card ↔ Fresh 0 ttlMs past a) ∧
        ((RedisStore.addToSet (RedisStore.gathers ttlMs past) a.time a.key a.member ttlMs).1 ≤
          (members (recent ttlMs past a)).card ↔ Fresh 1 ttlMs past a)) ∧
    ∀ x, (gathered env).Reaches (fun x l => refreshed env x l = true) x → HashesApart env x.2 →
      ∀ k l, x.1.raisesDup k l →
        ∃ t, lastOf (.handler k) x.2 = some (l.dupSend (.handler k) t) ∧
          ∃ senders : Finset Sid, CROSS_DUP_SESSIONS ≤ senders.card ∧ l.record.sid ∈ senders ∧
            ∀ sid ∈ senders, ∃ y ∈ x.2,
              y.sid = sid ∧ (l.dupSend (.handler k) t).Counts env y :=
  ⟨fun _ _ _ httl ho => addToSet_fair_iff httl ho,
    fun _ h hfp _ _ hk => senders_of_raisesDup h hfp hk⟩

namespace Demo

/-- The deployment, with room for four connections. -/
def crowd : Env :=
  { env none with
    config := { (env none).config with maxConnections := 4, maxConnectionsPerIp := 4 } }

/-- Four joined connections. -/
def fourJoined : List Label :=
  .start 0 :: (List.range 4).flatMap fun (n : ℕ) =>
    request n "a" ++ handshake n ++ joined (conn (n + 1))

/-- A connection sends a text, up to the answer of the check for duplicates. -/
def checked (k : ConnKey) (text : String) : List Label :=
  receive k (.send { clientId := "c", text := text, day := none }) ++ turns k 1 ++
    [.settle (.handler k) .answered false]

/-- Each of the four sends the text, the given time after the one before. -/
def chorus (step : ℤ) (text : String) : List Label :=
  (List.range 4).flatMap fun (n : ℕ) => .clock (noon + step * n) :: checked (conn (n + 1)) text

end Demo

/-- The handler of a connection is about to raise the signal. -/
def Sys.raisingDup (s : Sys) (k : ConnKey) : Bool :=
  match (s.conn k).handler with
  | some (.send (.dup _ (.fulfilled n))) => decide (CROSS_DUP_SESSIONS ≤ n)
  | _ => false

theorem Sys.raisesDup_of_raisingDup {s : Sys} {k : ConnKey} (h : s.raisingDup k = true) :
    ∃ l, s.raisesDup k l := by
  unfold Sys.raisingDup at h
  split at h
  · rename_i l n hk
    exact ⟨l, n, hk, of_decide_eq_true h⟩
  · cases h

/-- An add and the next, a second apart. -/
def Demo.twoAdds : List DupAdd := [⟨("room", "text"), 2, 1000⟩, ⟨("room", "text"), 1, 0⟩]

/-- A run of the theorem: four sessions send the same text, a second apart. -/
theorem crossSessionDuplicate_chorus :
    ((Store.gathers 30000 Demo.twoAdds.tail).addToSet 1000 ("room", "text") 2 30000).1 ≤
      (members (recent 30000 Demo.twoAdds.tail ⟨("room", "text"), 2, 1000⟩)).card ∧
    ∃ x k l t, (gathered Demo.crowd).Reaches (fun x l => refreshed Demo.crowd x l = true) x ∧
      x.1.raisesDup k l ∧ ∃ senders : Finset Sid, 4 ≤ senders.card ∧
        ∀ sid ∈ senders, ∃ y ∈ x.2,
          y.sid = sid ∧ (l.dupSend (.handler k) t).Counts Demo.crowd y := by
  have hfair := @crossSessionDuplicate_fair Demo.crowd
  refine ⟨((hfair.1 30000 _ ⟨("room", "text"), 2, 1000⟩ (by norm_num) (by decide)).1).mpr
    (by decide), ?_⟩
  have hrun : ((gathered Demo.crowd).execs (refreshed Demo.crowd) (Sys.initial Demo.noon, [])
      (Demo.fourJoined ++ Demo.chorus 1000 "good evening")).any (fun x =>
        x.1.raisingDup (Demo.conn 4)) = true := by
    decide +kernel
  obtain ⟨x, hx, hraise⟩ := (Option.any_eq_true _ _).mp hrun
  obtain ⟨l, hl⟩ := Sys.raisesDup_of_raisingDup hraise
  have hreach : (gathered Demo.crowd).Reaches (fun x l => refreshed Demo.crowd x l = true) x :=
    Machine.reaches_of_execs (fun _ _ hc => hc) ⟨⟨Demo.noon, rfl⟩, rfl⟩ hx
  have hapart : HashesApart Demo.crowd x.2 := fun _ _ _ _ h => h
  obtain ⟨t, -, senders, hcard, -, hs⟩ := hfair.2 x hreach hapart _ l hl
  exact ⟨x, _, l, t, hreach, hl, senders, hcard, hs⟩

/-- Four sessions send the same text, 25 seconds apart, and the signal is raised although only two
of them have sent it in the last 30 seconds. -/
theorem crossSessionDuplicate_scattered :
    ¬ ∀ x, (gathered Demo.crowd).Reaches Free x → ∀ k l, x.1.raisesDup k l →
      ∃ t, l.dupSend (.handler k) t ∈ x.2 ∧
        ∃ senders : Finset Sid, CROSS_DUP_SESSIONS ≤ senders.card ∧ l.record.sid ∈ senders ∧
          ∀ sid ∈ senders, ∃ y ∈ x.2,
            y.sid = sid ∧ (l.dupSend (.handler k) t).Counts Demo.crowd y := by
  have hrun : ((gathered Demo.crowd).execs (fun _ _ => true) (Sys.initial Demo.noon, [])
      (Demo.fourJoined ++ Demo.chorus 25000 "good evening")).any (fun x =>
        x.1.raisingDup (Demo.conn 4) &&
          x.2.all fun z => decide ((x.2.filter (z.Counts Demo.crowd ·)).length < 4)) = true := by
    decide +kernel
  obtain ⟨x, hx, hP⟩ := (Option.any_eq_true _ _).mp hrun
  obtain ⟨hraise, hfew⟩ := (Bool.and_eq_true _ _).mp hP
  obtain ⟨l, hl⟩ := Sys.raisesDup_of_raisingDup hraise
  have hreach : (gathered Demo.crowd).Reaches Free x :=
    Machine.reaches_of_execs (fun _ _ _ => trivial) ⟨⟨Demo.noon, rfl⟩, rfl⟩ hx
  intro hfair
  obtain ⟨t, ht, senders, hcard, -, hs⟩ := hfair x hreach _ l hl
  have hlt := of_decide_eq_true (List.all_eq_true.mp hfew _ ht)
  have hsub : senders ⊆
      ((x.2.filter ((l.dupSend (.handler (Demo.conn 4)) t).Counts Demo.crowd ·)).map
        DupSend.sid).toFinset := by
    intro sid hsid
    obtain ⟨y, hy, hsid, hc⟩ := hs sid hsid
    rw [List.mem_toFinset]
    exact List.mem_map.mpr ⟨y, List.mem_filter.mpr ⟨hy, decide_eq_true hc⟩, hsid⟩
  have hle := (Finset.card_le_card hsub).trans (List.toFinset_card_le _)
  rw [List.length_map] at hle
  exact absurd (hcard.trans hle) (not_le.mpr hlt)

end RoomBackend
