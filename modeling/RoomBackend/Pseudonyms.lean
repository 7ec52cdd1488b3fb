import RoomBackend.Lifetimes
import RoomBackend.Succession
import RoomBackend.Tallies

/-! # Pseudonyms of networks

A connection is known by the pseudonym of its network for the room in force when its request was
admitted. `create` stores that pseudonym with every session it makes for the connection, and the
counters of new sessions and of messages are kept under it, whatever the room has become since.
`noted` runs the system and writes down every such use. A use is that of the network in the room
of the session exactly if this is the room of the admission (`Use.fits_iff`). -/

namespace RoomBackend

open Async Day Lts Expiring

/-! ### Uses of a pseudonym -/

/-- A pseudonym is used for a session: `create` stores its record, or a counter is counted on
behalf of a session of the room. -/
inductive Use where
  | stored (k : ConnKey) (r : SessionIdent)
  | counted (k : ConnKey) (roomId : String) (key : CounterKey)
deriving DecidableEq

/-- The connection it is used for. -/
def Use.conn : Use → ConnKey
  | stored k _ => k
  | counted k _ _ => k

/-- The room of the session it is used for. -/
def Use.roomId : Use → String
  | stored _ r => r.roomId
  | counted _ roomId _ => roomId

/-- The use a frame handler waits for. -/
def Handler.use (k : ConnKey) (info : AdmitInfo) : Handler → Option Use
  | .join (.newsess _ room .pending) =>
      some (.counted k room.roomId (.newsess info.net.dailyHash))
  | .join (.create _ p) => p.saving.map fun q => .stored k q.record.toSessionIdent
  | .send (.hit l .pending) => some (.counted k l.record.roomId (.ipmsg info.net.dailyHash))
  | _ => none

/-- The use a thread waits for. -/
def Core.use (c : Core) : Thread → Option Use
  | .handler k => (c.conn k).handler.bind (Handler.use k (c.conn k).info)
  | .rollover k =>
      (c.conn k).rolling.bind fun p =>
        p.create.saving.map fun q => .stored k q.record.toSessionIdent
  | _ => none

/-- The use that a step makes: an operation takes effect. -/
def Sys.uses (s : Sys) : Label → Option Use
  | .settle th o _ => if o.applied then s.toCore.use th else none
  | _ => none

/-- The system, with the uses it has made. -/
def noted (env : Env) : Machine (Sys × List Use) Label :=
  { init := fun x => (system env).init x.1 ∧ x.2 = []
    step := fun x l => (x.1.step env l).map fun t => (t, x.2 ++ (x.1.uses l).toList) }

/-- The pseudonym of the connection's network in the room. -/
def Sys.pseudonym (env : Env) (s : Sys) (k : ConnKey) (roomId : String) : String :=
  (env.networkIdentity roomId (s.conn k).info.network).dailyHash

/-- The pseudonym that is used is that of the network in the room of the session. -/
def Use.Fits (env : Env) (s : Sys) : Use → Prop
  | stored k r => r.ipHash = s.pseudonym env k r.roomId
  | counted k roomId key =>
      key = .newsess (s.pseudonym env k roomId) ∨ key = .ipmsg (s.pseudonym env k roomId)

/-- A step uses a pseudonym only for a session of the room its connection was admitted in. -/
def Sys.sameRoom (s : Sys) (l : Label) : Bool :=
  (s.uses l).all fun u => decide (u.roomId = (s.conn u.conn).info.roomId)

/-! ### The pseudonym of a connection -/

/-- The pseudonym `create` stores. -/
def CreatePc.ipHash : CreatePc → String
  | claim _ input _ _ _ _ => input.ipHash
  | save _ record _ _ => record.ipHash
  | link _ record _ _ _ => record.ipHash

/-- The pseudonyms are those of the network in the room of the admission. -/
def AdmitInfo.Derived (env : Env) (info : AdmitInfo) : Prop :=
  info.net = env.networkIdentity info.roomId info.network

/-- Every connection is known by the pseudonym of its admission, and `create` was called with
it. -/
structure Hashed (env : Env) (c : Core) : Prop where
  upgrade : ∀ n u, c.upgrade n = some u → u.info.Derived env
  conn : ∀ k ∈ c.accepted, (c.conn k).info.Derived env
  handler : ∀ k j p, (c.conn k).handler = some (.join (.create j p)) →
    p.ipHash = (c.conn k).info.net.dailyHash
  rolling : ∀ k p, (c.conn k).rolling = some p →
    p.create.ipHash = (c.conn k).info.net.dailyHash

section hashed

variable {env : Env} {up : ConnKey → Bool} {c c' : Core} {l : Label}

theorem CreatePc.settle_ipHash {now : ℤ} {k : ConnKey} {o : Outcome} {w w' : World}
    {p p' : CreatePc} (hs : p.settle now k o w = some (p', w')) : p'.ipHash = p.ipHash := by
  cases p with
  | _ =>
      obtain ⟨q, -, he⟩ := Option.map_eq_some_iff.mp hs
      rw [← (Prod.mk.inj he).1]
      rfl

theorem CreatePc.wait_ipHash {d d' : ℕ} {p p' : CreatePc}
    (hr : p.resume env d = some (.wait p', d')) : p'.ipHash = p.ipHash := by
  unfold CreatePc.resume at hr
  split at hr
  · split at hr
    · cases hr
    · cases hr
    · cases hr
      rfl
    · split at hr
      · cases hr
        rfl
      · cases hr
  · split at hr
    · cases hr
    · cases hr
      rfl
    · cases hr
      rfl
  · split at hr
    · cases hr
    · cases hr
    · split at hr <;> cases hr

/-- A handler that creates a session does so with the pseudonym of its connection. -/
theorem Act.ipHash {k : ConnKey} {b : Bool} {c₁ : Core} {h h' : Option Handler}
    (ha : Act env k b c h c₁ h')
    (hh : ∀ j p, h = some (.join (.create j p)) → p.ipHash = (c.conn k).info.net.dailyHash)
    (j : JoinCtx) (p : CreatePc) (he : h' = some (.join (.create j p))) :
    p.ipHash = (c.conn k).info.net.dailyHash := by
  cases ha with
  | joinMove hm =>
      cases hm with
      | create input hp hi hn =>
          cases he
          exact hn
      | creating hp =>
          cases he
          exact (CreatePc.wait_ipHash hp).trans (hh _ _ rfl)
      | _ => cases he
  | _ => cases he

theorem Handler.settle_ipHash {now : ℤ} {v : Bool} {k : ConnKey} {n : ℕ} {info : AdmitInfo}
    {o : Outcome} {w w' : World} {h : Handler} {j : JoinCtx} {p : CreatePc}
    (hs : h.settle env now v k n info o w = some (.join (.create j p), w')) :
    ∃ p₀, h = .join (.create j p₀) ∧ p.ipHash = p₀.ipHash := by
  cases h with
  | join q =>
      obtain ⟨⟨q', w₁⟩, hq, he⟩ := Option.map_eq_some_iff.mp hs
      cases (Prod.mk.inj he).1
      cases q with
      | create j' p₀ =>
          obtain ⟨⟨p', w₂⟩, hp, he'⟩ := Option.map_eq_some_iff.mp hq
          cases (Prod.mk.inj he').1
          exact ⟨p₀, rfl, CreatePc.settle_ipHash hp⟩
      | _ =>
          obtain ⟨x, -, he'⟩ := Option.map_eq_some_iff.mp hq
          cases (Prod.mk.inj he').1
  | _ =>
      obtain ⟨x, -, he⟩ := Option.map_eq_some_iff.mp hs
      cases (Prod.mk.inj he).1

/-- A connection keeps what it was admitted with. -/
theorem CoreStep.info (hs : CoreStep env up c l c') (hB : Born c) {k : ConnKey}
    (hk : k ∈ c.accepted) : (c'.conn k).info = (c.conn k).info := by
  have hx := hs.conn k
  generalize c'.conn k = x at hx
  cases hx with
  | act hl hh ha => exact ha.kept.info
  | handle hl hk' hh ha =>
      refine ha.kept.info.trans ?_
      rw [Core.take_conn]
  | @accepted n u hl hj =>
      have hseq := hB.numbered k hk
      rw [hj] at hseq
      exact absurd hseq (Nat.not_succ_le_self _)
  | _ => rfl

theorem Hashed.upgrade_step (hs : CoreStep env up c l c') (h : Hashed env c) (n : ℕ)
    (u : Upgrade) (hu : c'.upgrade n = some u) : u.info.Derived env := by
  by_cases hreq : ∃ i req, l = .upgrade i req
  · obtain ⟨i, req, rfl⟩ := hreq
    cases hs with
    | same => exact h.upgrade n u hu
    | upgrade hst =>
        by_cases hn : n = c.upgrades
        · subst hn
          rw [show (c.onUpgrade env i req).upgrade c.upgrades = _ from
            Function.update_self ..] at hu
          rw [← Option.some.inj hu]
          rfl
        · rw [show (c.onUpgrade env i req).upgrade n = _ from
            Function.update_of_ne hn _ _] at hu
          exact h.upgrade n u hu
  · rcases (hs.requests fun i req he => hreq ⟨i, req, he⟩).2 with
      he | ⟨m, v, v', hv, -, hi, -, he⟩
    · rw [he] at hu
      exact h.upgrade n u hu
    · rw [he] at hu
      by_cases hn : n = m
      · subst hn
        rw [Function.update_self] at hu
        rw [← Option.some.inj hu, hi]
        exact h.upgrade n v hv
      · rw [Function.update_of_ne hn] at hu
        exact h.upgrade n u hu

theorem Hashed.conn_step (hs : CoreStep env up c l c') (hB : Born c) (h : Hashed env c)
    (k : ConnKey) (hk : k ∈ c'.accepted) : (c'.conn k).info.Derived env := by
  by_cases hold : k ∈ c.accepted
  · rw [hs.info hB hold]
    exact h.conn k hold
  · rcases hs.accepted with he | ⟨n, u, -, hu, -, -, rfl⟩
    · rw [he] at hk
      exact absurd hk hold
    · have hk : k ∈ c.accepted ++ [⟨u.inst, (c.srv u.inst).seq + 1⟩] := hk
      rcases List.mem_append.mp hk with hk | hk
      · exact absurd hk hold
      · rw [List.mem_singleton.mp hk]
        have hinfo : ((((c.setUpgrade n { u with pc := .accepted }).accept u.inst u.info).conn
            ⟨u.inst, (c.srv u.inst).seq + 1⟩)).info = u.info :=
          congrArg Conn.info (Core.accept_conn_self (c := c.setUpgrade n _) _ _)
        rw [hinfo]
        exact h.upgrade n u hu

theorem Hashed.handler_step (hs : CoreStep env up c l c') (h : Hashed env c) (k : ConnKey)
    (j : JoinCtx) (p : CreatePc) (hp : (c'.conn k).handler = some (.join (.create j p))) :
    p.ipHash = (c'.conn k).info.net.dailyHash := by
  have hx := hs.conn k
  generalize c'.conn k = x at hx hp
  cases hx with
  | act hl hh ha =>
      dsimp only
      rw [ha.kept.info]
      exact ha.ipHash (fun j' p' he => h.handler k j' p' (hh.trans he)) j p hp
  | handle hl hk hh ha =>
      dsimp only
      rw [ha.kept.info]
      exact ha.ipHash (fun j' p' he => by cases he) j p hp
  | settled hl hh hset =>
      cases hp
      obtain ⟨p₀, rfl, he⟩ := Handler.settle_ipHash hset
      exact he.trans (h.handler k j p₀ hh)
  | accepted => cases hp
  | _ => exact h.handler k j p hp

theorem Hashed.rolling_step (hs : CoreStep env up c l c') (h : Hashed env c) (k : ConnKey)
    (p : RolloverPc) (hp : (c'.conn k).rolling = some p) :
    p.create.ipHash = (c'.conn k).info.net.dailyHash := by
  have hx := hs.conn k
  generalize c'.conn k = x at hx hp
  cases hx with
  | act hl hh ha =>
      rw [show _ = (c.conn k).rolling from ha.kept.rolling] at hp
      dsimp only
      rw [ha.kept.info]
      exact h.rolling k p hp
  | handle hl hk hh ha =>
      rw [show _ = ((c.take k).conn k).rolling from ha.kept.rolling, Core.take_conn] at hp
      dsimp only
      rw [ha.kept.info, Core.take_conn]
      exact h.rolling k p hp
  | accepted => cases hp
  | begins hd hj hc hi hl hn =>
      cases hp
      exact hn
  | rolling hl hq hset =>
      cases hp
      obtain ⟨⟨q, w⟩, hr, he⟩ := Option.map_eq_some_iff.mp hset
      rw [← (Prod.mk.inj he).1]
      exact (CreatePc.settle_ipHash hr).trans (h.rolling k _ hq)
  | creating hq hr =>
      cases hp
      exact (CreatePc.wait_ipHash hr).trans (h.rolling k _ hq)
  | rolled => cases hp
  | renewed => cases hp
  | _ => exact h.rolling k p hp

theorem Hashed.step (hs : CoreStep env up c l c') (hB : Born c) (h : Hashed env c) :
    Hashed env c' :=
  ⟨h.upgrade_step hs, h.conn_step hs hB, h.handler_step hs, h.rolling_step hs⟩

end hashed

theorem hashed_of_reaches {env : Env} {C : Sys → Label → Prop} {s : Sys}
    (h : (system env).Reaches C s) : Hashed env s.toCore := by
  refine Machine.Reaches.invariant_of (J := fun s => Born s.toCore)
    (I := fun s => Hashed env s.toCore) (fun s hs => born_of_reaches hs) ?_ ?_ h
  · rintro s ⟨t, rfl⟩
    refine ⟨fun n u hu => ?_, fun k hk => ?_, fun k j p hp => ?_, fun k p hp => ?_⟩
    · cases hu
    · cases hk
    · cases hp
    · cases hp
  · intro s l t hB hI _ hs
    exact hI.step (Sys.coreStep hs) hB

/-! ### Where records come from -/

/-- The records of a `create` whose save was answered. -/
def CreatePc.minted : CreatePc → List SessionRecord
  | save _ record _ (.fulfilled _) => [record]
  | link _ record _ true _ => [record]
  | _ => []

/-- The copies of a handler, but for a record that `create` has yet to store. -/
def Handler.minted : Handler → List SessionRecord
  | .join (.create _ p) => p.minted
  | h => h.copies

/-- The listed records are of sessions with the property. -/
def AllIdents (P : SessionIdent → Prop) (rs : List SessionRecord) : Prop :=
  ∀ r ∈ rs, P r.toSessionIdent

/-- Every record that is stored, held or about to be stored again is of a session with the
property. -/
structure Minted (P : SessionIdent → Prop) (c : Core) : Prop where
  sess : ∀ sid e, c.world.store.sess sid = some e → P e.v.toSessionIdent
  held : ∀ k r, (c.conn k).record = some r → P r
  handler : ∀ k h, (c.conn k).handler = some h → AllIdents P h.minted
  rolling : ∀ k p, (c.conn k).rolling = some p → AllIdents P p.create.minted
  task : ∀ n b, c.task n = some b → AllIdents P b.copies

section minted

variable {env : Env} {P Q : SessionIdent → Prop}

theorem allIdents_nil : AllIdents P [] := fun _ hr => absurd hr List.not_mem_nil

theorem allIdents_singleton {r : SessionRecord} (h : P r.toSessionIdent) : AllIdents P [r] := by
  intro r' hr
  rw [List.mem_singleton.mp hr]
  exact h

theorem AllIdents.mono (hPQ : ∀ r, P r → Q r) {rs : List SessionRecord} (h : AllIdents P rs) :
    AllIdents Q rs := fun r hr => hPQ _ (h r hr)

/-! ### Answered operations -/

/-- A save that is answered was under way. -/
theorem CreatePc.settle_minted {now : ℤ} {k : ConnKey} {o : Outcome} {w w' : World}
    {p p' : CreatePc} (hs : p.settle now k o w = some (p', w')) {r : SessionRecord}
    (hr : r ∈ p'.minted) :
    r ∈ p.minted ∨ o.applied = true ∧ ∃ q, p.saving = some q ∧ q.record = r := by
  cases p with
  | claim =>
      obtain ⟨q, -, he⟩ := Option.map_eq_some_iff.mp hs
      rw [← (Prod.mk.inj he).1] at hr
      cases hr
  | save room record token p =>
      obtain ⟨⟨q, w₁⟩, hq, he⟩ := Option.map_eq_some_iff.mp hs
      rw [← (Prod.mk.inj he).1] at hr
      obtain ⟨rfl, rfl, -⟩ := Promise.settle_eq_some.mp hq
      cases o with
      | answered =>
          rw [List.mem_singleton.mp hr]
          exact Or.inr ⟨rfl, _, rfl, rfl⟩
      | refused => cases hr
      | timedOut => cases hr
  | link room record token saved p =>
      obtain ⟨q, -, he⟩ := Option.map_eq_some_iff.mp hs
      rw [← (Prod.mk.inj he).1] at hr
      cases saved with
      | true => exact Or.inl hr
      | false => cases hr

/-- A record that is answered is one that was carried along, one that was loaded, or one that
`create` has just stored. -/
theorem Handler.settle_minted {now : ℤ} {v : Bool} {k : ConnKey} {n : ℕ} {info : AdmitInfo}
    {o : Outcome} {w w' : World} {h h' : Handler}
    (hs : h.settle env now v k n info o w = some (h', w')) {r : SessionRecord}
    (hr : r ∈ h'.minted) : r ∈ h.minted ∨ (∃ sid, (World.load now sid w).1 = some r) ∨
      o.applied = true ∧ ∃ j p q, h = .join (.create j p) ∧ p.saving = some q ∧ q.record = r := by
  have other : r ∈ h'.copies → (∀ j p, h ≠ .join (.create j p)) → r ∈ h.minted ∨
      ∃ sid, (World.load now sid w).1 = some r := by
    intro hr hne
    have he : h.minted = h.copies := by
      cases h with
      | join p =>
          cases p with
          | create j p => exact absurd rfl (hne j p)
          | _ => rfl
      | _ => rfl
    rw [he]
    exact Handler.settle_copies hs hr
  cases h with
  | join p =>
      cases p with
      | create j p =>
          obtain ⟨⟨q, w₁⟩, hq, he⟩ := Option.map_eq_some_iff.mp hs
          rw [← (Prod.mk.inj he).1] at hr
          obtain ⟨⟨x, w₂⟩, hx, he'⟩ := Option.map_eq_some_iff.mp hq
          rw [← (Prod.mk.inj he').1] at hr
          rcases CreatePc.settle_minted hx hr with hr | ⟨ho, q', hq', hr⟩
          · exact Or.inl hr
          · exact Or.inr (Or.inr ⟨ho, j, p, q', rfl, hq', hr⟩)
      | _ =>
          obtain ⟨⟨q, w₁⟩, hq, he⟩ := Option.map_eq_some_iff.mp hs
          obtain ⟨x, -, he'⟩ := Option.map_eq_some_iff.mp hq
          have hc : r ∈ h'.copies := by
            rw [← (Prod.mk.inj he).1, ← (Prod.mk.inj he').1] at hr ⊢
            exact hr
          rcases other hc (by simp) with h | h
          · exact Or.inl h
          · exact Or.inr (Or.inl h)
  | _ =>
      obtain ⟨x, -, he⟩ := Option.map_eq_some_iff.mp hs
      have hc : r ∈ h'.copies := by
        rw [← (Prod.mk.inj he).1] at hr ⊢
        exact hr
      rcases other hc (by simp) with h | h
      · exact Or.inl h
      · exact Or.inr (Or.inl h)

/-! ### Stretches -/

theorem CreatePc.wait_minted {d d' : ℕ} {p p' : CreatePc}
    (hr : p.resume env d = some (.wait p', d')) {r : SessionRecord} (hm : r ∈ p'.minted) :
    r ∈ p.minted := by
  unfold CreatePc.resume at hr
  split at hr
  · split at hr
    · cases hr
    · cases hr
    · cases hr
      cases hm
    · split at hr
      · cases hr
        cases hm
      · cases hr
  · split at hr
    · cases hr
    · cases hr
      cases hm
    · cases hr
      exact hm
  · split at hr
    · cases hr
    · cases hr
    · split at hr <;> cases hr

theorem CreatePc.done_minted {d d' : ℕ} {p : CreatePc} {r : SessionRecord} {token : Token}
    (hr : p.resume env d = some (.done r token, d')) : r ∈ p.minted := by
  unfold CreatePc.resume at hr
  split at hr
  · split at hr
    · cases hr
    · cases hr
    · cases hr
    · split at hr <;> cases hr
  · split at hr <;> cases hr
  · split at hr
    · cases hr
    · cases hr
    · split at hr
      · rename_i hsaved
        cases hr
        rw [hsaved]
        exact List.mem_singleton_self _
      · cases hr

/-- `persist` saves the record of the connection's session. -/
theorem Core.saveReq_record {c : Core} {k : ConnKey} {q : Rating} {req : SaveReq}
    (hq : c.saveReq k q = some req) : (c.conn k).record = some req.record.toSessionIdent := by
  unfold Core.saveReq at hq
  split at hq
  · cases hq
  · rename_i r hr
    split at hq
    · cases hq
    · cases hq
      exact hr

theorem Core.savedCopies_held {c : Core} {k : ConnKey} {q : Rating}
    (hheld : ∀ r, (c.conn k).record = some r → P r) :
    AllIdents P (savedCopies (c.saveReq k q)) := by
  intro r hr
  cases hq : c.saveReq k q with
  | none =>
      rw [hq] at hr
      cases hr
  | some req =>
      rw [hq] at hr
      rw [List.mem_singleton.mp hr]
      exact hheld _ (Core.saveReq_record hq)

section stretches

variable {c c₁ : Core} {k : ConnKey} (hheld : ∀ r, (c.conn k).record = some r → P r)

include hheld

theorem BlockMove.minted {b b' : BlockPc} (hb : BlockMove c k b b') : AllIdents P b'.copies := by
  cases hb with
  | net => exact allIdents_nil
  | save => exact Core.savedCopies_held hheld
  | saveNet => exact Core.savedCopies_held hheld

theorem Escalates.minted {e : EscalatePc} (he : Escalates c k c₁ e) : AllIdents P e.copies := by
  cases he with
  | quiet => exact allIdents_nil
  | challenge q hr =>
      refine Core.savedCopies_held ?_
      rw [Core.issue_conn]
      exact hheld
  | block => exact allIdents_nil

theorem EscalateMove.minted {e e' : EscalatePc} (he : EscalateMove c k e c₁ e') :
    AllIdents P e'.copies := by
  cases he with
  | challenged => exact allIdents_nil
  | block hb => exact hb.minted hheld
  | blocked => exact allIdents_nil

omit hheld in
theorem JoinMove.minted {p p' : JoinPc} {d : ℕ} (hm : JoinMove env c k p p' d)
    (h : AllIdents P (Handler.join p).minted) : AllIdents P (Handler.join p').minted := by
  cases hm with
  | @resume j token r r' hr =>
      show AllIdents P r'.copies
      rw [ResumePc.wait_copies hr]
      exact allIdents_nil
  | unknown => exact allIdents_nil
  | found hr => exact allIdents_singleton (h _ (ResumePc.done_copies hr))
  | create => exact allIdents_nil
  | creating hp => exact fun r hr => h r (CreatePc.wait_minted hp hr)
  | created hp => exact allIdents_singleton (h _ (CreatePc.done_minted hp))
  | rejoined => exact h
  | retryCreated => exact allIdents_nil
  | retryRejoined => exact allIdents_nil

/-- A stretch of a handler carries on records of sessions with the property. -/
theorem Act.minted {up : Bool} {h h' : Option Handler} (ha : Act env k up c h c₁ h')
    (hh : ∀ x, h = some x → AllIdents P x.minted) : ∀ x, h' = some x → AllIdents P x.minted := by
  intro x hx
  cases ha with
  | joinMove hp =>
      cases hx
      exact hp.minted (hh _ rfl)
  | sendLimited hl he =>
      cases hx
      exact Escalates.minted (c := c.observe _) hheld he
  | sendEscalate hs he =>
      cases hx
      exact he.minted hheld
  | sendEscalating he =>
      cases hx
      exact he.minted hheld
  | passed q =>
      cases hx
      refine Core.savedCopies_held (c := c.pass k _ _) ?_
      rw [Core.pass_conn]
      exact hheld
  | failed q =>
      cases hx
      refine Core.savedCopies_held (c := c.fail k _) ?_
      rw [Core.fail_conn]
      exact hheld
  | challengeBlock hb =>
      cases hx
      exact hb.minted hheld
  | idle => cases hx
  | joinOver => cases hx
  | joinBlocked => cases hx
  | joinWelcome => cases hx
  | sendReply => cases hx
  | failedOver => cases hx
  | challengeBlocked => cases hx
  | _ =>
      cases hx
      exact allIdents_nil

end stretches

/-! ### The store -/

/-- A save under way is that of a record of a session with the property, or the first save of a
session. -/
theorem Minted.saving {c : Core} (h : Minted P c) {th : Thread} {k : ConnKey} {q : SaveReq}
    (hq : c.saving th = some (k, q)) : P q.record.toSessionIdent ∨
      c.use th = some (.stored k q.record.toSessionIdent) := by
  cases th with
  | handler j =>
      obtain ⟨q', hq', he⟩ := Option.map_eq_some_iff.mp hq
      obtain ⟨rfl, rfl⟩ := Prod.mk.inj he
      obtain ⟨x, hx, hs⟩ := Option.bind_eq_some_iff.mp hq'
      by_cases hc : ∃ a p, x = .join (.create a p)
      · obtain ⟨a, p, rfl⟩ := hc
        have hs : p.saving = some q' := hs
        refine Or.inr ?_
        rw [Core.use, hx, Option.bind_some, Handler.use, hs, Option.map_some]
      · have hm : q'.record ∈ x.minted := by
          have hm := Handler.mem_copies hs
          cases x with
          | join p =>
              cases p with
              | create a p => exact absurd ⟨a, p, rfl⟩ hc
              | _ => exact hm
          | _ => exact hm
        exact Or.inl (h.handler j x hx _ hm)
  | rollover j =>
      obtain ⟨q', hq', he⟩ := Option.map_eq_some_iff.mp hq
      obtain ⟨rfl, rfl⟩ := Prod.mk.inj he
      obtain ⟨p, hp, hs⟩ := Option.bind_eq_some_iff.mp hq'
      refine Or.inr ?_
      rw [Core.use, hp, Option.bind_some, hs, Option.map_some]
  | task n =>
      unfold Core.saving at hq
      dsimp only at hq
      split at hq
      · rename_i j req p hb
        obtain ⟨q', hq', he⟩ := Option.map_eq_some_iff.mp hq
        obtain ⟨rfl, rfl⟩ := Prod.mk.inj he
        have hm := mem_savedCopies_of_unsaved hq'
        exact Or.inl (h.task n _ hb _ hm)
      · cases hq
  | _ => cases hq

theorem WorldStep.minted {up : ConnKey → Bool} {c : Core} {l : Label} {w : World}
    (hs : WorldStep env up c l w) (h : Minted P c) (hPQ : ∀ r, P r → Q r)
    (hnew : ∀ th o v k r, l = .settle th o v → o.applied = true →
      c.use th = some (.stored k r) → Q r) (sid : Sid) (e : Entry SessionRecord)
    (he : w.store.sess sid = some e) : Q e.v.toSessionIdent := by
  have kept : c.world.store.sess sid = some e → Q e.v.toSessionIdent :=
    fun he => hPQ _ (h.sess sid e he)
  cases hs with
  | settled hl ho heff =>
      cases heff with
      | @save k req hq =>
          replace he : c.world.store.sess.write req.record.sid req.record req.expireAt sid =
            some e := he
          by_cases hsid : sid = req.record.sid
          · subst hsid
            rw [Map.write_same] at he
            cases he
            rcases h.saving hq with hp | hu
            · exact hPQ _ hp
            · exact hnew _ _ _ _ _ hl ho hu
          · rw [Map.write_ne _ _ _ hsid] at he
            exact kept he
      | load sid => exact kept (Map.read_snd_eq_some he)
      | other hk => exact kept (by rw [← hk.sess]; exact he)
      | _ => exact kept he
  | _ => exact kept he

/-! ### Steps -/

section step

variable {up : ConnKey → Bool} {c c' : Core} {l : Label}

theorem Minted.held_step (hs : CoreStep env up c l c') (hS : Seats c) (h : Minted P c)
    (k : ConnKey) (r : SessionIdent) (hr : (c'.conn k).record = some r) : P r := by
  have hx := hs.shift hS k
  replace hr : (c'.berth k).record = some r := hr
  generalize c'.berth k = b at hx hr
  cases hx with
  | accept => cases hr
  | enter hl he =>
      cases hr
      obtain ⟨j, token, p, hh⟩ := Core.entering_handler he
      exact h.handler k _ hh _ (List.mem_singleton_self _)
  | renewed hl hp hres hc =>
      cases hr
      exact h.rolling k _ hp _ (CreatePc.done_minted hres)
  | _ => exact h.held k r hr

theorem Minted.handler_step (hs : CoreStep env up c l c') (h : Minted P c)
    (hPQ : ∀ r, P r → Q r) (hnew : ∀ th o v k r, l = .settle th o v → o.applied = true →
      c.use th = some (.stored k r) → Q r) (k : ConnKey) (x : Handler)
    (hx : (c'.conn k).handler = some x) : AllIdents Q x.minted := by
  have kept : (c.conn k).handler = some x → AllIdents Q x.minted :=
    fun hh => (h.handler k x hh).mono hPQ
  have hc := hs.conn k
  generalize c'.conn k = y at hc hx
  cases hc with
  | act hl hh ha =>
      refine (ha.minted (h.held k) (fun z hz => ?_) x hx).mono hPQ
      cases hz
      exact h.handler k _ hh
  | handle hl hk hh ha =>
      have held : ∀ r, ((c.take k).conn k).record = some r → P r := by
        rw [Core.take_conn]
        exact h.held k
      exact (ha.minted held (fun z hz => by cases hz) x hx).mono hPQ
  | @settled h₀ h' o v w hl hh hset =>
      cases hx
      intro r hr
      rcases Handler.settle_minted hset hr with hr | ⟨sid, hload⟩ | ⟨ho, j, p, q, rfl, hq, rfl⟩
      · exact hPQ _ (h.handler k h₀ hh r hr)
      · obtain ⟨r', hr', rfl⟩ := Option.map_eq_some_iff.mp hload
        rw [Store.getSession, Map.read_fst] at hr'
        obtain ⟨e, he, -, rfl⟩ := Map.lookup_eq_some.mp hr'
        exact hPQ _ (h.sess sid e he)
      · refine hnew _ _ _ k _ hl ho ?_
        rw [Core.use, hh, Option.bind_some, Handler.use, hq, Option.map_some]
  | accepted => cases hx
  | _ => exact kept hx

theorem Minted.rolling_step (hs : CoreStep env up c l c') (h : Minted P c)
    (hPQ : ∀ r, P r → Q r) (hnew : ∀ th o v k r, l = .settle th o v → o.applied = true →
      c.use th = some (.stored k r) → Q r) (k : ConnKey) (p : RolloverPc)
    (hp : (c'.conn k).rolling = some p) : AllIdents Q p.create.minted := by
  have kept : ∀ q, (c.conn k).rolling = some q → AllIdents Q q.create.minted :=
    fun q hq => (h.rolling k q hq).mono hPQ
  have hx := hs.conn k
  generalize c'.conn k = y at hx hp
  cases hx with
  | act hl hh ha =>
      rw [show _ = (c.conn k).rolling from ha.kept.rolling] at hp
      exact kept p hp
  | handle hl hk hh ha =>
      rw [show _ = ((c.take k).conn k).rolling from ha.kept.rolling, Core.take_conn] at hp
      exact kept p hp
  | accepted => cases hp
  | begins =>
      cases hp
      exact allIdents_nil
  | @rolling q q' o v w hl hq hset =>
      cases hp
      obtain ⟨⟨x, w'⟩, hr, he⟩ := Option.map_eq_some_iff.mp hset
      rw [← (Prod.mk.inj he).1]
      intro r hm
      rcases CreatePc.settle_minted hr hm with hm | ⟨ho, q', hq', rfl⟩
      · exact kept q hq r hm
      · refine hnew _ _ _ k _ hl ho ?_
        rw [Core.use, hq, Option.bind_some, hq', Option.map_some]
  | creating hq hr =>
      cases hp
      exact fun r hm => kept _ hq r (CreatePc.wait_minted hr hm)
  | rolled => cases hp
  | renewed => cases hp
  | _ => exact kept p hp

theorem Minted.task_step (hs : CoreStep env up c l c') (h : Minted P c) (n : ℕ) (b : Task)
    (hb : c'.task n = some b) : AllIdents P b.copies := by
  have hx := hs.task_step n
  rw [hb] at hx
  generalize hob : some b = ob at hx
  cases hx with
  | same => exact h.task n b hob.symm
  | settled hl hb' hset =>
      cases hob
      rw [Task.settle_copies hset]
      exact h.task n _ hb'
  | ended => cases hob
  | admin =>
      cases hob
      exact allIdents_nil
  | @save k q req hq =>
      cases hob
      exact allIdents_singleton (h.held k _ (Core.saveReq_record hq))

/-- A step stores, holds and carries on records of sessions with the property, if those that
`create` stores in it have the property. -/
theorem Minted.step (hs : CoreStep env up c l c') (hS : Seats c) (h : Minted P c)
    (hPQ : ∀ r, P r → Q r) (hnew : ∀ th o v k r, l = .settle th o v → o.applied = true →
      c.use th = some (.stored k r) → Q r) : Minted Q c' :=
  ⟨hs.world.minted h hPQ hnew, fun k r hr => hPQ _ (h.held_step hs hS k r hr),
    h.handler_step hs hPQ hnew, h.rolling_step hs hPQ hnew,
    fun n b hb => (h.task_step hs n b hb).mono hPQ⟩

end step

end minted

/-! ### Counters -/

/-- The counter is not counted. -/
def Uncounted (key : CounterKey) (w w' : World) : Prop :=
  ∀ i e, w'.store.counters (key, i) = some e → w.store.counters (key, i) = some e

section counters

variable {env : Env} {key : CounterKey} {now : ℤ} {o : Outcome} {w w' : World}

theorem Uncounted.of_eq (h : w'.store.counters = w.store.counters) : Uncounted key w w' := by
  intro i e he
  rwa [h] at he

/-- A hit of another counter. -/
theorem Uncounted.hit {key' : CounterKey} {windowMs : ℤ} (hne : key ≠ key') :
    Uncounted key w (World.onStore (fun s => s.hit now key' windowMs) w).2 := by
  intro i e he
  have hk : (key, i) ≠ (key', now / windowMs) := fun hk => hne (Prod.mk.inj hk).1
  replace he : ((w.store.counters.read now (key', now / windowMs)).2.write (key', now / windowMs)
    (((w.store.counters.read now (key', now / windowMs)).1.getD 0) + 1) (now + windowMs))
      (key, i) = some e := he
  rw [Map.write_ne _ _ _ hk] at he
  exact Map.read_snd_eq_some he

/-- A thread counts the counters of its network only where it makes use of the pseudonym. -/
theorem Core.use_of_hits {c : Core} {th : Thread} (h : c.hits th = some key) :
    ∃ k roomId, c.use th = some (.counted k roomId key) := by
  cases th with
  | handler k =>
      obtain ⟨x, hx, hk⟩ := Option.bind_eq_some_iff.mp h
      refine ⟨k, ?_⟩
      rw [Core.use, hx, Option.bind_some]
      unfold Handler.hits at hk
      split at hk
      · cases hk
        exact ⟨_, rfl⟩
      · cases hk
        exact ⟨_, rfl⟩
      · cases hk
  | _ => cases h

/-- A step counts such a counter only as a use of the pseudonym. -/
theorem Sys.uncounted {s t : Sys} {l : Label} (hkey : key.ofSession = true)
    (h : s.step env l = some t) (hu : ∀ k roomId, s.uses l ≠ some (.counted k roomId key)) :
    Uncounted key s.world t.world := by
  rcases Sys.counting h with ⟨th, o, v, rfl, hw⟩ | ⟨-, hc, -⟩
  · generalize t.world = w at hw
    cases hw with
    | quiet hl hc => exact Uncounted.of_eq hc
    | hit ho hl hk =>
        refine Uncounted.hit fun he => ?_
        subst he
        obtain ⟨k, roomId, hc⟩ := Core.use_of_hits (hk hkey)
        rw [Sys.uses, if_pos ho] at hu
        exact hu k roomId hc
    | add => exact Uncounted.of_eq rfl
  · exact Uncounted.of_eq hc

end counters

/-! ### Runs -/

theorem noted_fst {env : Env} {C : Sys → Label → Prop} {x : Sys × List Use}
    (h : (noted env).Reaches (fun x l => C x.1 l) x) : (system env).Reaches C x.1 := by
  have hb : ((system env).beside [] fun s l _ us => us ++ (s.uses l).toList).Reaches
      (fun x l => C x.1 l) x := h
  exact hb.fst_of fun _ _ hc => hc

/-- `create` has stored a session with this identity. -/
def Created (uses : List Use) (r : SessionIdent) : Prop := ∃ k, .stored k r ∈ uses

theorem minted_of_reaches {env : Env} {C : Sys → Label → Prop} {x : Sys × List Use}
    (h : (noted env).Reaches (fun x l => C x.1 l) x) : Minted (Created x.2) x.1.toCore := by
  refine Machine.Reaches.invariant_of (J := fun x => (system env).Reaches C x.1)
    (I := fun x => Minted (Created x.2) x.1.toCore) (fun x hx => noted_fst hx) ?_ ?_ h
  · rintro ⟨s, us⟩ ⟨⟨t, rfl⟩, -⟩
    refine ⟨fun sid e he => ?_, fun k r hr => ?_, fun k x hx => ?_, fun k p hp => ?_,
      fun n b hb => ?_⟩
    · cases he
    · cases hr
    · cases hx
    · cases hp
    · cases hb
  · rintro ⟨s, us⟩ l ⟨t, us'⟩ hreach hI _ hs
    obtain ⟨u, hu, he⟩ := Option.map_eq_some_iff.mp hs
    obtain ⟨rfl, rfl⟩ := Prod.mk.inj he
    refine hI.step (Sys.coreStep hu) (seats_of_reaches hreach)
      (fun r ⟨k, hk⟩ => ⟨k, List.mem_append_left _ hk⟩) fun th o v k r hl ho hr => ?_
    refine ⟨k, List.mem_append_right _ ?_⟩
    rw [hl, Sys.uses, if_pos ho, hr]
    exact List.mem_singleton_self _

/-- Every such counter that is kept was counted as a use of the pseudonym. -/
theorem counted_of_reaches {env : Env} {x : Sys × List Use} {C : Sys × List Use → Label → Prop}
    (h : (noted env).Reaches C x) {key : CounterKey} (hkey : key.ofSession = true) {i : ℤ}
    {e : Entry ℕ} (he : x.1.world.store.counters (key, i) = some e) :
    ∃ k roomId, .counted k roomId key ∈ x.2 := by
  refine Machine.Reaches.invariant
    (I := fun x => ∀ e, x.1.world.store.counters (key, i) = some e →
      ∃ k roomId, Use.counted k roomId key ∈ x.2) ?_ ?_ h e he
  · rintro ⟨s, us⟩ ⟨⟨t, rfl⟩, -⟩ e he
    cases he
  · rintro ⟨s, us⟩ l ⟨t, us'⟩ hI _ hs e he
    obtain ⟨u, hu, heq⟩ := Option.map_eq_some_iff.mp hs
    obtain ⟨rfl, rfl⟩ := Prod.mk.inj heq
    by_cases hc : ∃ k roomId, s.uses l = some (.counted k roomId key)
    · obtain ⟨k, roomId, hc⟩ := hc
      refine ⟨k, roomId, List.mem_append_right _ ?_⟩
      rw [hc]
      exact List.mem_singleton_self _
    · have hun := Sys.uncounted hkey hu fun k roomId he => hc ⟨k, roomId, he⟩
      obtain ⟨k, roomId, hm⟩ := hI e (hun i e he)
      exact ⟨k, roomId, List.mem_append_left _ hm⟩

/-! ### Same room, same pseudonym -/

/-- The pseudonym that is used is that of the connection. -/
def Use.Reuses (info : AdmitInfo) : Use → Prop
  | stored _ r => r.ipHash = info.net.dailyHash
  | counted _ _ key => key = .newsess info.net.dailyHash ∨ key = .ipmsg info.net.dailyHash

section fits

variable {env : Env} {s t : Sys} {l : Label} {u : Use}

theorem CreatePc.saving_ipHash {p : CreatePc} {q : SaveReq} (h : p.saving = some q) :
    q.record.ipHash = p.ipHash := by
  cases p with
  | save room record token p =>
      cases p with
      | pending =>
          cases h
          rfl
      | _ => cases h
  | _ => cases h

/-- A use is made by an open function of an accepted connection, with its pseudonym. -/
theorem Core.use_reuses {c : Core} {th : Thread} (hH : Hashed env c) (hB : Born c)
    (h : c.use th = some u) : u.conn ∈ c.accepted ∧ u.Reuses (c.conn u.conn).info := by
  cases th with
  | handler k =>
      obtain ⟨x, hx, hu⟩ := Option.bind_eq_some_iff.mp h
      have hk : k ∈ c.accepted := by
        by_contra hk
        rw [hB.unborn k hk] at hx
        cases hx
      unfold Handler.use at hu
      split at hu
      · cases hu
        exact ⟨hk, Or.inl rfl⟩
      · obtain ⟨q, hq, rfl⟩ := Option.map_eq_some_iff.mp hu
        exact ⟨hk, (CreatePc.saving_ipHash hq).trans (hH.handler k _ _ hx)⟩
      · cases hu
        exact ⟨hk, Or.inr rfl⟩
      · cases hu
  | rollover k =>
      obtain ⟨p, hp, hu⟩ := Option.bind_eq_some_iff.mp h
      obtain ⟨q, hq, rfl⟩ := Option.map_eq_some_iff.mp hu
      have hk : k ∈ c.accepted := by
        by_contra hk
        rw [hB.unborn k hk] at hp
        cases hp
      exact ⟨hk, (CreatePc.saving_ipHash hq).trans (hH.rolling k p hp)⟩
  | _ => cases h

theorem Sys.uses_reuses (hH : Hashed env s.toCore) (hB : Born s.toCore) (h : s.uses l = some u) :
    u.conn ∈ s.accepted ∧ u.Reuses (s.conn u.conn).info := by
  unfold Sys.uses at h
  split at h
  · split at h
    · exact Core.use_reuses hH hB h
    · cases h
  · cases h

theorem Use.Fits.of_reuses (hd : (s.conn u.conn).info.Derived env)
    (hu : u.Reuses (s.conn u.conn).info) (hroom : u.roomId = (s.conn u.conn).info.roomId) :
    u.Fits env s := by
  have hp : (s.conn u.conn).info.net.dailyHash = s.pseudonym env u.conn u.roomId := by
    rw [hroom, Sys.pseudonym, ← hd]
  cases u with
  | stored k r => exact Eq.trans hu hp
  | counted k roomId key =>
      rcases hu with hu | hu
      · exact Or.inl (hu.trans (congrArg CounterKey.newsess hp))
      · exact Or.inr (hu.trans (congrArg CounterKey.ipmsg hp))

/-- A network has another pseudonym in every room. -/
theorem Env.dailyHash_inj {roomId roomId' net : String} (hinj : Function.Injective env.hmac)
    (h : (env.networkIdentity roomId net).dailyHash = (env.networkIdentity roomId' net).dailyHash) :
    roomId = roomId' := by
  have h := hinj h
  simpa using h

/-- **Exactly there.** If the keyed hash is injective, a use that a step makes is that of the
network in the room of the session if and only if its connection was admitted in that room. -/
theorem Use.fits_iff {C : Sys → Label → Prop} (hr : (system env).Reaches C s)
    (hinj : Function.Injective env.hmac) (h : s.uses l = some u) :
    u.Fits env s ↔ u.roomId = (s.conn u.conn).info.roomId := by
  have hH := hashed_of_reaches hr
  obtain ⟨hk, hu⟩ := Sys.uses_reuses hH (born_of_reaches hr) h
  have hd := hH.conn _ hk
  refine ⟨fun hf => ?_, Use.Fits.of_reuses hd hu⟩
  have hp : (s.conn u.conn).info.net.dailyHash = s.pseudonym env u.conn u.roomId := by
    cases u with
    | stored k r => exact (Eq.symm hu).trans hf
    | counted k roomId key =>
        rcases hu with hu | hu <;> rcases hf with hf | hf
        · exact CounterKey.newsess.inj (hu.symm.trans hf)
        · cases hu.symm.trans hf
        · cases hu.symm.trans hf
        · exact CounterKey.ipmsg.inj (hu.symm.trans hf)
  rw [hd] at hp
  exact (Env.dailyHash_inj hinj hp).symm

/-- What was used stays that of the network, for a connection keeps its network. -/
theorem Use.Fits.step (hB : Born s.toCore) (h : s.step env l = some t) (hk : u.conn ∈ s.accepted)
    (hf : u.Fits env s) : u.Fits env t := by
  have hinfo : (t.conn u.conn).info = (s.conn u.conn).info := (Sys.coreStep h).info hB hk
  have hp : ∀ roomId, t.pseudonym env u.conn roomId = s.pseudonym env u.conn roomId := by
    intro roomId
    rw [Sys.pseudonym, hinfo, Sys.pseudonym]
  cases u with
  | stored k r => exact Eq.trans hf (hp r.roomId).symm
  | counted k roomId key =>
      have hp : t.pseudonym env k roomId = s.pseudonym env k roomId := hp roomId
      rw [Use.Fits, hp]
      exact hf

end fits

/-- In a run in which every use is made for a session of the room of the admission, every use is
that of the network in the room of the session. -/
theorem fits_of_reaches {env : Env} {x : Sys × List Use}
    (h : (noted env).Reaches (fun x l => x.1.sameRoom l = true) x) :
    ∀ u ∈ x.2, u.conn ∈ x.1.accepted ∧ u.Fits env x.1 := by
  refine Machine.Reaches.invariant_of
    (J := fun x => (system env).Reaches (fun s l => s.sameRoom l = true) x.1)
    (I := fun x => ∀ u ∈ x.2, u.conn ∈ x.1.accepted ∧ u.Fits env x.1)
    (fun x hx => noted_fst (C := fun s l => s.sameRoom l = true) hx) ?_ ?_ h
  · rintro ⟨s, us⟩ ⟨-, rfl⟩ u hu
    cases hu
  · rintro ⟨s, us⟩ l ⟨t, us'⟩ hreach hI hl hs u hu
    obtain ⟨s', hs', heq⟩ := Option.map_eq_some_iff.mp hs
    obtain ⟨rfl, rfl⟩ := Prod.mk.inj heq
    have hB := born_of_reaches hreach
    have hfits : u.conn ∈ s.accepted ∧ u.Fits env s := by
      rcases List.mem_append.mp hu with hu | hu
      · exact hI u hu
      · have hu : s.uses l = some u := Option.mem_toList.mp hu
        have hroom : u.roomId = (s.conn u.conn).info.roomId := by
          have hl : s.sameRoom l = true := hl
          rw [Sys.sameRoom, hu] at hl
          exact of_decide_eq_true hl
        have hH := hashed_of_reaches hreach
        obtain ⟨hk, hre⟩ := Sys.uses_reuses hH hB hu
        exact ⟨hk, Use.Fits.of_reuses (hH.conn _ hk) hre hroom⟩
    exact ⟨(Sys.coreStep hs').mem_accepted hfits.1, hfits.2.step hB hs' hfits.1⟩

/-- **Pseudonyms.** In every run in which pseudonyms are used only for sessions of the room their
connection was admitted in: every pseudonym that was used for a session is that of the network in
the room of the session, every record that is stored or held carries one that `create` stored so,
and every counter of new sessions or of messages was counted so. -/
theorem pseudonyms_of_reaches {env : Env} {s : Sys} {uses : List Use}
    (h : (noted env).Reaches (fun x l => x.1.sameRoom l = true) (s, uses)) :
    (∀ u ∈ uses, u.Fits env s) ∧
    (∀ sid e, s.world.store.sess sid = some e →
      ∃ k, .stored k e.v.toSessionIdent ∈ uses ∧ e.v.ipHash = s.pseudonym env k e.v.roomId) ∧
    (∀ k r, (s.conn k).record = some r →
      ∃ j, .stored j r ∈ uses ∧ r.ipHash = s.pseudonym env j r.roomId) ∧
    ∀ key i e, key.ofSession = true → s.world.store.counters (key, i) = some e →
      ∃ k roomId, .counted k roomId key ∈ uses ∧
        (key = .newsess (s.pseudonym env k roomId) ∨ key = .ipmsg (s.pseudonym env k roomId)) := by
  have hfits := fun u hu => (fits_of_reaches h u hu).2
  have hm : Minted (Created uses) s.toCore :=
    minted_of_reaches (C := fun s l => s.sameRoom l = true) h
  refine ⟨hfits, fun sid e he => ?_, fun k r hr => ?_, fun key i e hkey he => ?_⟩
  · obtain ⟨k, hk⟩ := hm.sess sid e he
    exact ⟨k, hk, hfits _ hk⟩
  · obtain ⟨j, hj⟩ := hm.held k r hr
    exact ⟨j, hj, hfits _ hj⟩
  · obtain ⟨k, roomId, hk⟩ := counted_of_reaches h hkey he
    exact ⟨k, roomId, hk, hfits _ hk⟩

/-- A run of the theorem: a client joins at noon and sends a message. The new session is counted
and stored and the message is counted, all with the pseudonym of the day. -/
theorem pseudonyms_sent : ∃ s uses,
    (noted (Demo.env none)).Reaches (fun x l => x.1.sameRoom l = true) (s, uses) ∧
      uses.length = 3 ∧ (∀ u ∈ uses, u.Fits (Demo.env none) s) ∧
      ∃ e k, s.world.store.sess 0 = some e ∧
        e.v.ipHash = s.pseudonym (Demo.env none) k "2026-09-11" := by
  have hrun : ((noted (Demo.env none)).execs (fun x l => x.1.sameRoom l)
      (Sys.initial Demo.noon, []) (Demo.oneJoined ++ Demo.sent (Demo.conn 1) "hello")).any (fun x =>
        decide (x.2.length = 3) &&
          (x.1.world.store.sess 0).any (fun e => decide (e.v.roomId = "2026-09-11"))) = true := by
    decide +kernel
  obtain ⟨⟨s, uses⟩, hs, hP⟩ := (Option.any_eq_true _ _).mp hrun
  simp only [Bool.and_eq_true, decide_eq_true_eq] at hP
  obtain ⟨hlen, hsess⟩ := hP
  obtain ⟨e, he, hid⟩ := (Option.any_eq_true _ _).mp hsess
  have hreach : (noted (Demo.env none)).Reaches (fun x l => x.1.sameRoom l = true) (s, uses) :=
    Machine.reaches_of_execs (fun _ _ hc => hc) ⟨⟨Demo.noon, rfl⟩, rfl⟩ hs
  obtain ⟨hfits, hstored, -, -⟩ := pseudonyms_of_reaches hreach
  obtain ⟨k, -, hk⟩ := hstored 0 e he
  rw [of_decide_eq_true hid] at hk
  exact ⟨s, uses, hreach, hlen, hfits, e, k, he, hk⟩

/-- The record that was stored is of a session of the next day, and carries the pseudonym of the
day before. -/
def Use.outlives (env : Env) (s : Sys) : Use → Bool
  | stored k r =>
      decide (r.roomId = "2026-09-12" ∧ r.ipHash = s.pseudonym env k "2026-09-11" ∧
        r.ipHash ≠ s.pseudonym env k r.roomId ∧
        (s.world.store.sess r.sid).map (fun e => e.v.toSessionIdent) = some r)
  | counted _ _ _ => false

/-- The pseudonym of a day outlives it: a client joins at noon, and the session it is given at
midnight is stored with the pseudonym of the day before. -/
theorem pseudonyms_renewed : ∃ s uses, (noted (Demo.env none)).Reaches Free (s, uses) ∧
    ∃ k r, .stored k r ∈ uses ∧ r.roomId = "2026-09-12" ∧
      (s.world.store.sess r.sid).map (fun e => e.v.toSessionIdent) = some r ∧
      r.ipHash = s.pseudonym (Demo.env none) k "2026-09-11" ∧
      ¬ (Use.stored k r).Fits (Demo.env none) s := by
  have hrun : ((noted (Demo.env none)).execs (fun _ _ => true) (Sys.initial Demo.noon, [])
      (Demo.oneJoined ++ switchesRoom ++ cleansUp ++ renews (Demo.conn 1))).any (fun x =>
        x.2.any (Use.outlives (Demo.env none) x.1)) = true := by
    decide +kernel
  obtain ⟨⟨s, uses⟩, hs, hP⟩ := (Option.any_eq_true _ _).mp hrun
  obtain ⟨u, hu, hout⟩ := List.any_eq_true.mp hP
  have hreach : (noted (Demo.env none)).Reaches Free (s, uses) :=
    Machine.reaches_of_execs (fun _ _ _ => trivial) ⟨⟨Demo.noon, rfl⟩, rfl⟩ hs
  cases u with
  | stored k r =>
      obtain ⟨hroom, hold, hnew, hsess⟩ := of_decide_eq_true hout
      exact ⟨s, uses, hreach, k, r, hu, hroom, hsess, hold, hnew⟩
  | counted => cases hout

end RoomBackend
