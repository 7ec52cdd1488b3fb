import RoomBackend.Disclosure

/-! # Sessions are not taken over

The id of a session is drawn by one connection, by the `create` of its `join` or of its renewal.
Another connection comes to it only by a resume token that its client presents and that was linked
to the session. So if two connections hold one session, then such a token was presented on one of
the two (`sessions_apart`), on whatever instances they are. -/

namespace RoomBackend

open Async Day Lts

/-! ### Sessions of a connection -/

/-- The session `create` is about to make. -/
def CreatePc.sid : CreatePc → Sid
  | claim _ _ sid _ _ _ => sid
  | save _ record _ _ | link _ record _ _ _ => record.sid

/-- The session a `join` has got. -/
def Handler.sid : Handler → Option Sid
  | join (.create _ p) => some p.sid
  | join (.rejoin _ record _ _) | join (.block _ record _ _) => some record.sid
  | join (.history _ record _ _ _) => some record.sid
  | _ => none

/-- The connection holds the session, or is getting it. -/
inductive Conn.Has (x : Conn) (sid : Sid) : Prop
  | joining (h : x.handler.bind Handler.sid = some sid)
  | renewing {p : RolloverPc} (hp : x.rolling = some p) (h : p.create.sid = sid)
  | holding {r : SessionIdent} (hr : x.record = some r) (h : r.sid = sid)

section create

variable {env : Env} {d d' : ℕ} {p p' : CreatePc}

theorem CreatePc.sid_wait (h : p.resume env d = some (.wait p', d')) : p'.sid = p.sid := by
  cases p with
  | claim room input sid i candidate q =>
      cases q with
      | pending => cases h
      | rejected => cases h
      | fulfilled b =>
          cases b with
          | true =>
              obtain ⟨he, -⟩ := Prod.mk.inj (Option.some.inj h)
              obtain rfl := CreateRes.wait.inj he
              rfl
          | false =>
              unfold CreatePc.resume at h
              dsimp only at h
              split at h
              · obtain ⟨he, -⟩ := Prod.mk.inj (Option.some.inj h)
                obtain rfl := CreateRes.wait.inj he
                rfl
              · cases h
  | save room record token q =>
      cases q with
      | pending => cases h
      | _ =>
          obtain ⟨he, -⟩ := Prod.mk.inj (Option.some.inj h)
          obtain rfl := CreateRes.wait.inj he
          rfl
  | link room record token saved q =>
      cases q with
      | fulfilled a =>
          obtain ⟨he, -⟩ := Prod.mk.inj (Option.some.inj h)
          cases saved <;> cases he
      | _ => cases h

theorem CreatePc.sid_done {r : SessionRecord} {token : Token}
    (h : p.resume env d = some (.done r token, d')) : r.sid = p.sid := by
  cases p with
  | claim room input sid i candidate q =>
      cases q with
      | pending => cases h
      | rejected => cases h
      | fulfilled b =>
          cases b with
          | true => cases h
          | false =>
              unfold CreatePc.resume at h
              dsimp only at h
              split at h <;> cases h
  | save room record token' q => cases q <;> cases h
  | link room record token' saved q =>
      cases q with
      | fulfilled a =>
          obtain ⟨he, -⟩ := Prod.mk.inj (Option.some.inj h)
          cases saved with
          | true => rw [← (CreateRes.done.inj he).1]; rfl
          | false => cases he
      | _ => cases h

theorem CreatePc.sid_settle {now : ℤ} {k : ConnKey} {o : Outcome} {w w' : World}
    (h : p.settle now k o w = some (p', w')) : p'.sid = p.sid := by
  cases p with
  | _ =>
      obtain ⟨r, -, he⟩ := Option.map_eq_some_iff.mp h
      rw [← (Prod.mk.inj he).1]
      rfl

end create

/-! ### Stretches of a handler -/

section handlers

variable {env : Env} {c c₁ : Core} {k : ConnKey} {sid : Sid}

theorem Handler.sid_settle {h h' : Handler} {now : ℤ} {v : Bool} {n : ℕ} {info : AdmitInfo}
    {o : Outcome} {w w' : World} (hs : h.settle env now v k n info o w = some (h', w')) :
    h'.sid = h.sid := by
  cases h with
  | join p =>
      obtain ⟨⟨p', w₁⟩, hp, he⟩ := Option.map_eq_some_iff.mp hs
      obtain ⟨rfl, rfl⟩ := Prod.mk.inj he
      cases p with
      | create j q =>
          obtain ⟨⟨q', w₂⟩, hq, he⟩ := Option.map_eq_some_iff.mp hp
          obtain ⟨rfl, rfl⟩ := Prod.mk.inj he
          exact congrArg some (CreatePc.sid_settle hq)
      | _ =>
          obtain ⟨r, -, he⟩ := Option.map_eq_some_iff.mp hp
          rw [← (Prod.mk.inj he).1]
          rfl
  | _ =>
      obtain ⟨r, -, he⟩ := Option.map_eq_some_iff.mp hs
      rw [← (Prod.mk.inj he).1]
      rfl

/-- A `join` comes to a session that it finds by its token, or draws. -/
theorem Act.sid_from {up : Bool} {h h' : Option Handler} (ha : Act env k up c h c₁ h')
    (hs : h'.bind Handler.sid = some sid) : h.bind Handler.sid = some sid ∨
      (∃ j token r record, h = some (.join (.resume j token r)) ∧
        r.resume = some (.done (some record)) ∧ record.sid = sid) ∨
      sid = env.newSessionId c.draws ∧ c.draws < c₁.draws := by
  cases ha with
  | joinMove hp =>
      cases hp with
      | found hr => exact Or.inr (Or.inl ⟨_, _, _, _, rfl, hr, Option.some.inj hs⟩)
      | create => exact Or.inr (Or.inr ⟨(Option.some.inj hs).symm, Nat.lt_succ_self _⟩)
      | creating hp => exact Or.inl ((congrArg some (CreatePc.sid_wait hp)).symm.trans hs)
      | created hp => exact Or.inl ((congrArg some (CreatePc.sid_done hp)).symm.trans hs)
      | rejoined => exact Or.inl hs
      | _ => cases hs
  | joinEnter => exact Or.inl hs
  | _ => cases hs

/-- A handler that starts has no session yet. -/
theorem Act.sid_none {up : Bool} {h' : Option Handler} (ha : Act env k up c none c₁ h') :
    h'.bind Handler.sid = none := by
  cases ha with
  | _ => rfl

end handlers

/-! ### Steps -/

section steps

variable {env : Env} {up : ConnKey → Bool} {c c' : Core} {l : Label} {k : ConnKey} {sid : Sid}

/-- The `join` of the connection finds the session by its token. -/
def Core.Finds (c : Core) (l : Label) (k : ConnKey) (sid : Sid) : Prop :=
  ∃ j token r record, l = .resume (.handler k) ∧
    (c.conn k).handler = some (.join (.resume j token r)) ∧
    r.resume = some (.done (some record)) ∧ record.sid = sid

theorem CoreStep.joining_from (hs : CoreStep env up c l c')
    (h : (c'.conn k).handler.bind Handler.sid = some sid) :
    (c.conn k).Has sid ∨ c.Finds l k sid ∨
      l = .resume (.handler k) ∧ sid = env.newSessionId c.draws ∧ c.draws < c'.draws := by
  by_cases hact : l = .resume (.handler k)
  · subst hact
    cases hs with
    | same => exact Or.inl (.joining h)
    | act hh ha =>
        rw [Core.setHandler_conn] at h
        rcases ha.sid_from h with h | ⟨j, token, r, record, he, hr, hsid⟩ | h
        · exact Or.inl (.joining (hh ▸ h))
        · exact Or.inr (Or.inl ⟨j, token, r, record, rfl, hh.trans he, hr, hsid⟩)
        · exact Or.inr (Or.inr ⟨rfl, h⟩)
  · refine Or.inl ?_
    have hc := hs.conn k
    generalize c'.conn k = y at hc h
    cases hc with
    | act hl => exact absurd hl hact
    | handle hl hk hh ha => cases ha.sid_none.symm.trans h
    | settled hl hh hset => exact .joining (hh ▸ (Handler.sid_settle hset).symm.trans h)
    | accepted => cases h
    | _ => exact .joining h

theorem CoreStep.renewing_from (hs : CoreStep env up c l c')
    (hl : ∀ i, l ≠ .resume (.reset i)) {p : RolloverPc} (hp : (c'.conn k).rolling = some p) :
    (c.conn k).Has p.create.sid := by
  have hc := hs.conn k
  generalize c'.conn k = y at hc hp
  cases hc with
  | act hl' hh ha => exact .renewing (ha.kept.rolling.symm.trans hp) rfl
  | handle hl' hk hh ha =>
      have hr := ha.kept.rolling
      rw [Core.take_conn] at hr
      exact .renewing (hr.symm.trans hp) rfl
  | begins hd hj hcl hi hl' => exact absurd hl'.choose_spec (hl _)
  | rolling hl' hq hset =>
      cases hp
      obtain ⟨x, hx, he⟩ := Option.map_eq_some_iff.mp hset
      cases he
      exact .renewing hq (CreatePc.sid_settle hx).symm
  | creating hq hr =>
      cases hp
      exact .renewing hq (CreatePc.sid_wait hr).symm
  | rolled => cases hp
  | renewed => cases hp
  | accepted => cases hp
  | _ => exact .renewing hp rfl

theorem CoreStep.holding_from (hs : CoreStep env up c l c') (hS : Seats c) {r : SessionIdent}
    (hr : (c'.conn k).record = some r) : (c.conn k).Has r.sid := by
  have hx := hs.shift hS k
  replace hr : (c'.berth k).record = some r := hr
  generalize c'.berth k = b at hx hr
  cases hx with
  | accept => cases hr
  | enter hl he =>
      cases hr
      obtain ⟨j, token, p, hh⟩ := Core.entering_handler he
      exact .joining (hh ▸ rfl)
  | renewed hl hp hres hc =>
      cases hr
      exact .renewing hp (CreatePc.sid_done hres).symm
  | _ => exact .holding hr rfl

/-- A connection comes to a session that it finds, or draws. -/
theorem CoreStep.has_from (hs : CoreStep env up c l c') (hS : Seats c)
    (hl : ∀ i, l ≠ .resume (.reset i)) (h : (c'.conn k).Has sid) :
    (c.conn k).Has sid ∨ c.Finds l k sid ∨
      l = .resume (.handler k) ∧ sid = env.newSessionId c.draws ∧ c.draws < c'.draws := by
  cases h with
  | joining h => exact hs.joining_from h
  | renewing hp h => exact Or.inl (h ▸ hs.renewing_from hl hp)
  | holding hr h => exact Or.inl (h ▸ hs.holding_from hS hr)

end steps

/-! ### Custody of sessions -/

/-- A session that a connection has was drawn by it, or a token of it was presented there. -/
def Untaken (env : Env) (c : Core) (given : ConnKey → Sid → Prop) : Prop :=
  Custody.Sound env.newSessionId c.draws (fun k => (c.conn k).Has) given

section custody

variable {env : Env} {up : ConnKey → Bool} {c c' : Core} {l : Label} {i : InstanceId}
  {given given' : ConnKey → Sid → Prop}

theorem Untaken.mono (h : Untaken env c given) (hg : ∀ k sid, given k sid → given' k sid) :
    Untaken env c given' :=
  Custody.Sound.step env.newSessionId_injective h (le_refl _) hg none fun _ _ hx => Or.inl hx

theorem Untaken.congr (h : Untaken env c given) (hc : c'.conn = c.conn) (hd : c'.draws = c.draws) :
    Untaken env c' given := by
  unfold Untaken
  rw [hc, hd]
  exact h

/-- Renewals that begin draw the ids of their sessions one after another. -/
theorem Untaken.begins {next : DailyRoom} {ns : List ℕ} (hb : Begins env i next c ns c')
    (h : Untaken env c given) : Untaken env c' given := by
  induction hb with
  | nil c => exact h
  | @cons c c' n ns q hb ih =>
      refine ih ?_
      rcases Core.rollover_cases env c ⟨i, n⟩ next q with hc | ⟨-, -, input, -, hc⟩
      · rwa [hc]
      · rw [hc]
        refine Custody.Sound.step env.newSessionId_injective h (Nat.le_succ _) (fun _ _ hg => hg)
          (some ⟨i, n⟩) fun k sid hk => ?_
        by_cases he : k = ⟨i, n⟩
        · subst he
          rw [Core.setRolling, Core.updConn_conn] at hk
          cases hk with
          | joining hh => exact Or.inl (.joining hh)
          | renewing hp hs =>
              obtain rfl := Option.some.inj hp
              exact Or.inr (Or.inr ⟨rfl, hs.symm, Nat.lt_succ_self _⟩)
          | holding hr hs => exact Or.inl (.holding hr hs)
        · rw [Core.setRolling, Core.updConn_conn_ne _ he] at hk
          exact Or.inl hk

theorem Untaken.batches {prev next : DailyRoom} {rest : List ℕ}
    (hb : Batches env i prev next c rest c') (h : Untaken env c given) : Untaken env c' given := by
  cases hb with
  | ended => exact h.congr rfl rfl
  | batch hne hb => exact (Untaken.begins hb h).congr rfl rfl

theorem Untaken.reset (hs : CoreStep env up c (.resume (.reset i)) c') (h : Untaken env c given) :
    Untaken env c' given := by
  cases hs with
  | same => exact h
  | reset hp hm =>
      cases hm with
      | listed hq hb => exact h.batches hb
      | next hb => exact h.batches hb
      | _ => exact h.congr rfl rfl

/-- The connection whose `join` goes on, the only one that can draw a session then. -/
def Label.joiner : Label → Option ConnKey
  | .resume (.handler k) => some k
  | _ => none

theorem Untaken.step (hs : CoreStep env up c l c') (hS : Seats c) (h : Untaken env c given)
    (hg : ∀ k sid, given k sid → given' k sid) (hf : ∀ k sid, c.Finds l k sid → given' k sid) :
    Untaken env c' given' := by
  by_cases hl : ∃ i, l = .resume (.reset i)
  · obtain ⟨i, rfl⟩ := hl
    exact (h.reset hs).mono hg
  · push Not at hl
    refine Custody.Sound.step env.newSessionId_injective h hs.draws_le hg l.joiner
      fun k sid hk => ?_
    rcases hs.has_from hS hl hk with hk | hk | ⟨rfl, hd⟩
    · exact Or.inl hk
    · exact Or.inr (Or.inl (hf k sid hk))
    · exact Or.inr (Or.inr ⟨rfl, hd⟩)

end custody

/-! ### Runs -/

/-- The token a `join` asks the store for. -/
def Handler.asked : Handler → Option Token
  | join (.resume _ token _) => some token
  | _ => none

/-- A token that is asked for was presented; a session that is not one's own was asked for. -/
structure Guarded (env : Env) (s : Sys) (g : ConnKey → List Token) : Prop where
  asked : ∀ k token, (s.conn k).handler.bind Handler.asked = some token → token ∈ g k
  untaken : Untaken env s.toCore fun k sid => ∃ token ∈ g k, s.world.Links token sid

section runs

variable {env : Env} {s t : Sys} {l : Label} {g : ConnKey → List Token} {k : ConnKey}
  {token : Token} {sid : Sid}

theorem Handler.token_of_asked {h : Handler} (hh : h.asked = some token) :
    h.token = some token := by
  unfold asked at hh
  split at hh
  · exact hh
  · cases hh

theorem Handler.asked_settle {h h' : Handler} {now : ℤ} {v : Bool} {n : ℕ} {info : AdmitInfo}
    {o : Outcome} {w w' : World} (hs : h.settle env now v k n info o w = some (h', w')) :
    h'.asked = h.asked := by
  cases h with
  | join p =>
      obtain ⟨⟨p', w₁⟩, hp, he⟩ := Option.map_eq_some_iff.mp hs
      obtain ⟨rfl, rfl⟩ := Prod.mk.inj he
      cases p with
      | _ =>
          obtain ⟨r, -, he⟩ := Option.map_eq_some_iff.mp hp
          rw [← (Prod.mk.inj he).1]
          rfl
  | _ =>
      obtain ⟨r, -, he⟩ := Option.map_eq_some_iff.mp hs
      rw [← (Prod.mk.inj he).1]
      rfl

theorem Act.asked_from {up : Bool} {c c₁ : Core} {h h' : Option Handler}
    (ha : Act env k up c h c₁ h') (hh : h ≠ none)
    (hs : h'.bind Handler.asked = some token) : h.bind Handler.asked = some token := by
  cases ha with
  | joinStart => exact absurd rfl hh
  | joinMove hp =>
      cases hp with
      | resume => exact hs
      | _ => cases hs
  | _ => cases hs

/-- A `join` asks for a token that its frame presents. -/
theorem Sys.asked_step (h : s.step env l = some t)
    (ht : (t.conn k).handler.bind Handler.asked = some token) :
    (s.conn k).handler.bind Handler.asked = some token ∨
      l = .handle k ∧ s.presents k = some token := by
  have hs := coreStep h
  by_cases hhandle : l = .handle k
  · subst hhandle
    refine Or.inr ⟨rfl, ?_⟩
    obtain ⟨x, hx, hask⟩ := Option.bind_eq_some_iff.mp ht
    have htoken : (t.conn k).handler.bind Handler.token = some token := by
      rw [hx]
      exact Handler.token_of_asked hask
    rcases Sys.handler_token h htoken with hold | ⟨-, hp⟩ | ⟨hl, -⟩
    · obtain ⟨-, hn⟩ := Option.ite_none_right_eq_some.mp h
      unfold handleNext at hn
      split at hn
      · rename_i hh hq
        rw [hh] at hold
        cases hold
      · cases hn
    · exact hp
    · cases hl
  refine Or.inl ?_
  by_cases hact : l = .resume (.handler k)
  · subst hact
    generalize t.toCore = c' at hs ht
    cases hs with
    | same => exact ht
    | act hh ha =>
        rw [Core.setHandler_conn] at ht
        rw [hh]
        exact ha.asked_from (Option.some_ne_none _) ht
  · have hc := hs.conn k
    generalize t.conn k = y at hc ht
    cases hc with
    | act hl => exact absurd hl hact
    | handle hl => exact absurd hl hhandle
    | settled hl hh hset =>
        rw [hh]
        exact (Handler.asked_settle hset).symm.trans ht
    | accepted => cases ht
    | _ => exact ht

/-- What a `join` finds by its token is a session the token was linked to. -/
theorem Core.Finds.links {c : Core} (hS : Sourced c) (h : c.Finds l k sid) :
    ∃ token, (c.conn k).handler.bind Handler.asked = some token ∧ c.world.Links token sid := by
  obtain ⟨j, token, r, record, -, hh, hr, rfl⟩ := h
  refine ⟨token, by rw [hh]; rfl, ?_⟩
  have hsource : r.Sourced c.world token := hS.handler k _ hh
  cases r with
  | resolve room token' p =>
      obtain ⟨x, -, he⟩ := Option.map_eq_some_iff.mp hr
      cases x with
      | none => cases he
      | some sid => cases he
  | load room sid p =>
      obtain ⟨x, hx, he⟩ := Option.map_eq_some_iff.mp hr
      have hrec : x = some record := by
        have := ResumeRes.done.inj he
        exact (Option.filter_eq_some_iff.mp this).1
      subst hrec
      cases p with
      | pending => cases hx
      | rejected => cases hx
      | fulfilled y =>
          obtain rfl := Option.some.inj hx
          rw [hsource.2 record rfl]
          exact hsource.1

theorem Guarded.step (hS : Seats s.toCore) (hSource : Sourced s.toCore)
    (h : s.step env l = some t) (hI : Guarded env s g) : Guarded env t (s.hearing l g) := by
  have hs := Sys.coreStep h
  refine ⟨fun k token ht => ?_, hI.untaken.step hs hS ?_ ?_⟩
  · rcases Sys.asked_step h ht with hold | ⟨rfl, hp⟩
    · exact Sys.hearing_mono (hI.asked k token hold)
    · exact Sys.mem_hearing hp
  · rintro k sid ⟨token, htoken, hlink⟩
    exact ⟨token, Sys.hearing_mono htoken, hlink.mono hs.journal⟩
  · intro k sid hf
    obtain ⟨token, hask, hlink⟩ := hf.links hSource
    exact ⟨token, Sys.hearing_mono (hI.asked k token hask), hlink.mono hs.journal⟩

theorem guarded_of_reaches {D : Sys × (ConnKey → List Token) → Label → Prop}
    {x : Sys × (ConnKey → List Token)} (h : (hearing env).Reaches D x) : Guarded env x.1 x.2 := by
  refine Machine.Reaches.beside (I := Guarded env) ?_ (fun s g l t hs ht hI => ?_) h
  · rintro s ⟨t, rfl⟩
    refine ⟨fun k token ht => ?_, fun k sid hk => ?_⟩
    · cases ht
    · cases hk with
      | joining h => cases h
      | renewing hp => cases hp
      | holding hr => cases hr
  · exact hI.step (seats_of_reaches hs) (sourced_of_reaches hs) ht

/-- **Sessions are not taken over.** The id of the session that a connection holds was drawn by the
server, or a token that was linked to this session was presented on the connection; and if two
connections hold one session, such a token was presented on one of them. -/
theorem sessions_apart {D : Sys × (ConnKey → List Token) → Label → Prop}
    {x : Sys × (ConnKey → List Token)} (h : (hearing env).Reaches D x) {r : SessionIdent}
    (hr : (x.1.conn k).record = some r) :
    ((∃ token ∈ x.2 k, x.1.world.Links token r.sid) ∨
        ∃ d < x.1.draws, r.sid = env.newSessionId d) ∧
      ∀ j, j ≠ k → ∀ r', (x.1.conn j).record = some r' → r'.sid = r.sid →
        ∃ token, x.1.world.Links token r.sid ∧ (token ∈ x.2 j ∨ token ∈ x.2 k) := by
  have hI := (guarded_of_reaches h).untaken
  refine ⟨?_, fun j hj r' hr' he => ?_⟩
  · exact (hI k r.sid (.holding hr rfl)).imp_right And.left
  · rcases hI.shared hj (.holding hr rfl) (.holding hr' he) with ⟨token, hg, hl⟩ | ⟨token, hg, hl⟩
    · exact ⟨token, hl, Or.inl hg⟩
    · exact ⟨token, hl, Or.inr hg⟩

end runs

/-- A run of the theorem: two connections hold one session, and a token of it was presented. -/
theorem sessions_apart_resumed : ∃ (x : Sys × (ConnKey → List Token)) (r r' : SessionIdent),
    (hearing (Demo.env none)).Reaches Free x ∧
    (x.1.conn (Demo.conn 1)).record = some r ∧ (x.1.conn (Demo.conn 2)).record = some r' ∧
    r'.sid = r.sid ∧ ∃ token, x.1.world.Links token r.sid ∧
      (token ∈ x.2 (Demo.conn 2) ∨ token ∈ x.2 (Demo.conn 1)) := by
  have hx : ((hearing (Demo.env none)).execs (fun _ _ => true)
      (Sys.initial Demo.noon, fun _ => []) Demo.presented).any
      (fun x => (x.1.conn (Demo.conn 1)).record.any fun r =>
        (x.1.conn (Demo.conn 2)).record.any fun r' => decide (r'.sid = r.sid)) = true := by
    decide +kernel
  obtain ⟨x, hs, hP⟩ := (Option.any_eq_true _ _).mp hx
  obtain ⟨r, hr, hP⟩ := (Option.any_eq_true _ _).mp hP
  obtain ⟨r', hr', he⟩ := (Option.any_eq_true _ _).mp hP
  have hreach : (hearing (Demo.env none)).Reaches Free x :=
    Machine.reaches_of_execs (fun _ _ _ => trivial) ⟨⟨Demo.noon, rfl⟩, rfl⟩ hs
  exact ⟨x, r, r', hreach, hr, hr', of_decide_eq_true he,
    (sessions_apart hreach hr).2 _ (by decide) r' hr' (of_decide_eq_true he)⟩

end RoomBackend
