import RoomBackend.Custody
import RoomBackend.Frames
import RoomBackend.Lifetimes
import RoomBackend.Provenance

/-! # Resume tokens are not disclosed

A resume token is drawn by the `create` of one connection, or presented by a client in a `join`.
From there it goes to the handler or the rollover of this connection, and to a frame on its socket:
the store keeps a hash of it. So a connection is told a token of another one only after one of the
two has presented it itself. -/

namespace RoomBackend

open Async Day Lts

/-! ### Tokens -/

def CreatePc.token : CreatePc → Option Token
  | .claim _ _ _ _ _ _ => none
  | .save _ _ token _ => some token
  | .link _ _ token _ _ => some token

/-- The token a `join` will announce. -/
def JoinPc.token : JoinPc → Option Token
  | .resume _ token _ => some token
  | .rejoin _ _ token _ => some token
  | .newsess _ _ _ => none
  | .create _ c => c.token
  | .block _ _ token _ => some token
  | .history _ _ token _ _ => some token

def Handler.token : Handler → Option Token
  | .join p => p.token
  | _ => none

def ServerEvent.token : ServerEvent → Option Token
  | .welcome _ _ _ _ _ _ resume _ => some resume
  | .reset _ _ _ resume => some resume
  | _ => none

/-- The token is on the way to the client of `k`, or was sent to it. -/
inductive Sys.Has (s : Sys) (k : ConnKey) (token : Token) : Prop
  | joining (h : (s.conn k).handler.bind Handler.token = some token)
  | renewing {p : RolloverPc} (hp : (s.conn k).rolling = some p) (h : p.create.token = some token)
  | told {e : ServerEvent} (he : e ∈ (s.side k).socket.sent) (h : e.token = some token)

/-- The token the next frame of a connection presents. -/
def Sys.presents (s : Sys) (k : ConnKey) : Option Token :=
  match (s.side k).queue with
  | .event (.join resume _) :: _ => resume
  | _ => none

/-- The tokens that were presented on each connection. -/
def Sys.hearing (s : Sys) (l : Label) (g : ConnKey → List Token) : ConnKey → List Token :=
  match l with
  | .handle k => Function.update g k ((s.presents k).toList ++ g k)
  | _ => g

/-- The system, and the tokens that clients have presented. -/
def hearing (env : Env) : Machine (Sys × (ConnKey → List Token)) Label :=
  (system env).beside (fun _ => []) fun s l _ g => s.hearing l g

theorem ServerEvent.token_of_private {e : ServerEvent} (h : e.shared = false) : e.token = none := by
  cases e with
  | welcome => cases h
  | reset => cases h
  | _ => rfl

/-! ### Stretches -/

section resume

variable {env : Env} {token : Token}

/-- `create` keeps its token, or draws it. -/
theorem CreatePc.token_wait {p p' : CreatePc} {d d' : ℕ}
    (h : p.resume env d = some (.wait p', d')) (ht : p'.token = some token) :
    p.token = some token ∨ token = env.newResumeToken d ∧ d < d' := by
  cases p with
  | claim room input sid i candidate p =>
      cases p with
      | pending => cases h
      | rejected => cases h
      | fulfilled b =>
          cases b with
          | true =>
              obtain ⟨he, rfl⟩ := Prod.mk.inj (Option.some.inj h)
              obtain rfl := CreateRes.wait.inj he
              exact Or.inr ⟨(Option.some.inj ht).symm, Nat.lt_succ_self d⟩
          | false =>
              unfold CreatePc.resume at h
              dsimp only at h
              split at h
              · obtain ⟨he, -⟩ := Prod.mk.inj (Option.some.inj h)
                obtain rfl := CreateRes.wait.inj he
                cases ht
              · cases h
  | save room record token' p =>
      cases p with
      | pending => cases h
      | _ =>
          obtain ⟨he, -⟩ := Prod.mk.inj (Option.some.inj h)
          obtain rfl := CreateRes.wait.inj he
          exact Or.inl ht
  | link room record token' saved p =>
      cases p with
      | fulfilled a =>
          obtain ⟨he, -⟩ := Prod.mk.inj (Option.some.inj h)
          cases saved <;> cases he
      | _ => cases h

theorem CreatePc.token_done {p : CreatePc} {r : SessionRecord} {d d' : ℕ}
    (h : p.resume env d = some (.done r token, d')) : p.token = some token := by
  cases p with
  | claim room input sid i candidate p =>
      cases p with
      | pending => cases h
      | rejected => cases h
      | fulfilled b =>
          cases b with
          | true => cases h
          | false =>
              unfold CreatePc.resume at h
              dsimp only at h
              split at h <;> cases h
  | save room record token' p => cases p <;> cases h
  | link room record token' saved p =>
      cases p with
      | fulfilled a =>
          obtain ⟨he, -⟩ := Prod.mk.inj (Option.some.inj h)
          cases saved with
          | true => exact congrArg some (CreateRes.done.inj he).2
          | false => cases he
      | _ => cases h

theorem CreatePc.token_settle {p p' : CreatePc} {now : ℤ} {k : ConnKey} {o : Outcome}
    {w w' : World} (h : p.settle now k o w = some (p', w')) : p'.token = p.token := by
  cases p with
  | claim =>
      obtain ⟨r, -, he⟩ := Option.map_eq_some_iff.mp h
      rw [← (Prod.mk.inj he).1]
      rfl
  | save =>
      obtain ⟨r, -, he⟩ := Option.map_eq_some_iff.mp h
      rw [← (Prod.mk.inj he).1]
      rfl
  | link =>
      obtain ⟨r, -, he⟩ := Option.map_eq_some_iff.mp h
      rw [← (Prod.mk.inj he).1]
      rfl

theorem JoinPc.token_settle {p p' : JoinPc} {now : ℤ} {k : ConnKey} {info : AdmitInfo}
    {o : Outcome} {w w' : World} (h : p.settle env now k info o w = some (p', w')) :
    p'.token = p.token := by
  cases p with
  | create j c =>
      obtain ⟨⟨c', w₁⟩, hc, he⟩ := Option.map_eq_some_iff.mp h
      obtain ⟨rfl, rfl⟩ := Prod.mk.inj he
      exact CreatePc.token_settle hc
  | _ =>
      obtain ⟨r, -, he⟩ := Option.map_eq_some_iff.mp h
      rw [← (Prod.mk.inj he).1]
      rfl

theorem Handler.token_settle {h h' : Handler} {now : ℤ} {v : Bool} {k : ConnKey} {n : ℕ}
    {info : AdmitInfo} {o : Outcome} {w w' : World}
    (hs : h.settle env now v k n info o w = some (h', w')) : h'.token = h.token := by
  cases h with
  | join p =>
      obtain ⟨⟨p', w₁⟩, hp, he⟩ := Option.map_eq_some_iff.mp hs
      obtain ⟨rfl, rfl⟩ := Prod.mk.inj he
      exact JoinPc.token_settle hp
  | _ =>
      obtain ⟨r, -, he⟩ := Option.map_eq_some_iff.mp hs
      rw [← (Prod.mk.inj he).1]
      rfl

/-- A `join` goes on with its token, or with one its `create` has just drawn. -/
theorem JoinMove.token_from {c : Core} {k : ConnKey} {p p' : JoinPc} {d : ℕ}
    (h : JoinMove env c k p p' d) (ht : p'.token = some token) :
    p.token = some token ∨ token = env.newResumeToken c.draws ∧ c.draws < d := by
  cases h with
  | resume => exact Or.inl ht
  | unknown => cases ht
  | found => exact Or.inl ht
  | create => cases ht
  | creating hp => exact CreatePc.token_wait hp ht
  | created hp => exact Or.inl ((CreatePc.token_done hp).trans ht)
  | rejoined => exact Or.inl ht
  | retryCreated => cases ht
  | retryRejoined => cases ht

end resume

/-! ### Steps -/

section step

variable {env : Env} {s t : Sys} {l : Label} {k : ConnKey} {token : Token}

theorem Core.token_suspend (c : Core) (k : ConnKey) (x : Handler) :
    ((c.setHandler k (some x)).conn k).handler.bind Handler.token = x.token := by
  rw [Core.setHandler_conn]
  rfl

theorem Sys.token_finish (s : Sys) (k : ConnKey) :
    ((s.finish k).conn k).handler.bind Handler.token = none := by
  rw [show (s.finish k).conn k = _ from Core.setHandler_conn ..]
  rfl

theorem Sys.token_suspend (s : Sys) (k : ConnKey) (x : Handler) :
    ((s.suspend k x).conn k).handler.bind Handler.token = x.token := s.toCore.token_suspend k x

theorem Sys.token_decided (s : Sys) (e : SendEvent) (reply : ServerEvent) :
    ((s.decided k e reply).conn k).handler.bind Handler.token = none := token_suspend s k _

theorem Sys.token_decideRate {l : SendLocals}
    (h : ((s.decideRate env k l).conn k).handler.bind Handler.token = some token) : False := by
  unfold decideRate decideEscalate decided at h
  dsimp only at h
  split_ifs at h <;> rw [token_suspend] at h <;> cases h

theorem Sys.token_decideSend {e : SendEvent} {r : SessionIdent}
    (h : ((s.decideSend env k e r).conn k).handler.bind Handler.token = some token) : False := by
  unfold decideSend at h
  dsimp only at h
  split_ifs at h <;> try cases (token_decided _ e _).symm.trans h
  split at h
  · cases (token_decided _ e _).symm.trans h
  · exact token_decideRate h

/-- A handler that starts has the token its frame presents. -/
theorem Sys.token_handle {raw : Raw}
    (h : ((s.handle env k raw).conn k).handler.bind Handler.token = some token) :
    ∃ verification, raw = .event (.join (some token) verification) := by
  have finished : ∀ {u : Sys}, ((u.finish k).conn k).handler.bind Handler.token = some token →
      False := by
    intro u hu
    cases (token_finish u k).symm.trans hu
  unfold handle at h
  split at h
  · exact (finished h).elim
  cases raw with
  | event e =>
      cases e with
      | join resume verification =>
          refine ⟨verification, ?_⟩
          unfold onCore Core.join Core.joinAttempt at h
          dsimp only at h
          split at h
          · exact (finished h).elim
          · cases resume with
            | none => cases (s.toCore.token_suspend k _).symm.trans h
            | some token' =>
                obtain rfl := Option.some.inj ((s.toCore.token_suspend k _).symm.trans h)
                rfl
      | send e =>
          exfalso
          dsimp only at h
          unfold handleSend at h
          dsimp only at h
          split at h
          · exact finished h
          · split at h
            · exact finished h
            · split at h
              · exact finished h
              · exact token_decideSend h
      | challengeResponse answer =>
          exfalso
          dsimp only at h
          unfold challengeResponse at h
          dsimp only at h
          split at h
          · exact finished h
          · split_ifs at h
            · exact finished h
            · exact finished h
            · cases (token_suspend _ k _).symm.trans h
      | ping t => exact (finished h).elim
      | report id reason =>
          exfalso
          dsimp only at h
          unfold report at h
          split at h
          · exact finished h
          · cases (token_suspend _ k _).symm.trans h
  | _ => exact (finished h).elim

/-- A handler goes on with its token, or with one it has just drawn. -/
theorem Act.token_from {up : Bool} {c c₁ : Core} {h h' : Option Handler}
    (ha : Act env k up c h c₁ h') (hh : h ≠ none) (ht : h'.bind Handler.token = some token) :
    h.bind Handler.token = some token ∨ token = env.newResumeToken c.draws ∧ c.draws < c₁.draws := by
  cases ha with
  | joinStart => exact absurd rfl hh
  | joinMove hp => exact hp.token_from ht
  | joinEnter => exact Or.inl ht
  | _ => cases ht

theorem Sys.handler_token (h : s.step env l = some t)
    (ht : (t.conn k).handler.bind Handler.token = some token) :
    (s.conn k).handler.bind Handler.token = some token ∨
      (l = .handle k ∧ s.presents k = some token) ∨
        l = .resume (.handler k) ∧ token = env.newResumeToken s.draws ∧ s.draws < t.draws := by
  have hs := coreStep h
  by_cases hact : l = .resume (.handler k)
  · subst hact
    generalize t.toCore = c' at hs ht ⊢
    cases hs with
    | same => exact Or.inl ht
    | act hh ha =>
        rw [Core.setHandler_conn] at ht
        rw [hh]
        exact (ha.token_from (Option.some_ne_none _) ht).imp_right fun h => Or.inr ⟨rfl, h⟩
  by_cases hhandle : l = .handle k
  · subst hhandle
    refine Or.inr (Or.inl ⟨rfl, ?_⟩)
    obtain ⟨-, hn⟩ := Option.ite_none_right_eq_some.mp h
    unfold handleNext at hn
    split at hn
    · rename_i raw rest hh hq
      cases hn
      obtain ⟨verification, rfl⟩ := token_handle ht
      unfold presents
      rw [hq]
    · cases hn
  refine Or.inl ?_
  have hc := hs.conn k
  generalize t.conn k = y at hc ht
  cases hc with
  | act hl => exact absurd hl hact
  | handle hl => exact absurd hl hhandle
  | settled hl hh hset =>
      rw [hh]
      exact (Handler.token_settle hset).symm.trans ht
  | accepted => cases ht
  | _ => exact ht

/-- Where a renewal under way comes from. -/
inductive Renews (env : Env) (c : Core) (l : Label) (k : ConnKey) (c' : Core) (q : RolloverPc) :
    Prop
  | same (h : (c.conn k).rolling = some q)
  | begun (h : q.create.token = none)
  | settled {p : RolloverPc} (hp : (c.conn k).rolling = some p)
      (h : q.create.token = p.create.token)
  | goes {p : RolloverPc} (hl : l = .resume (.rollover k)) (hp : (c.conn k).rolling = some p)
      (h : p.create.resume env c.draws = some (.wait q.create, c'.draws))

theorem CoreStep.renews {up : ConnKey → Bool} {c c' : Core} (h : CoreStep env up c l c')
    {q : RolloverPc} (hq : (c'.conn k).rolling = some q) : Renews env c l k c' q := by
  have kept : (c'.conn k).rolling = (c.conn k).rolling → Renews env c l k c' q :=
    fun he => Renews.same (he.symm.trans hq)
  have batches : ∀ {i : InstanceId} {prev next : DailyRoom} {rest : List ℕ},
      Batches env i prev next c rest c' → Renews env c l k c' q := by
    intro i prev next rest hb
    cases hb with
    | ended => exact kept rfl
    | batch hne hb =>
        rcases hb.conn k with he | ⟨-, -, -, -, d, input, -, he⟩
        · exact kept (congrArg Conn.rolling he)
        · obtain rfl := Option.some.inj ((congrArg Conn.rolling he).symm.trans hq)
          exact Renews.begun rfl
  cases h with
  | @act j h c₁ h' hh ha =>
      by_cases hk : k = j
      · subst hk
        rw [Core.setHandler_conn] at kept
        exact kept ha.kept.rolling
      · refine kept (congrArg Conn.rolling ?_)
        rw [Core.setHandler_conn_ne _ hk]
        exact ha.conn_ne hk
  | @handle j c₁ h' hacc hh ha =>
      by_cases hk : k = j
      · subst hk
        rw [Core.setHandler_conn] at kept
        have hr := ha.kept.rolling
        rw [Core.take_conn] at hr
        exact kept hr
      · refine kept (congrArg Conn.rolling ?_)
        rw [Core.setHandler_conn_ne _ hk]
        exact (ha.conn_ne hk).trans (Function.update_of_ne hk _ _)
  | @rollover j p prev c' hp hprev hm =>
      by_cases hk : k = j
      · subst hk
        cases hm with
        | wait hr =>
            rw [Core.setRolling, Core.updConn_conn] at hq
            obtain rfl := Option.some.inj hq
            exact Renews.goes rfl hp hr
        | enter hr hc =>
            rw [Core.rolloverEnter_conn, Function.update_self] at hq
            cases hq
        | _ =>
            rw [Core.setRolling, Core.updConn_conn] at hq
            cases hq
      · refine kept (congrArg Conn.rolling ?_)
        cases hm with
        | enter hr hc =>
            rw [Core.rolloverEnter_conn]
            exact Function.update_of_ne hk _ _
        | _ => exact Function.update_of_ne hk _ _
  | reset hp hm =>
      cases hm with
      | listed hp hb => exact batches hb
      | next hb => exact batches hb
      | _ => exact kept rfl
  | @settle th o v c' h =>
      cases th with
      | chore => cases h
      | handler j =>
          obtain ⟨h₀, hh, h⟩ := Option.bind_eq_some_iff.mp h
          obtain ⟨r, hr, rfl⟩ := Option.map_eq_some_iff.mp h
          refine kept ?_
          by_cases hk : k = j
          · subst hk
            rw [Core.suspend, Core.setHandler_conn]
          · rw [Core.suspend, Core.setHandler_conn_ne _ hk]
      | rollover j =>
          obtain ⟨p, hp, h⟩ := Option.bind_eq_some_iff.mp h
          obtain ⟨r, hr, rfl⟩ := Option.map_eq_some_iff.mp h
          by_cases hk : k = j
          · subst hk
            rw [Core.setRolling, Core.updConn_conn] at hq
            obtain rfl := Option.some.inj hq
            obtain ⟨c₁, hc₁, rfl⟩ := Option.map_eq_some_iff.mp hr
            exact Renews.settled hp (CreatePc.token_settle hc₁)
          · exact kept (congrArg Conn.rolling (Function.update_of_ne hk _ _))
      | _ =>
          obtain ⟨x, -, h⟩ := Option.bind_eq_some_iff.mp h
          obtain ⟨r, -, rfl⟩ := Option.map_eq_some_iff.mp h
          exact kept rfl
  | @accept n u hu hpc hd =>
      by_cases hk : k = ⟨u.inst, (c.srv u.inst).seq + 1⟩
      · subst hk
        rw [show ((c.setUpgrade n { u with pc := .accepted }).accept u.inst u.info).conn
          ⟨u.inst, (c.srv u.inst).seq + 1⟩ = Conn.new u.info from Function.update_self ..] at hq
        cases hq
      · exact kept (congrArg Conn.rolling (Function.update_of_ne hk _ _))
  | @close j hc =>
      by_cases hk : k = j
      · subst hk
        rw [show ((c.shut k).onClosed k).conn k = { c.conn k with closed := true } from
          Function.update_self ..] at kept
        exact kept rfl
      · exact kept (congrArg Conn.rolling (Function.update_of_ne hk _ _))
  | @closeSave j q' req hc hq' =>
      by_cases hk : k = j
      · subst hk
        rw [show (((c.shut k).spawn (.persist k req .pending)).onClosed k).conn k =
          { c.conn k with closed := true } from Function.update_self ..] at kept
        exact kept rfl
      · exact kept (congrArg Conn.rolling (Function.update_of_ne hk _ _))
  | tick h =>
      rw [Core.checkRoom_conn] at kept
      exact kept rfl
  | message hn =>
      rw [Core.onMessage_conn] at kept
      exact kept rfl
  | kick hn =>
      refine kept ?_
      show (ite _ _ _ : Conn).rolling = _
      split <;> rfl
  | _ => exact kept rfl

theorem Socket.mem_sendRaw {x : Socket} {e e' : ServerEvent} (h : e ∈ (x.sendRaw e').sent) :
    e ∈ x.sent ∨ e = e' := by
  unfold sendRaw at h
  split at h
  · exact Or.inl h
  · split at h
    · rw [terminate_sent] at h
      exact Or.inl h
    · exact (List.mem_append.mp h).imp_right List.mem_singleton.mp

theorem encode_token (ms : List ChatMessage) : (encode ms).token = none := by
  unfold encode
  split <;> rfl

theorem flushFrame_token {batch : List BusMessage} {e : ServerEvent}
    (h : flushFrame batch k = some e) : e.token = none := by
  unfold flushFrame at h
  dsimp only at h
  split_ifs at h
  · cases h
    exact encode_token _
  · cases h
    exact encode_token _

theorem Sys.socket_updSocket (u : Sys) (f : Socket → Socket) :
    ((u.updSocket k f).side k).socket = f (u.side k).socket := by
  simp [updSocket, updSide]

theorem Sys.mem_send {u : Sys} {e e' : ServerEvent}
    (h : e ∈ ((u.send k e').side k).socket.sent) : e ∈ (u.side k).socket.sent ∨ e = e' := by
  rw [send, socket_updSocket] at h
  exact Socket.mem_sendRaw h

theorem Sys.mem_close {u : Sys} {e : ServerEvent} {code : ℕ} {reason : String}
    (h : e ∈ ((u.close k code reason).side k).socket.sent) : e ∈ (u.side k).socket.sent := by
  rw [close, socket_updSocket] at h
  unfold Socket.close at h
  split at h <;> exact h

theorem Sys.mem_sendChallenge {u : Sys} {e : ServerEvent} {force : Bool}
    (h : e ∈ ((u.sendChallenge env k force).side k).socket.sent) :
    e ∈ (u.side k).socket.sent ∨ e.token = none := by
  unfold sendChallenge at h
  split at h
  · exact Or.inl h
  · split at h
    · exact Or.inl h
    · rcases mem_send h with h | rfl
      · refine Or.inl ?_
        rwa [show ((u.updConduct k _).side k).socket = (u.side k).socket by
          simp [updConduct, updSide]] at h
      · exact Or.inr rfl

theorem Sys.mem_rolloverEnter {u : Sys} {p : RolloverPc} {prev : DailyRoom} {r : SessionRecord}
    {e : ServerEvent} (h : e ∈ ((u.rolloverEnter env k p prev r token).side k).socket.sent) :
    e ∈ (u.side k).socket.sent ∨ e.token = some token ∨ e.token = none := by
  unfold rolloverEnter at h
  dsimp only at h
  generalize hv : u.updSide k _ = v at h
  have hsocket : (v.side k).socket = (u.side k).socket := by
    rw [← hv]
    simp [updSide]
  rw [← hsocket]
  have sent : ∀ {w : Core → Core}, e ∈ (((v.onCore w).send k
      (v.announcementFrame env k (.reset r.toSessionIdent token p.next))).side k).socket.sent →
      e ∈ (v.side k).socket.sent ∨ e.token = some token ∨ e.token = none := by
    intro w h
    rcases mem_send h with h | rfl
    · exact Or.inl h
    · exact Or.inr (Or.inl rfl)
  split at h
  · rcases mem_sendChallenge h with h | h
    · exact sent h
    · exact Or.inr (Or.inr h)
  · exact sent h

/-- The reset that ends a renewal names the token that was drawn for it. -/
theorem Sys.rollover_told (hs : s.step env (.resume (.rollover k)) = some t) {e : ServerEvent}
    (he : e ∈ (t.side k).socket.sent) (ht : e.token = some token) : s.Has k token := by
  obtain ⟨p, hp, hr⟩ := Option.bind_eq_some_iff.mp hs
  obtain ⟨⟨r, d⟩, hres, rfl⟩ := Option.map_eq_some_iff.mp hr
  cases r with
  | wait p' => exact .told he ht
  | threw => exact .told (mem_close he) ht
  | done record token' =>
      dsimp only at he
      split at he
      · exact .told he ht
      · rcases mem_rolloverEnter he with h | h | h
        · exact .told h ht
        · obtain rfl := Option.some.inj (h.symm.trans ht)
          exact .renewing hp (CreatePc.token_done hres)
        · cases h.symm.trans ht

/-- A frame names a token that was on its way. -/
theorem Sys.Has.told_from (hP : s.Polite) (h : s.step env l = some t) {e : ServerEvent}
    (he : e ∈ (t.side k).socket.sent) (ht : e.token = some token) : s.Has k token := by
  by_cases hl : l = .resume (.rollover k)
  · subst hl
    exact rollover_told h he ht
  have hands : ∀ e, s.Hands env l k e → e.token = some token → s.Has k token := by
    intro e hh ht
    cases hh with
    | own hs => cases (ServerEvent.token_of_private hs).symm.trans ht
    | welcome hl' hj hq he =>
        subst he
        obtain rfl := Option.some.inj ht
        exact .joining (by rw [hj]; rfl)
    | reset hl' => exact absurd hl' hl
    | presence hl' hj he =>
        subst he
        cases ht
    | flush hl' hb hr he => cases (flushFrame_token he).symm.trans ht
  rcases step_sides hP h k with hm | ⟨n, u, -, -, -, hm⟩
  · obtain ⟨es, hes, hall⟩ := hm.sent
    rw [hes] at he
    rcases List.mem_append.mp he with he | he
    · exact .told he ht
    · exact hands e (hall e he) ht
  · obtain ⟨es, hes, hall⟩ := hm.sent
    rw [hes] at he
    rcases List.mem_append.mp he with he | he
    · cases he
    · cases (ServerEvent.token_of_private (hall e he)).symm.trans ht

/-- A connection gets a token when a frame presents it or its `create` draws it. -/
theorem Sys.Has.step (hP : s.Polite) (h : s.step env l = some t) (hh : t.Has k token) :
    s.Has k token ∨ (l = .handle k ∧ s.presents k = some token) ∨
      (l = .resume (.handler k) ∨ l = .resume (.rollover k)) ∧
        token = env.newResumeToken s.draws ∧ s.draws < t.draws := by
  cases hh with
  | joining ht =>
      rcases handler_token h ht with ht | hp | ⟨hl, hd⟩
      · exact Or.inl (.joining ht)
      · exact Or.inr (Or.inl hp)
      · exact Or.inr (Or.inr ⟨Or.inl hl, hd⟩)
  | renewing hp ht =>
      cases (coreStep h).renews hp with
      | same hp' => exact Or.inl (.renewing hp' ht)
      | begun hn => cases hn.symm.trans ht
      | settled hp' he => exact Or.inl (.renewing hp' (he.symm.trans ht))
      | goes hl hp' hr =>
          rcases CreatePc.token_wait hr ht with ht | ht
          · exact Or.inl (.renewing hp' ht)
          · exact Or.inr (Or.inr ⟨Or.inr hl, ht⟩)
  | told he ht => exact Or.inl (.told_from hP h he ht)

end step

/-! ### Runs -/

/-- A token of a connection was presented on it, or drawn for it: then another connection has it
only after presenting it. -/
def Apart (env : Env) (s : Sys) (g : ConnKey → List Token) : Prop :=
  ∀ k token, s.Has k token → token ∈ g k ∨
    (∃ d < s.draws, token = env.newResumeToken d) ∧ ∀ j, j ≠ k → s.Has j token → token ∈ g j

section runs

variable {env : Env} {s t : Sys} {l : Label} {g : ConnKey → List Token} {k : ConnKey}
  {token : Token}

theorem Sys.hearing_mono (h : token ∈ g k) : token ∈ s.hearing l g k := by
  unfold hearing
  split
  · rename_i j
    by_cases hk : k = j
    · subst hk
      rw [Function.update_self]
      exact List.mem_append_right _ h
    · rwa [Function.update_of_ne hk]
  · exact h

theorem Sys.mem_hearing (h : s.presents k = some token) :
    token ∈ s.hearing (.handle k) g k := by
  unfold hearing
  dsimp only
  rw [Function.update_self, h]
  exact List.mem_cons_self

/-- The connection whose handler or renewal goes on, the only one that can draw a token. -/
def Label.drawer : Label → Option ConnKey
  | .resume (.handler k) | .resume (.rollover k) => some k
  | _ => none

theorem Apart.step (hP : s.Polite) (h : s.step env l = some t) (hI : Apart env s g) :
    Apart env t (s.hearing l g) := by
  refine Custody.Sound.step env.newResumeToken_injective hI (Sys.coreStep h).draws_le
    (fun _ _ => Sys.hearing_mono) l.drawer fun k token hh => ?_
  rcases hh.step hP h with hold | ⟨rfl, hp⟩ | ⟨hl, hd⟩
  · exact Or.inl hold
  · exact Or.inr (Or.inl (Sys.mem_hearing hp))
  · refine Or.inr (Or.inr ⟨?_, hd⟩)
    rcases hl with rfl | rfl <;> rfl

theorem apart_of_reaches {D : Sys × (ConnKey → List Token) → Label → Prop}
    {x : Sys × (ConnKey → List Token)} (h : (hearing env).Reaches D x) : Apart env x.1 x.2 := by
  refine Machine.Reaches.beside (I := Apart env) ?_ (fun s g l t hs ht hI => ?_) h
  · rintro s ⟨t, rfl⟩ k token hh
    cases hh with
    | joining h => cases h
    | renewing hp => cases hp
    | told he => cases he
  · exact hI.step (Sys.polite_of_reaches hs) ht

/-- **Tokens.** A resume token that a frame tells to a client was presented on its connection, or it
was drawn by the server; and when frames of two connections tell the same token, then it was
presented on one of them. -/
theorem tokens_of_reaches {D : Sys × (ConnKey → List Token) → Label → Prop}
    {x : Sys × (ConnKey → List Token)} (h : (hearing env).Reaches D x) {e : ServerEvent}
    (he : e ∈ (x.1.side k).socket.sent) (ht : e.token = some token) :
    (token ∈ x.2 k ∨ ∃ d < x.1.draws, token = env.newResumeToken d) ∧
      ∀ j, j ≠ k → ∀ e' ∈ (x.1.side j).socket.sent, e'.token = some token →
        token ∈ x.2 j ∨ token ∈ x.2 k := by
  rcases apart_of_reaches h k token (.told he ht) with hg | ⟨hd, hothers⟩
  · exact ⟨Or.inl hg, fun j hj e' he' ht' => Or.inr hg⟩
  · exact ⟨Or.inr hd, fun j hj e' he' ht' => Or.inl (hothers j hj (.told he' ht'))⟩

end runs

namespace Demo

/-- A second client joins with the token the first one was told. -/
def presented : List Label :=
  oneJoined ++ request 1 "b" ++ handshake 1 ++ receive (conn 2) (.join (some 1) none)
    ++ turns (conn 2) 5

/-- Both connections were told the token. -/
def bothTold (x : Sys × (ConnKey → List Token)) : Bool :=
  ([1, 2] : List ℕ).all fun n => (x.1.side (conn n)).socket.sent.any fun e =>
    decide (e.token = some 1)

end Demo

/-- A run of the theorem: a token that two connections are told was presented on one of them. -/
theorem tokens_told_twice : ∃ x, (hearing (Demo.env none)).Reaches Free x ∧
    Demo.bothTold x = true ∧ (1 ∈ x.2 (Demo.conn 1) ∨ 1 ∈ x.2 (Demo.conn 2)) := by
  have hx : ((hearing (Demo.env none)).execs (fun _ _ => true)
      (Sys.initial Demo.noon, fun _ => []) Demo.presented).any Demo.bothTold = true := by
    decide +kernel
  obtain ⟨x, hs, hP⟩ := (Option.any_eq_true _ _).mp hx
  have hr : (hearing (Demo.env none)).Reaches Free x :=
    Machine.reaches_of_execs (fun _ _ _ => trivial) ⟨⟨Demo.noon, rfl⟩, rfl⟩ hs
  have hall := List.all_eq_true.mp hP
  obtain ⟨e, he, ht⟩ := List.any_eq_true.mp (hall 1 (by decide))
  obtain ⟨e', he', ht'⟩ := List.any_eq_true.mp (hall 2 (by decide))
  exact ⟨x, hr, hP, (tokens_of_reaches hr he' (of_decide_eq_true ht')).2 _ (by decide) e he
    (of_decide_eq_true ht)⟩

end RoomBackend
