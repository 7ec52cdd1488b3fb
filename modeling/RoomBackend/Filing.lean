import RoomBackend.Replies

/-! # Every message under its own day

`decide` checks that the instant, the session and the room of the server belong together, and
takes the room of the message from the server again several awaits later. A message is filed
under the day of its timestamp, and by a session of that day, as long as the server has not
switched rooms in between. -/

namespace RoomBackend

open Async Day Lts

/-! ### The send in progress -/

/-- The locals of a send that is not decided yet. -/
def SendPc.locals : SendPc → Option SendLocals
  | .hit l _ => some l
  | .dup l _ => some l
  | .escalate l _ _ => some l
  | .append l _ _ _ => some l
  | .publish l _ _ _ => some l
  | .reply _ _ => none

/-- The message of an accepted send, and the room it is filed under. -/
def SendPc.filing : SendPc → Option (SendLocals × DailyRoom × StoredMessage)
  | .append l room m _ => some (l, room, m)
  | .publish l room m _ => some (l, room, m)
  | _ => none

def Handler.locals : Handler → Option SendLocals
  | .send p => p.locals
  | _ => none

def Handler.filing : Handler → Option (SendLocals × DailyRoom × StoredMessage)
  | .send p => p.filing
  | _ => none

/-- The operation a handler waits for leaves its locals and its message alone. -/
theorem Handler.settle_locals {env : Env} {now : ℤ} {v : Bool} {k : ConnKey} {n : ℕ}
    {info : AdmitInfo} {o : Outcome} {h h' : Handler} {w w' : World}
    (hs : h.settle env now v k n info o w = some (h', w')) :
    h'.locals = h.locals ∧ h'.filing = h.filing := by
  cases h with
  | send p =>
      obtain ⟨⟨p', w₁⟩, hp, he⟩ := Option.map_eq_some_iff.mp hs
      obtain ⟨rfl, rfl⟩ := Prod.mk.inj he
      cases p with
      | reply e reply => cases hp
      | _ =>
          obtain ⟨r, hr, he⟩ := Option.map_eq_some_iff.mp hp
          obtain ⟨rfl, rfl⟩ := Prod.mk.inj he
          exact ⟨rfl, rfl⟩
  | join p =>
      obtain ⟨r, hr, he⟩ := Option.map_eq_some_iff.mp hs
      obtain ⟨rfl, rfl⟩ := Prod.mk.inj he
      exact ⟨rfl, rfl⟩
  | challenge p =>
      obtain ⟨r, hr, he⟩ := Option.map_eq_some_iff.mp hs
      obtain ⟨rfl, rfl⟩ := Prod.mk.inj he
      exact ⟨rfl, rfl⟩
  | report p =>
      obtain ⟨r, hr, he⟩ := Option.map_eq_some_iff.mp hs
      obtain ⟨rfl, rfl⟩ := Prod.mk.inj he
      exact ⟨rfl, rfl⟩

section act

variable {env : Env} {k : ConnKey} {up : Bool} {c c₁ : Core} {h h' : Option Handler}

/-- A send has the locals it had, or it has just passed the checks of `decide`. -/
theorem Act.locals (ha : Act env k up c h c₁ h') {l : SendLocals}
    (hl : h'.bind Handler.locals = some l) : h.bind Handler.locals = some l ∨
      h = none ∧ Opens env (c.observe (.deciding k (c.conn k).handled l.event)) k l := by
  cases ha with
  | sendOpen ho =>
      obtain rfl := Option.some.inj hl
      exact Or.inr ⟨rfl, ho⟩
  | sendLimited ho he =>
      obtain rfl := Option.some.inj hl
      exact Or.inr ⟨rfl, ho⟩
  | sendEscalate hh he =>
      obtain rfl := Option.some.inj hl
      rcases hh with ⟨p, rfl⟩ | ⟨p, rfl⟩ <;> exact Or.inl rfl
  | sendDup => exact Or.inl hl
  | sendAccept => exact Or.inl hl
  | sendEscalating => exact Or.inl hl
  | appendDone => exact Or.inl hl
  | _ => cases hl

/-- A send files the message it filed, or it has just been accepted. -/
theorem Act.filing (ha : Act env k up c h c₁ h') {l : SendLocals} {room : DailyRoom}
    {m : StoredMessage} (hf : h'.bind Handler.filing = some (l, room, m)) :
    h.bind Handler.filing = some (l, room, m) ∨
      h = some (.send (.escalate l .accept (.returned none))) ∧ room = c.roomOf k ∧
        m = Sys.acceptedMessage env c.draws l := by
  cases ha with
  | sendAccept =>
      simp only [Option.bind_some, Handler.filing, SendPc.filing, Option.some.injEq,
        Prod.mk.injEq] at hf
      obtain ⟨rfl, rfl, rfl⟩ := hf
      exact Or.inr ⟨rfl, rfl, rfl⟩
  | appendDone => exact Or.inl hf
  | _ => cases hf

/-- A stretch leaves the session of its connection alone, or takes up a session. -/
theorem Act.record (ha : Act env k up c h c₁ h') :
    (c₁.conn k).record = (c.conn k).record ∧ (c₁.conn k).held = (c.conn k).held ∨
      ∃ r, (c₁.conn k).record = some r ∧ (c₁.conn k).held = (c.conn k).held ++ [r] := by
  cases ha.roster with
  | same hc =>
      exact Or.inl ⟨congrArg (fun d => (d.conn k).record) hc,
        congrArg (fun d => (d.conn k).held) hc⟩
  | switch hj hnext hr hn hc =>
      exact Or.inl ⟨congrArg (fun d => (d.conn k).record) hc,
        congrArg (fun d => (d.conn k).held) hc⟩
  | @enter j r token p ttl hp ht => exact Or.inr ⟨r.toSessionIdent, by simp, by simp⟩
  | welcome hp => exact Or.inl ⟨by simp, by simp⟩

end act

/-! ### The sessions a connection has held -/

/-- A step leaves the session of a connection alone, or gives it a session. -/
theorem ConnStep.record {env : Env} {up : ConnKey → Bool} {c : Core} {l : Label} {j : ConnKey}
    {x : Conn} (hx : ConnStep env up c l j x) (hB : Born c) :
    x.record = (c.conn j).record ∧ x.held = (c.conn j).held ∨
      ∃ r, x.record = some r ∧ x.held = (c.conn j).held ++ [r] := by
  cases hx with
  | act hl hh ha => exact ha.record
  | handle hl hk hh ha =>
      have := ha.record
      rwa [Core.take_conn] at this
  | accepted hl hj =>
      rw [show c.conn j = Conn.unborn from hj ▸ hB.next _]
      exact Or.inl ⟨rfl, rfl⟩
  | renewed => exact Or.inr ⟨_, rfl, rfl⟩
  | _ => exact Or.inl ⟨rfl, rfl⟩

theorem ConnStep.held {env : Env} {up : ConnKey → Bool} {c : Core} {l : Label} {j : ConnKey}
    {x : Conn} (hx : ConnStep env up c l j x) (hB : Born c) {r : SessionIdent}
    (hr : r ∈ (c.conn j).held) : r ∈ x.held := by
  rcases hx.record hB with ⟨-, he⟩ | ⟨r', -, he⟩
  · rwa [he]
  · rw [he]
    exact List.mem_append_left _ hr

/-! ### The checks of `decide` -/

/-- What the checks of `decide` have established: the instant is of the day of the session, a
session of this connection, and so is the room of the server unless it was switched since. -/
structure Checked (env : Env) (c : Core) (k : ConnKey) (l : SendLocals) : Prop where
  mine : l.record ∈ (c.conn k).held
  today : (env.roomAt l.now).roomId = l.record.roomId
  counted : l.resets ≤ (c.srv k.inst).resets
  current : l.resets = (c.srv k.inst).resets → l.record.roomId = (c.srv k.inst).room.roomId

/-- The message is filed under the day of its timestamp, in the name of a session of that day,
one of those the connection has held. -/
structure Filed (env : Env) (held : List SessionIdent) (l : SendLocals) (roomId : String)
    (m : StoredMessage) : Prop where
  day : (env.roomAt m.ts).roomId = roomId
  mine : l.record ∈ held
  room : l.record.roomId = roomId
  author : m.author = l.record.name
  sid : m.sid = l.record.sid

/-- What the journal says about filed messages. -/
def FiledRight (env : Env) (c : Core) : Obs → Prop
  | .appended k _ l roomId m => Filed env (c.conn k).held l roomId m
  | .published k _ l bm _ =>
      ∃ room m, bm = busMessage k room m ∧ Filed env (c.conn k).held l bm.roomId m
  | _ => True

structure Filing (env : Env) (c : Core) : Prop where
  holds : ∀ k r, (c.conn k).record = some r → r ∈ (c.conn k).held
  checked : ∀ k l, (c.conn k).handler.bind Handler.locals = some l → Checked env c k l
  filing : ∀ k l room m, (c.conn k).handler.bind Handler.filing = some (l, room, m) →
    Filed env (c.conn k).held l room.roomId m
  journal : ∀ o ∈ c.world.journal, FiledRight env c o

/-- No message is accepted after its server has switched rooms since its checks. -/
def Sys.acceptsToday (s : Sys) : Label → Bool
  | .resume (.handler k) =>
      match (s.conn k).handler with
      | some (.send (.escalate l .accept (.returned none))) =>
          decide ((s.srv k.inst).resets = l.resets)
      | _ => true
  | _ => true

/-- A step of the server keeps what the checks have established. -/
theorem Checked.step {env : Env} {c c' : Core} {lb : Label} {k : ConnKey} {l : SendLocals}
    (h : Checked env c k l) (hv : SrvStep env c lb k.inst (c'.srv k.inst))
    (hs : (c.srv k.inst).started = true) (hr : l.record ∈ (c'.conn k).held) :
    Checked env c' k l := by
  refine ⟨hr, h.today, ?_, ?_⟩
  · have hc := h.counted
    generalize c'.srv k.inst = v at hv ⊢
    cases hv with
    | switch => exact hc.trans (Nat.le_succ _)
    | close hl hcl hi =>
        rw [← hi]
        unfold Core.onClosed
        rw [Core.updSrv_srv]
        split <;> simpa [hi, Core.shut, Core.updConn] using hc
    | _ => exact hc
  · have hc := h.counted
    have hu := h.current
    generalize c'.srv k.inst = v at hv ⊢
    cases hv with
    | switch =>
        intro he
        dsimp only at he
        omega
    | start hs' => rw [hs] at hs'; cases hs'
    | close hl hcl hi =>
        rw [← hi]
        unfold Core.onClosed
        rw [Core.updSrv_srv]
        split <;> simpa [hi, Core.shut, Core.updConn] using hu
    | _ => exact hu

/-- The journal speaks of a message that is filed. -/
def Obs.isFiling : Obs → Bool
  | .appended _ _ _ _ _ => true
  | .published _ _ _ _ _ => true
  | _ => false

theorem filedRight_of_not {env : Env} {c : Core} {o : Obs} (h : o.isFiling = false) :
    FiledRight env c o := by
  cases o with
  | appended => cases h
  | published => cases h
  | _ => trivial

/-- The entries a step adds about filed messages are about the messages being filed. -/
theorem WorldStep.filed {env : Env} {up : ConnKey → Bool} {c : Core} {l : Label} {w : World}
    (hw : WorldStep env up c l w) : ∀ o ∈ w.journal, o ∈ c.world.journal ∨
      o.isFiling = false ∨
      ∃ k l room m, (c.conn k).handler.bind Handler.filing = some (l, room, m) ∧
        (o = .appended k (c.conn k).handled l room.roomId m ∨
          ∃ to_, o = .published k (c.conn k).handled l (busMessage k room m) to_) := by
  have acts : ∀ {k : ConnKey} {up : Bool} {d : Core} {h : Option Handler} {log : List Obs},
      ActLog k up d h log → ∀ o ∈ log, o.isFiling = false := by
    intro k up d h log hlog o ho
    cases hlog <;> simp at ho <;> (try rcases ho with rfl | rfl) <;> rfl
  obtain ⟨log, hlog, hj⟩ := hw.log
  intro o ho
  rw [hj] at ho
  rcases List.mem_append.mp ho with ho | ho
  · exact Or.inl ho
  · refine Or.inr ?_
    cases hlog with
    | none => cases ho
    | act hl hh hlog => exact Or.inl (acts hlog o ho)
    | handle hl hk hh hlog => exact Or.inl (acts hlog o ho)
    | @appended k o' v l' room m hl ho' hh =>
        rw [List.mem_singleton.mp ho]
        exact Or.inr ⟨k, l', room, m, by rw [hh]; rfl, Or.inl rfl⟩
    | @published k o' v l' room m hl ho' hh =>
        rw [List.mem_singleton.mp ho]
        exact Or.inr ⟨k, l', room, m, by rw [hh]; rfl, Or.inr ⟨_, rfl⟩⟩
    | flushed hl =>
        refine Or.inl ?_
        rcases List.mem_append.mp ho with ho | ho
        · obtain ⟨m, -, rfl⟩ := List.mem_map.mp ho
          rfl
        · rw [List.mem_singleton.mp ho]
          rfl
    | _ =>
        rw [List.mem_singleton.mp ho]
        exact Or.inl rfl

theorem Filed.mono {env : Env} {held held' : List SessionIdent} {l : SendLocals} {roomId : String}
    {m : StoredMessage} (h : Filed env held l roomId m) (hh : ∀ r ∈ held, r ∈ held') :
    Filed env held' l roomId m :=
  ⟨h.day, hh _ h.mine, h.room, h.author, h.sid⟩

/-- One step keeps messages filed right, if none is accepted after a room switch. -/
theorem Filing.step {env : Env} {s : Sys} {l : Label} {c' : Core}
    (hs : CoreStep env s.up s.toCore l c') (hB : Born s.toCore) (hl : s.acceptsToday l = true)
    (h : Filing env s.toCore) : Filing env c' := by
  have held : ∀ k, ∀ r ∈ (s.conn k).held, r ∈ (c'.conn k).held :=
    fun k r hr => (hs.conn k).held hB hr
  -- the checks of a send outlast a step
  have outlast : ∀ k l, (s.conn k).handler.bind Handler.locals = some l →
      Checked env s.toCore k l → Checked env c' k l := by
    intro k l hloc hc
    refine hc.step (hs.srv k.inst) ?_ (held k _ hc.mine)
    by_contra hst
    rw [hB.unstarted (by simpa using hst)] at hloc
    cases hloc
  refine ⟨fun k r hr => ?_, fun k l' hloc => ?_, fun k l' room m hf => ?_, fun o ho => ?_⟩
  · rcases (hs.conn k).record hB with ⟨hrec, he⟩ | ⟨r', hrec, he⟩
    · rw [he]
      exact h.holds k r (hrec ▸ hr)
    · rw [hrec] at hr
      rw [he, Option.some.inj hr]
      exact List.mem_append_right _ (List.mem_singleton_self _)
  · have hx := hs.conn k
    have opens : ∀ {d : Core}, d.conn k = { s.conn k with handled := (s.conn k).handled + 1 } →
        d.srv = s.srv → d.clock = s.clock → k ∈ s.accepted → Opens env d k l' →
        Checked env c' k l' := by
      intro d hdc hds hdt hk ho
      have hrec : (s.conn k).record = some l'.record := by
        have := ho.record
        rwa [hdc] at this
      have hroom : d.roomOf k = s.roomOf k := by rw [Core.roomOf, hds]; rfl
      have hc : Checked env s.toCore k l' := by
        refine ⟨h.holds k _ hrec, ?_, ?_, fun _ => ?_⟩
        · rw [ho.now, ho.today, ho.ours]
        · rw [ho.resets, hds]
        · rw [ho.ours, hroom]
          rfl
      exact hc.step (hs.srv k.inst) (hB.running k hk) (held k _ hc.mine)
    generalize hck : c'.conn k = x at hx
    rw [hck] at hloc
    cases hx with
    | act hl' hh ha =>
        rcases ha.locals hloc with he | ⟨he, -⟩
        · exact outlast k l' (hh ▸ he) (h.checked k l' (hh ▸ he))
        · cases he
    | handle hl' hk hh ha =>
        rcases ha.locals hloc with he | ⟨-, ho⟩
        · cases he
        · exact opens (d := (s.toCore.take k).observe _) (Core.take_conn ..) rfl rfl hk ho
    | settled hl' hh hs' =>
        have he : (s.conn k).handler.bind Handler.locals = some l' := by
          rw [hh]
          exact (Handler.settle_locals hs').1.symm.trans hloc
        exact outlast k l' he (h.checked k l' he)
    | accepted hl' hj => cases hloc
    | _ => exact outlast k l' hloc (h.checked k l' hloc)
  · have hx := hs.conn k
    refine Filed.mono ?_ (held k)
    generalize hck : c'.conn k = x at hx
    rw [hck] at hf
    cases hx with
    | act hl' hh ha =>
        rcases ha.filing hf with he | ⟨he, rfl, rfl⟩
        · exact h.filing k l' room m (hh ▸ he)
        · rw [he] at hh
          have hc := h.checked k l' (by rw [hh]; rfl)
          have hcur : (s.srv k.inst).resets = l'.resets := by
            simpa [Sys.acceptsToday, hl', hh] using hl
          have hroom := hc.current hcur.symm
          exact ⟨hc.today.trans hroom, hc.mine, hroom, rfl, rfl⟩
    | handle hl' hk hh ha =>
        rcases ha.filing hf with he | ⟨he, -, -⟩
        · cases he
        · cases he
    | settled hl' hh hs' =>
        refine h.filing k l' room m ?_
        rw [hh]
        exact (Handler.settle_locals hs').2.symm.trans hf
    | accepted hl' hj => cases hf
    | _ => exact h.filing k l' room m hf
  · have right : ∀ o, FiledRight env s.toCore o → FiledRight env c' o := by
      intro o ho
      cases o with
      | appended k n l roomId m => exact Filed.mono ho (held k)
      | published k n l bm to_ =>
          obtain ⟨room, m, he, hf⟩ := ho
          exact ⟨room, m, he, hf.mono (held k)⟩
      | _ => trivial
    rcases hs.world.filed o ho with ho | ho | ⟨k, l', room, m, hf, rfl | ⟨to_, rfl⟩⟩
    · exact right o (h.journal o ho)
    · exact filedRight_of_not ho
    · exact right _ (h.filing k l' room m hf)
    · exact right _ ⟨room, m, rfl, h.filing k l' room m hf⟩

theorem filing_of_reaches {env : Env} {s : Sys}
    (h : (system env).Reaches (fun s l => s.acceptsToday l = true) s) : Filing env s.toCore := by
  refine Machine.Reaches.invariant_of (J := fun s => Born s.toCore)
    (I := fun s => Filing env s.toCore) (fun s hs => born_of_reaches hs) ?_ ?_ h
  · rintro s ⟨t, rfl⟩
    exact ⟨fun k r hr => (Option.some_ne_none r hr.symm).elim,
      fun k l hl => (Option.some_ne_none l hl.symm).elim,
      fun k l room m hf => (Option.some_ne_none _ hf.symm).elim,
      fun o ho => absurd ho List.not_mem_nil⟩
  · intro s l t hB hI hl hs
    exact hI.step (Sys.coreStep hs) hB hl

/-- **Days.** In every run in which no message is accepted after its server has switched rooms
since its checks, every message that was appended or published is filed under the day of its
timestamp, by a session of that day. -/
theorem filed_of_reaches {env : Env} {s : Sys}
    (h : (system env).Reaches (fun s l => s.acceptsToday l = true) s) :
    (∀ k n l roomId m, .appended k n l roomId m ∈ s.world.journal →
      Filed env (s.conn k).held l roomId m) ∧
    ∀ k n l bm to_, .published k n l bm to_ ∈ s.world.journal →
      ∃ room m, bm = busMessage k room m ∧ Filed env (s.conn k).held l bm.roomId m := by
  have hI := (filing_of_reaches h).journal
  exact ⟨fun k n l roomId m ho => hI _ ho, fun k n l bm to_ ho => hI _ ho⟩

def Obs.isAppended : Obs → Bool
  | .appended _ _ _ _ _ => true
  | _ => false

/-- A run of the theorem: a message was appended, and it is filed right. -/
theorem filed_hello : ∃ s,
    (system (Demo.env none)).Reaches (fun s l => s.acceptsToday l = true) s ∧
      ∃ k n l roomId m, .appended k n l roomId m ∈ s.world.journal ∧
        Filed (Demo.env none) (s.conn k).held l roomId m := by
  obtain ⟨s, hs, hP⟩ := exists_reached (Demo.env none) Sys.acceptsToday
    (fun s => s.world.journal.any Obs.isAppended) Demo.noon
    (Demo.oneJoined ++ Demo.sent (Demo.conn 1) "hello") (by decide +kernel)
  obtain ⟨o, ho, hP⟩ := List.any_eq_true.mp hP
  unfold Obs.isAppended at hP
  split at hP
  · rename_i k n l roomId m
    exact ⟨s, hs, k, n, l, roomId, m, ho, (filed_of_reaches hs).1 k n l roomId m ho⟩
  · cases hP

/-- A message is checked one millisecond before midnight and accepted after it. -/
def sendsAtMidnight : List Label :=
  Demo.oneJoined ++ [.clock (Demo.midnight - 1)]
    ++ Demo.receive (Demo.conn 1) (.send { clientId := "c", text := "hello", day := none })
    ++ [.settle (.handler (Demo.conn 1)) .answered false, .clock Demo.midnight, .tick 0]
    ++ [.resume (.handler (Demo.conn 1)), .resume (.handler (Demo.conn 1))]
    ++ Demo.turns (Demo.conn 1) 2

/-- A frame whose message was appended and published under another day than its own. -/
def Sys.filedWrong (env : Env) (s : Sys) (k : ConnKey) (n : ℕ) : Bool :=
  match s.world.journal.filter (Obs.about k n) with
  | [_, .appended k₁ n₁ l roomId m, .published k₂ n₂ l' bm _] =>
      decide (k₂ = k₁ ∧ n₂ = n₁ ∧ l' = l ∧ bm = busMessage k₁ (s.srv k₁.inst).room m ∧
        roomId = (s.srv k₁.inst).room.roomId ∧
        (env.roomAt m.ts).roomId ≠ roomId ∧ l.record.roomId ≠ roomId)
  | _ => false

/-- Without the condition a message of yesterday, by a session of yesterday, is appended and
published under today. -/
theorem filed_tomorrow : ∃ s, (system (Demo.env none)).Reaches Free s ∧
    ∃ k n l roomId m, .appended k n l roomId m ∈ s.world.journal ∧
      (∃ to_, .published k n l (busMessage k (s.srv k.inst).room m) to_ ∈ s.world.journal) ∧
      roomId = (s.srv k.inst).room.roomId ∧
      ((Demo.env none).roomAt m.ts).roomId ≠ roomId ∧ l.record.roomId ≠ roomId := by
  obtain ⟨s, hs, hP⟩ := exists_reached_free (Demo.env none)
    (fun s => s.filedWrong (Demo.env none) (Demo.conn 1) 2) Demo.noon sendsAtMidnight
    (by decide +kernel)
  unfold Sys.filedWrong at hP
  split at hP
  · rename_i o k n l roomId m k' n' l' bm to_ htr
    obtain ⟨rfl, rfl, rfl, rfl, hroom, hts, hrec⟩ := of_decide_eq_true hP
    have hmem : ∀ o ∈ s.world.journal.filter (Obs.about (Demo.conn 1) 2), o ∈ s.world.journal :=
      fun o ho => (List.mem_filter.mp ho).1
    rw [htr] at hmem
    exact ⟨s, hs, k', n', l', roomId, m, hmem _ (by simp), ⟨to_, hmem _ (by simp)⟩, hroom, hts,
      hrec⟩
  · cases hP

end RoomBackend
