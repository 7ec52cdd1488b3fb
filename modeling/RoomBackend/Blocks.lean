import RoomBackend.Enforcement
import RoomBackend.Filing
import RoomBackend.Lookups

/-! # Blocks bind the session

A block is stored for a session, and a `join` looks it up before it takes the session up. A
connection that has taken it up never looks again: it is kept from sending by its own mute, and
by its socket being closed. A temporary block does this to the connection that ran into it, an
administrator's block, by way of a kick, to every connection of the session that is listed.

A connection is barred from sending for a session, up to the end of a block, if it is closed or
muted whenever it holds the session and does not take the session up again. Behind the stored block
it does not, unless its lookup fails or its renewal ends with the session. -/

namespace RoomBackend

open Async Day Lts

/-! ### The blocks in progress -/

def BlockPc.locals : BlockPc → BlockLocals
  | .sess b _ => b
  | .net b _ _ => b
  | .save b _ _ => b

/-- The temporary block a handler is in. -/
def Handler.tempBlock : Handler → Option BlockLocals
  | .send (.escalate _ _ (.block b)) => some b.locals
  | .challenge (.block b) => some b.locals
  | _ => none

/-- The temporary block a handler is about to store. -/
def Handler.storing : Handler → Option BlockLocals
  | .send (.escalate _ _ (.block (.sess b _))) => some b
  | .challenge (.block (.sess b _)) => some b
  | _ => none

theorem Handler.ask_storing {env : Env} {info : AdmitInfo} {h : Handler} {b : BlockLocals}
    (hb : h.storing = some b) :
    h.ask env info = some (.store (.setBlock (.sess b.record.sid) b.ttl b.reason)) := by
  unfold storing at hb
  split at hb
  · cases hb
    rfl
  · cases hb
    rfl
  · cases hb

theorem BlockMove.locals {c : Core} {k : ConnKey} {b b' : BlockPc} (h : BlockMove c k b b') :
    b'.locals = b.locals := by
  cases h <;> rfl

/-- A temporary block lasts a minute at least. -/
theorem le_blockDuration (n : ℕ) (room : DailyRoom) (now : ℤ) :
    60000 ≤ Core.blockDuration n room now := by
  unfold Core.blockDuration
  split
  · omega
  · split
    · omega
    · exact le_max_left _ _

theorem Escalates.lasts {c c' : Core} {k : ConnKey} {e : EscalatePc} (h : Escalates c k c' e)
    {l : SendLocals} {site : EscalateSite} {b : BlockLocals}
    (hb : (Handler.send (.escalate l site e)).tempBlock = some b) : 60000 ≤ b.ttl := by
  cases h with
  | quiet => cases hb
  | challenge => cases hb
  | block reason hr =>
      obtain rfl := Option.some.inj hb
      exact le_blockDuration _ _ _

section act

variable {env : Env} {k : ConnKey} {up : Bool} {c c₁ : Core} {h h' : Option Handler}

/-- A handler is in the temporary block it was in, or it has just begun one. -/
theorem Act.tempBlock (ha : Act env k up c h c₁ h') {b : BlockLocals}
    (hb : h'.bind Handler.tempBlock = some b) :
    h.bind Handler.tempBlock = some b ∨ 60000 ≤ b.ttl := by
  cases ha with
  | sendLimited hl he => exact Or.inr (he.lasts hb)
  | sendEscalate hh he => exact Or.inr (he.lasts hb)
  | sendEscalating he =>
      cases he with
      | challenged => cases hb
      | blocked => cases hb
      | block hm =>
          have hb' : some _ = some b := hb
          rw [hm.locals] at hb'
          exact Or.inl hb'
  | failedBlock reason hr =>
      obtain rfl := Option.some.inj hb
      exact Or.inr (le_blockDuration _ _ _)
  | challengeBlock hm =>
      have hb' : some _ = some b := hb
      rw [hm.locals] at hb'
      exact Or.inl hb'
  | _ => cases hb

/-- A stretch leaves the mute of its connection alone, or completes a temporary block, or it is a
`join` that has found its session blocked. -/
theorem Act.mute (ha : Act env k up c h c₁ h') :
    (c₁.conn k).blockedUntil = (c.conn k).blockedUntil ∨
      (∃ b, h.bind Handler.tempBlock = some b ∧
        (c₁.conn k).blockedUntil = c.clock + b.ttl) ∨ beforeEntry h = true := by
  cases ha with
  | joinBlocked hp ht => exact Or.inr (Or.inr rfl)
  | sendSwitch hr hj => exact Or.inl (by rw [Core.checkRoom_conn]; rfl)
  | sendLimited hl he => exact Or.inl (by cases he <;> simp)
  | sendEscalate hh he => exact Or.inl (by cases he <;> simp)
  | sendEscalating he =>
      cases he with
      | blocked hp => exact Or.inr (Or.inl ⟨_, rfl, by simp [BlockPc.locals]⟩)
      | _ => exact Or.inl rfl
  | challengeBlocked hp => exact Or.inr (Or.inl ⟨_, rfl, by simp [BlockPc.locals]⟩)
  | sendReply => exact Or.inl (by split <;> rfl)
  | _ => exact Or.inl (by simp [Core.draw])

/-- A stretch leaves the session of its connection alone, or it is a `join` that takes one up. -/
theorem Act.entering (ha : Act env k up c h c₁ h') (hh : h = (c.conn k).handler) :
    (c₁.conn k).record = (c.conn k).record ∨
      ∃ r, c.entering k = some r ∧ (c₁.conn k).record = some r.toSessionIdent := by
  subst hh
  generalize hh : (c.conn k).handler = h at ha
  cases ha.roster with
  | same hc => exact Or.inl (congrArg (fun d => (d.conn k).record) hc)
  | switch hj hnext hr hn hc => exact Or.inl (congrArg (fun d => (d.conn k).record) hc)
  | enter hp ht => exact Or.inr ⟨_, Core.entering_eq hh hp ht, by simp⟩
  | welcome hp => exact Or.inl (by simp)

end act

/-- The operation a handler waits for leaves its temporary block alone. -/
theorem Handler.settle_tempBlock {env : Env} {now : ℤ} {v : Bool} {k : ConnKey} {n : ℕ}
    {info : AdmitInfo} {o : Outcome} {h h' : Handler} {w w' : World}
    (hs : h.settle env now v k n info o w = some (h', w')) : h'.tempBlock = h.tempBlock := by
  have block : ∀ {b : BlockPc} {r : BlockPc × World},
      b.settle now k info o w = some r → r.1.locals = b.locals := by
    intro b r hr
    cases b with
    | _ =>
        obtain ⟨q, -, rfl⟩ := Option.map_eq_some_iff.mp hr
        rfl
  cases h with
  | join p =>
      obtain ⟨r, -, he⟩ := Option.map_eq_some_iff.mp hs
      obtain ⟨rfl, rfl⟩ := Prod.mk.inj he
      rfl
  | report p =>
      obtain ⟨r, -, he⟩ := Option.map_eq_some_iff.mp hs
      obtain ⟨rfl, rfl⟩ := Prod.mk.inj he
      rfl
  | challenge p =>
      obtain ⟨r, hp, he⟩ := Option.map_eq_some_iff.mp hs
      obtain ⟨rfl, rfl⟩ := Prod.mk.inj he
      cases p with
      | block b =>
          obtain ⟨q, hq, rfl⟩ := Option.map_eq_some_iff.mp hp
          exact congrArg some (block hq)
      | _ =>
          obtain ⟨q, -, rfl⟩ := Option.map_eq_some_iff.mp hp
          rfl
  | send p =>
      obtain ⟨r, hp, he⟩ := Option.map_eq_some_iff.mp hs
      obtain ⟨rfl, rfl⟩ := Prod.mk.inj he
      cases p with
      | reply e reply => cases hp
      | escalate l site e =>
          obtain ⟨q, hq, rfl⟩ := Option.map_eq_some_iff.mp hp
          cases e with
          | returned reason => cases hq
          | challenge req x =>
              obtain ⟨y, -, rfl⟩ := Option.map_eq_some_iff.mp hq
              rfl
          | block b =>
              obtain ⟨y, hy, rfl⟩ := Option.map_eq_some_iff.mp hq
              exact congrArg some (block hy)
      | _ =>
          obtain ⟨q, -, rfl⟩ := Option.map_eq_some_iff.mp hp
          rfl

/-- Every temporary block in progress lasts a minute at least. -/
def Lasting (c : Core) : Prop :=
  ∀ k b, (c.conn k).handler.bind Handler.tempBlock = some b → 60000 ≤ b.ttl

theorem Lasting.step {env : Env} {up : ConnKey → Bool} {c c' : Core} {l : Label}
    (h : CoreStep env up c l c') (hI : Lasting c) : Lasting c' := by
  intro k b
  have hx := h.conn k
  generalize c'.conn k = x at hx ⊢
  intro hb
  cases hx with
  | act hl hh ha =>
      rcases ha.tempBlock hb with ho | hb'
      · exact hI k b (by rwa [hh])
      · exact hb'
  | handle hl hk hh ha =>
      rcases ha.tempBlock hb with ho | hb'
      · cases ho
      · exact hb'
  | settled hl hh hs =>
      refine hI k b ?_
      rw [hh, ← hb]
      exact (Handler.settle_tempBlock hs).symm
  | accepted => cases hb
  | _ => exact hI k b hb

theorem lasting_of_reaches {env : Env} {C : Sys → Label → Prop} {s : Sys}
    (h : (system env).Reaches C s) : Lasting s.toCore := by
  refine h.invariant (I := fun s => Lasting s.toCore) ?_
    fun s l t hI _ hs => hI.step (Sys.coreStep hs)
  rintro s ⟨t, rfl⟩ k b hb
  cases hb

/-! ### Accepted sends -/

/-- The frame and the locals of a send that an entry of the journal shows as accepted. -/
def Obs.accepting : Obs → Option (ConnKey × ℕ × SendLocals)
  | .appended k n l _ _ => some (k, n, l)
  | .published k n l _ _ => some (k, n, l)
  | _ => none

/-- The frame that an entry shows as acknowledged. -/
def Obs.acking : Obs → Option (ConnKey × ℕ)
  | .replied k n (.ack _ _) => some (k, n)
  | _ => none

/-- The connection and the locals of a temporary block that an entry shows as complete. -/
def Obs.blocking : Obs → Option (ConnKey × BlockLocals)
  | .blocked k b => some (k, b)
  | _ => none

theorem Obs.eq_of_blocking {o : Obs} {k : ConnKey} {b : BlockLocals}
    (h : o.blocking = some (k, b)) : o = .blocked k b := by
  cases o with
  | blocked k' b' =>
      obtain ⟨rfl, rfl⟩ := Prod.mk.inj (Option.some.inj h)
      rfl
  | _ => cases h

/-- The handler is about to acknowledge a message that was published. -/
def Handler.acks : Handler → Bool
  | .send (.publish _ _ _ (.fulfilled _)) => true
  | .send (.reply _ (.ack _ _)) => true
  | _ => false

theorem Act.acks {env : Env} {k : ConnKey} {up : Bool} {c c₁ : Core} {h h' : Option Handler}
    (ha : Act env k up c h c₁ h') (hb : h'.any Handler.acks = true) :
    h.any Handler.acks = true := by
  cases ha with
  | publishDone => rfl
  | _ => cases hb

/-- The operation a handler waits for makes it acknowledge when it is the publish. -/
theorem Handler.settle_acks {env : Env} {now : ℤ} {v : Bool} {k : ConnKey} {n : ℕ}
    {info : AdmitInfo} {o : Outcome} {h h' : Handler} {w w' : World}
    (hs : h.settle env now v k n info o w = some (h', w')) (ha : h'.acks = true) :
    ∃ l m, w'.journal = w.journal ++ [.published k n l m w.subscribers] := by
  cases h with
  | send p =>
      obtain ⟨r, hp, he⟩ := Option.map_eq_some_iff.mp hs
      obtain ⟨rfl, rfl⟩ := Prod.mk.inj he
      cases p with
      | reply e reply => cases hp
      | publish l room m x =>
          obtain ⟨⟨q, w₁⟩, hq, rfl⟩ := Option.map_eq_some_iff.mp hp
          obtain ⟨rfl, rfl, rfl⟩ := Promise.settle_eq_some.mp hq
          cases o with
          | answered => exact ⟨l, busMessage k room m, rfl⟩
          | refused => cases ha
          | timedOut => cases ha
      | _ =>
          obtain ⟨q, -, rfl⟩ := Option.map_eq_some_iff.mp hp
          cases ha
  | _ =>
      obtain ⟨r, hp, he⟩ := Option.map_eq_some_iff.mp hs
      obtain ⟨rfl, rfl⟩ := Prod.mk.inj he
      cases ha

/-- A stretch of a handler accepts nothing. -/
theorem ActLog.accepting {k : ConnKey} {up : Bool} {c : Core} {h : Option Handler} {log : List Obs}
    (hlog : ActLog k up c h log) {o : Obs} (ho : o ∈ log) : o.accepting = Option.none := by
  cases hlog with
  | none => cases ho
  | limited =>
      rcases List.mem_pair.mp ho with rfl | rfl
      · rfl
      · rfl
  | _ =>
      obtain rfl := List.mem_singleton.mp ho
      rfl

/-- A stretch of a handler acknowledges the frame in progress. -/
theorem ActLog.acking {k j : ConnKey} {up : Bool} {c : Core} {h : Option Handler}
    {log : List Obs} (hlog : ActLog k up c h log) {o : Obs} (ho : o ∈ log) {i : ℕ}
    (ha : o.acking = some (j, i)) :
    h.any Handler.acks = true ∧ k = j ∧ i = (c.conn k).handled := by
  cases hlog with
  | none => cases ho
  | limited =>
      rcases List.mem_pair.mp ho with rfl | rfl
      · cases ha
      · cases ha
  | @replied e reply hh hup =>
      obtain rfl := List.mem_singleton.mp ho
      subst hh
      cases reply with
      | ack id m =>
          obtain ⟨rfl, rfl⟩ := Prod.mk.inj (Option.some.inj ha)
          exact ⟨rfl, rfl, rfl⟩
      | _ => cases ha
  | _ =>
      obtain rfl := List.mem_singleton.mp ho
      cases ha

/-! ### Bans -/

/-- A block of session `sid`: the end of the stored block, the instant by which the sockets that
were closed for it are gone, and the instant up to which the session is barred. -/
structure Ban where
  sid : Sid
  exp : ℤ
  gone : ℤ
  ends : ℤ

namespace Sys

variable {env : Env} {s t u : Sys} {l : Label} {k : ConnKey} {b : Ban}

/-- The session that a renewal of the connection ends with in a step. -/
def renews (env : Env) (s : Sys) (k : ConnKey) : Label → Option Sid
  | .resume (.rollover j) =>
      if j = k then
        (s.conn k).rolling.bind fun p =>
          match p.create.resume env s.draws with
          | some (.done r _, _) => some r.sid
          | _ => none
      else none
  | _ => none

/-- The session a connection takes up in a step: its `join` goes on, or its renewal ends. -/
def takesUp (env : Env) (s : Sys) (k : ConnKey) : Label → Option Sid
  | .resume (.handler j) => if j = k then (s.entering k).map fun r => r.sid else none
  | l => s.renews env k l

/-- A socket that was closed is gone in time: no frame of the session is handled on it later. -/
def goneInTime (b : Ban) (s : Sys) (k : ConnKey) : Label → Bool
  | .handle j =>
      decide (j ≠ k) || (s.conn k).record.all (fun r => r.sid ≠ b.sid) || (s.conn k).closed ||
        decide ((s.side k).socket.state = .opened) || decide (s.clock < b.gone)
  | _ => true

/-- The stored block stays; and as long as the session is barred, every lookup of the connection for
it is answered by the stored block, no renewal of the connection ends with it, and the sockets that
were closed are gone in time. -/
def keptOut (env : Env) (b : Ban) (k : ConnKey) (s : Sys) (l : Label) : Bool :=
  s.keepsBlock env b.sid b.exp l &&
    (decide (b.ends ≤ s.clock) ||
      s.answers b.sid b.exp k l && decide (s.renews env k l ≠ some b.sid) && goneInTime b s k l)

theorem keptOut_spec {b : Ban} (hl : s.keptOut env b k l = true) (hc : s.clock < b.ends) :
    s.answers b.sid b.exp k l = true ∧ s.renews env k l ≠ some b.sid ∧
      goneInTime b s k l = true := by
  simp only [keptOut, Bool.and_eq_true, Bool.or_eq_true, decide_eq_true_eq] at hl
  obtain ⟨-, hl | ⟨⟨ha, hr⟩, hg⟩⟩ := hl
  · omega
  · exact ⟨ha, hr, hg⟩

/-- The connection is closed, or its socket is not open and it is muted. -/
def Shut (s : Sys) (k : ConnKey) (gone : ℤ) : Prop :=
  (s.conn k).closed = true ∨ ¬ s.Opened k ∧ gone ≤ (s.conn k).blockedUntil

/-- The entries of the journal from the `n`-th on. -/
def since (s : Sys) (n : ℕ) : List Obs := s.world.journal.drop n

theorem since_length (s : Sys) : s.since s.world.journal.length = [] := List.drop_length

/-- Connection `k` is barred: before the end of the block it is shut whenever it holds the session,
and of its frames after the `mark`-th none was accepted for the session. `n` is the length of the
journal when it was barred. -/
structure Barred (b : Ban) (k : ConnKey) (mark n : ℕ) (s : Sys) : Prop where
  late : b.gone ≤ s.clock + 60000
  stored : s.Stored b.sid b.exp
  outside : s.clock < b.ends → s.Outside b.sid k
  shut : s.clock < b.ends → ∀ r, (s.conn k).record = some r → r.sid = b.sid → s.Shut k b.gone
  sends : ∀ l, (s.conn k).handler.bind Handler.locals = some l → l.record.sid = b.sid →
    mark < (s.conn k).handled → b.ends ≤ l.now
  acks : (s.conn k).handler.any Handler.acks = true → mark < (s.conn k).handled →
    ∃ o ∈ s.since n, ∃ l, o.accepting = some (k, (s.conn k).handled, l)
  long : n ≤ s.world.journal.length
  accepted : ∀ o ∈ s.since n, ∀ i l, o.accepting = some (k, i, l) → mark < i →
    l.record.sid = b.sid → b.ends ≤ l.now
  acked : ∀ o ∈ s.since n, ∀ i, o.acking = some (k, i) → mark < i →
    ∃ o' ∈ s.since n, ∃ l, o'.accepting = some (k, i, l)

/-- A step appends to the journal. -/
theorem since_step (h : s.step env l = some t) {n : ℕ} (hn : n ≤ s.world.journal.length) :
    ∃ log, StepLog env s.up s.toCore l log ∧ t.since n = s.since n ++ log := by
  obtain ⟨log, hlog, hj⟩ := (coreStep h).world.log
  refine ⟨log, hlog, ?_⟩
  unfold since
  rw [hj, List.drop_append_of_le_length hn]

/-- A connection that holds the session is still shut: it has not just taken the session up. -/
theorem Barred.shut_step {mark n : ℕ} (hI : s.Barred b k mark n) (hP : s.Polite)
    (hJ : JoinsOnce s.toCore) (hH : (s.toCore.berth k).Holds) (hL : Lasting s.toCore)
    (h : s.step env l = some t) (hl : s.keptOut env b k l = true) (hc : t.clock < b.ends)
    {r : SessionIdent} (hr : (t.conn k).record = some r) (hsid : r.sid = b.sid) :
    t.Shut k b.gone := by
  have hcl : s.clock < b.ends := lt_of_le_of_lt (clock_mono h) hc
  have hlate := hI.late
  have hnot : s.renews env k l ≠ some b.sid := (keptOut_spec hl hcl).2.1
  rcases step_sides hP h k with hm | ⟨i, v, -, -, hv, -⟩
  · -- the session it held before, and a mute that only grows
    have keep : ∀ x : Conn, (s.conn k).record = some r → x.closed = (s.conn k).closed →
        (x.blockedUntil = (s.conn k).blockedUntil ∨ s.clock + 60000 ≤ x.blockedUntil) →
        x.closed = true ∨ ¬ t.Opened k ∧ b.gone ≤ x.blockedUntil := by
      intro x hr hcd hmute
      rcases hI.shut hcl r hr hsid with hd | ⟨ho, hg⟩
      · exact Or.inl (hcd.trans hd)
      · refine Or.inr ⟨fun ho' => ho (hm.opened ho'), ?_⟩
        omega
    have hx := (coreStep h).conn k
    unfold Shut
    generalize t.conn k = x at hx hr ⊢
    cases hx with
    | same => exact keep _ hr rfl (Or.inl rfl)
    | act hl' hh ha =>
        rcases ha.entering hh.symm with he | ⟨r', he, hr'⟩
        · refine keep _ (he.symm.trans hr) ha.kept.closed ?_
          rcases ha.mute with hm | ⟨b', hb', hm⟩ | hb'
          · exact Or.inl hm
          · have hlast := hL k b' (by rw [hh]; exact hb')
            refine Or.inr (le_trans ?_ hm.ge)
            omega
          · have hj := hJ k (by rw [hh]; exact hb')
            have hsome : (s.conn k).joined = (s.conn k).record.isSome := hH.joined
            rw [hj, ← he, hr] at hsome
            cases hsome
        · -- a `join` that takes the session up
          obtain rfl : r'.toSessionIdent = r := Option.some.inj (hr'.symm.trans hr)
          exact absurd hsid (hI.outside hcl r' he)
    | handle hl' hk hh ha =>
        have hcd := ha.kept.closed
        have hmute := ha.mute
        rw [Core.take_conn] at hcd hmute
        rcases ha.entering (by rw [Core.take_conn]; exact hh.symm) with he | ⟨r', he, hr'⟩
        · rw [Core.take_conn] at he
          refine keep _ (he.symm.trans hr) hcd ?_
          rcases hmute with hm | ⟨b', hb', hm⟩ | hb'
          · exact Or.inl hm
          · cases hb'
          · cases hb'
        · unfold Core.entering at he
          rw [Core.take_conn, hh] at he
          cases he
    | accepted => cases hr
    | shut hl hcd => exact Or.inl rfl
    | muted hl hn hr' => exact keep _ hr rfl (Or.inr le_rfl)
    | renewed hl' hp hd hcd =>
        refine absurd ?_ hnot
        obtain rfl := Option.some.inj hr
        rw [hl', renews, if_pos rfl, hp, Option.bind_some, hd, ← hsid]
    | _ => exact keep _ hr rfl (Or.inl rfl)
  · rw [hv] at hr
    cases hr

/-- A frame that is taken on a closed connection is over at once. -/
theorem handle_closed (h : s.step env (.handle k) = some t) (hc : (s.conn k).closed = true) :
    (t.conn k).handler = none := by
  have hn := (Option.ite_none_right_eq_some.mp h).2
  unfold handleNext at hn
  split at hn
  · rename_i raw rest hh hq
    obtain rfl := Option.some.inj hn
    have hcl : ((((s.onCore (·.take k)).updSide k fun d =>
        { d with queue := rest })).conn k).closed = true := by
      have hk := congrArg Conn.closed (Core.take_conn s.toCore k)
      exact hk.trans hc
    unfold handle
    rw [if_pos hcl]
    exact congrArg Conn.handler (Core.setHandler_conn _ k none)
  · cases hn

/-- A send that is handled now is of a connection that is not barred, or comes after the end. -/
theorem Barred.sends_step {mark n : ℕ} (hI : s.Barred b k mark n)
    (h : s.step env l = some t) (hl : s.keptOut env b k l = true) {ls : SendLocals}
    (hs : (t.conn k).handler.bind Handler.locals = some ls) (hsid : ls.record.sid = b.sid)
    (hm : mark < (t.conn k).handled) : b.ends ≤ ls.now := by
  have hclosed : l = .handle k → (s.conn k).closed = true → (t.conn k).handler = none := by
    rintro rfl
    exact handle_closed h
  have hx := (coreStep h).conn k
  generalize t.conn k = x at hx hs hm hclosed
  cases hx with
  | act hl' hh ha =>
      have hk := ha.kept.handled
      rcases ha.locals hs with ho | ⟨ho, -⟩
      · exact hI.sends ls (by rw [hh]; exact ho) hsid (lt_of_lt_of_eq hm hk)
      · cases ho
  | @handle c₁ h' hl' hacc hh ha =>
      rcases ha.locals hs with ho | ⟨-, ho⟩
      · cases ho
      · -- the checks of `decide` have been passed
        subst hl'
        by_contra hlt
        have hnow : ls.now = s.clock := ho.now
        have hr : (s.conn k).record = some ls.record := by
          have := ho.record
          rwa [Core.observe, Core.take_conn] at this
        have hmute : (s.conn k).blockedUntil ≤ s.clock := by
          have := ho.unblocked
          rwa [Core.observe, Core.take_conn] at this
        have hnc : (s.conn k).closed ≠ true := by
          intro hc
          have hnone := hclosed rfl hc
          rw [show h' = none from hnone] at hs
          cases hs
        rcases hI.shut (by omega) _ hr hsid with hc | ⟨ho', hg⟩
        · exact hnc hc
        · have hgone := (keptOut_spec hl (by omega)).2.2
          simp only [goneInTime, hr, Option.all_some, Bool.or_eq_true, decide_eq_true_eq, ne_eq,
            not_true_eq_false, false_or] at hgone
          rcases hgone with ((hgone | hgone) | hgone) | hgone
          · exact hgone hsid
          · exact hnc hgone
          · exact ho' hgone
          · omega
  | settled hl' hh hs' =>
      refine hI.sends ls ?_ hsid hm
      rw [hh, ← hs]
      exact (Handler.settle_locals hs').1.symm
  | accepted => cases hs
  | _ => exact hI.sends ls hs hsid hm

/-- A handler that is about to acknowledge has published its message. -/
theorem Barred.acks_step {mark n : ℕ} (hI : s.Barred b k mark n) (h : s.step env l = some t)
    (ha : (t.conn k).handler.any Handler.acks = true) (hm : mark < (t.conn k).handled) :
    ∃ o ∈ t.since n, ∃ l, o.accepting = some (k, (t.conn k).handled, l) := by
  obtain ⟨log, -, hlog⟩ := since_step h hI.long
  have old : (s.conn k).handler.any Handler.acks = true →
      (t.conn k).handled = (s.conn k).handled →
      ∃ o ∈ t.since n, ∃ l, o.accepting = some (k, (t.conn k).handled, l) := by
    intro ha' hk
    obtain ⟨o, ho, l', hl'⟩ := hI.acks ha' (lt_of_lt_of_eq hm hk)
    refine ⟨o, ?_, l', by rw [hk]; exact hl'⟩
    rw [hlog]
    exact List.mem_append_left _ ho
  by_cases hset : ∃ o v, l = .settle (.handler k) o v
  · obtain ⟨o, v, rfl⟩ := hset
    obtain ⟨c', hs, rfl⟩ := Option.map_eq_some_iff.mp h
    obtain ⟨x, hx, hs⟩ := Option.bind_eq_some_iff.mp hs
    obtain ⟨⟨x', w⟩, hr, rfl⟩ := Option.map_eq_some_iff.mp hs
    have hconn : (({ s.toCore with world := w } : Core).suspend k x').conn k =
        { s.conn k with handler := some x' } := Core.setHandler_conn _ k (some x')
    dsimp only at ha hm ⊢
    rw [hconn] at ha ⊢
    obtain ⟨l', m, hj⟩ := Handler.settle_acks hr ha
    refine ⟨.published k (s.conn k).handled l' m s.world.subscribers, ?_, l', rfl⟩
    have hw : since { s with toCore := ({ s.toCore with world := w } : Core).suspend k x' } n =
        w.journal.drop n := rfl
    rw [hw, hj, List.drop_append_of_le_length hI.long]
    exact List.mem_append_right _ (List.mem_singleton_self _)
  · have hx := (coreStep h).conn k
    generalize t.conn k = x at hx ha hm old ⊢
    cases hx with
    | act hl hh hact => exact old (by rw [hh]; exact hact.acks ha) hact.kept.handled
    | handle hl hacc hh hact => cases hact.acks ha
    | settled hl => exact absurd ⟨_, _, hl⟩ hset
    | accepted => cases ha
    | _ => exact old ha rfl

theorem Barred.step {mark n : ℕ} (hI : s.Barred b k mark n) (hP : s.Polite)
    (hJ : JoinsOnce s.toCore) (hH : (s.toCore.berth k).Holds) (hL : Lasting s.toCore)
    (h : s.step env l = some t) (hl : s.keptOut env b k l = true) : t.Barred b k mark n := by
  obtain ⟨log, hlog, hsince⟩ := since_step h hI.long
  have hclock := clock_mono h
  -- what this step appends to the journal
  have logged : ∀ o ∈ log, ∀ i l', o.accepting = some (k, i, l') →
      i = (s.conn k).handled ∧ (s.conn k).handler.bind Handler.locals = some l' := by
    intro o ho i l' ha
    cases hlog with
    | appended hl' ho' hh =>
        obtain rfl := List.mem_singleton.mp ho
        obtain ⟨rfl, rfl, rfl⟩ : _ = k ∧ _ = i ∧ _ = l' := by simpa [Obs.accepting] using ha
        exact ⟨rfl, by rw [hh]; rfl⟩
    | published hl' ho' hh =>
        obtain rfl := List.mem_singleton.mp ho
        obtain ⟨rfl, rfl, rfl⟩ : _ = k ∧ _ = i ∧ _ = l' := by simpa [Obs.accepting] using ha
        exact ⟨rfl, by rw [hh]; rfl⟩
    | act hl' hh hact =>
        rw [hact.accepting ho] at ha
        cases ha
    | handle hl' hk hh hact =>
        rw [hact.accepting ho] at ha
        cases ha
    | flushed hl' =>
        rcases List.mem_append.mp ho with ho | ho
        · obtain ⟨m, -, rfl⟩ := List.mem_map.mp ho
          cases ha
        · obtain rfl := List.mem_singleton.mp ho
          cases ha
    | none => cases ho
    | _ =>
        obtain rfl := List.mem_singleton.mp ho
        cases ha
  have answers : ∀ o ∈ log, ∀ i, o.acking = some (k, i) →
      i = (s.conn k).handled ∧ (s.conn k).handler.any Handler.acks = true := by
    intro o ho i ha
    cases hlog with
    | act hl' hh hact =>
        obtain ⟨hx, rfl, hi⟩ := hact.acking ho ha
        exact ⟨hi, by rw [hh]; exact hx⟩
    | handle hl' hk hh hact => cases (hact.acking ho ha).1
    | flushed hl' =>
        rcases List.mem_append.mp ho with ho | ho
        · obtain ⟨m, -, rfl⟩ := List.mem_map.mp ho
          cases ha
        · obtain rfl := List.mem_singleton.mp ho
          cases ha
    | none => cases ho
    | _ =>
        obtain rfl := List.mem_singleton.mp ho
        cases ha
  refine
    { late := by have := hI.late; omega
      stored := hI.stored.step h (Bool.and_eq_true_iff.mp hl).1
      outside := fun hc => by
        have hcl : s.clock < b.ends := lt_of_le_of_lt hclock hc
        exact (hI.outside hcl).step hI.stored h (keptOut_spec hl hcl).1
      shut := fun hc r hr hsid => hI.shut_step hP hJ hH hL h hl hc hr hsid
      sends := fun ls hs hsid hm => hI.sends_step h hl hs hsid hm
      acks := fun ha hm => hI.acks_step h ha hm
      long := ?_
      accepted := ?_
      acked := ?_ }
  · exact hI.long.trans (coreStep h).world.length_le
  · intro o ho i l' ha hm hsid
    rw [hsince] at ho
    rcases List.mem_append.mp ho with ho | ho
    · exact hI.accepted o ho i l' ha hm hsid
    · obtain ⟨rfl, hs⟩ := logged o ho i l' ha
      exact hI.sends l' hs hsid hm
  · intro o ho i ha hm
    rw [hsince] at ho ⊢
    rcases List.mem_append.mp ho with ho | ho
    · obtain ⟨o', ho', hl'⟩ := hI.acked o ho i ha hm
      exact ⟨o', List.mem_append_left _ ho', hl'⟩
    · obtain ⟨rfl, hs⟩ := answers o ho i ha
      obtain ⟨o', ho', hl'⟩ := hI.acks hs hm
      exact ⟨o', List.mem_append_left _ ho', hl'⟩

/-- A run that keeps the session out leaves a barred connection barred. -/
theorem Barred.run {mark n : ℕ} {ls : List Label} (hI : s.Barred b k mark n)
    (hs : (system env).Reaches Free s)
    (hr : (system env).Run (fun s l => s.keptOut env b k l = true) s ls u) :
    u.Barred b k mark n := by
  refine hs.preserves (I := fun s : Sys => s.Barred b k mark n) hr (fun _ _ _ => trivial) ?_ hI
  intro s l t hs hI hl h
  exact hI.step (polite_of_reaches hs) (joinsOnce_of_reaches hs) (holds_of_reaches hs k)
    (lasting_of_reaches hs) h hl

/-- A connection that is shut is barred from now on. -/
theorem barred_of_shut (hg : b.gone ≤ s.clock + 60000) (hS : s.Stored b.sid b.exp)
    (hO : s.Outside b.sid k)
    (hsh : ∀ r, (s.conn k).record = some r → r.sid = b.sid → s.Shut k b.gone) :
    s.Barred b k (s.conn k).handled s.world.journal.length := by
  have hnil := s.since_length
  exact
    { late := hg
      stored := hS
      outside := fun _ => hO
      shut := fun _ => hsh
      sends := fun _ _ _ hm => absurd hm (lt_irrefl _)
      acks := fun _ hm => absurd hm (lt_irrefl _)
      long := le_rfl
      accepted := fun o ho => by rw [hnil] at ho; cases ho
      acked := fun o ho => by rw [hnil] at ho; cases ho }

/-! ### Kicks -/

/-- A kick closes the sockets of the listed connections that hold the session. -/
theorem not_opened_of_kickLoop {i : InstanceId} {sid : Sid} {text : Option String} {m : ℕ} :
    ∀ (ns : List ℕ) (s : Sys), m ∈ ns →
      (s.conn ⟨i, m⟩).record.any (fun r => r.sid = sid) = true →
      ¬ (s.forConns i
        (fun k s => if (s.conn k).record.any (fun r => r.sid = sid) then s.blocked k 60000 text
          else s) ns).Opened ⟨i, m⟩
  | [], s, hm, _ => by cases hm
  | n :: ns, s, hm, hr => by
      rw [forConns, List.foldl_cons]
      by_cases hmn : m = n
      · -- its own turn closes the socket, the later ones do not open it
        subst hmn
        rw [if_pos hr]
        have hT : Talks (fun _ _ => True) (fun _ _ _ => True) (s.blocked ⟨i, m⟩ 60000 text)
            ((s.blocked ⟨i, m⟩ 60000 text).forConns i
              (fun k s => if (s.conn k).record.any (fun r => r.sid = sid) then
                s.blocked k 60000 text else s) ns) := by
          refine (Talks.refl (fun _ _ _ => trivial) _).quiet
            (Quiet.forConns (fun j u hu => ?_) ns .refl)
          split
          · exact hu.blocked _ _
          · exact hu
        intro ho
        have ho' := hT.shrinks _ ho
        unfold Opened blocked close updSocket updSide at ho'
        dsimp only at ho'
        rw [Function.update_self] at ho'
        exact Socket.not_opened_of_close ho'
      · have hmem : m ∈ ns := (List.mem_cons.mp hm).resolve_left hmn
        refine not_opened_of_kickLoop ns _ hmem ?_
        split
        · have hne : (⟨i, m⟩ : ConnKey) ≠ ⟨i, n⟩ := fun he => hmn (congrArg ConnKey.seq he)
          rw [toCore_blocked]
          unfold Core.mute
          rw [Core.updConn_conn_ne _ hne]
          exact hr
        · exact hr

section kick

variable {n : ℕ} {origin : InstanceId} {sid : Sid} {reason : String}

theorem toCore_kick (hn : s.world.inFlight[n]? = some (k.inst, .kick origin sid reason))
    (h : s.step env (.deliver n) = some t) : t.toCore = (s.toCore.receive n).kick k.inst sid := by
  obtain ⟨e, he, rfl⟩ := Option.map_eq_some_iff.mp h
  obtain rfl := Option.some.inj (he.symm.trans hn)
  exact toCore_kickLoop _

theorem not_opened_of_kick (hn : s.world.inFlight[n]? = some (k.inst, .kick origin sid reason))
    (h : s.step env (.deliver n) = some t) (hm : k.seq ∈ (s.srv k.inst).conns)
    (hr : (s.conn k).record.any (fun r => r.sid = sid) = true) : ¬ t.Opened k := by
  obtain ⟨e, he, rfl⟩ := Option.map_eq_some_iff.mp h
  obtain rfl := Option.some.inj (he.symm.trans hn)
  exact not_opened_of_kickLoop (s.srv k.inst).conns _ hm hr

/-- After a kick every connection of the instance that holds the session is shut. -/
theorem shut_of_kick (hS : Seats s.toCore)
    (hn : s.world.inFlight[n]? = some (k.inst, .kick origin sid reason))
    (h : s.step env (.deliver n) = some t) {r : SessionIdent}
    (hr : (t.conn k).record = some r) (hsid : r.sid = sid) : t.Shut k (t.clock + 60000) := by
  have hcore := toCore_kick hn h
  have hconn : t.conn k = ((s.toCore.receive n).kick k.inst sid).conn k := by rw [hcore]
  have hclock : t.clock = s.clock := by
    rw [hcore]
    rfl
  unfold Core.kick Core.muteAll Core.receive at hconn
  dsimp only at hconn
  by_cases hm : k.seq ∈ (s.srv k.inst).conns
  · have hany : (s.conn k).record.any (fun r => r.sid = sid) = true := by
      split at hconn
      · rename_i hc
        exact hc.2.2
      · rw [← hconn, hr]
        simpa using hsid
    rw [if_pos ⟨rfl, hm, hany⟩] at hconn
    refine Or.inr ⟨not_opened_of_kick hn h hm hany, ?_⟩
    rw [hconn, hclock]
  · -- a connection that is not listed is closed
    rw [if_neg fun hc => hm hc.2.1] at hconn
    refine Or.inl ?_
    rw [hconn]
    by_contra hc
    exact hm ((hS.members k.inst k.seq).mpr (by simpa using hc))

end kick

/-! ### Temporary blocks -/

/-- The step that completes a temporary block. -/
theorem blocked_step {bl : BlockLocals} (h : s.step env l = some t)
    (hb : .blocked k bl ∈ t.since s.world.journal.length) :
    l = .resume (.handler k) ∧ (s.conn k).handler.bind Handler.tempBlock = some bl ∧
      ∃ hd, t = (s.tempBlockEnd k bl).onCore (·.setHandler k hd) := by
  obtain ⟨log, hlog, hsince⟩ := since_step h le_rfl
  have hnil := s.since_length
  rw [hsince, hnil, List.nil_append] at hb
  cases hlog with
  | act hl hh hact =>
      subst hl
      obtain ⟨x, hx, ht⟩ := Option.bind_eq_some_iff.mp h
      obtain rfl := Option.some.inj (hx.symm.trans hh)
      cases hact with
      | @blocked b' req p hx' hp =>
          obtain ⟨rfl, rfl⟩ : k = _ ∧ bl = b' := by simpa using hb
          rw [hh]
          -- the promise of the save is settled, and `tempBlock` comes to its end
          rcases hx' with ⟨l', site, hx'⟩ | hx'
          · obtain rfl := Option.some.inj hx'
            cases p with
            | pending => exact absurd rfl hp
            | _ => exact ⟨rfl, rfl, _, (Option.some.inj ht).symm⟩
          · obtain rfl := Option.some.inj hx'
            cases p with
            | pending => exact absurd rfl hp
            | _ => exact ⟨rfl, rfl, _, (Option.some.inj ht).symm⟩
      | _ => simp at hb
  | handle hl hk hh hact =>
      cases hact with
      | @blocked b' req p hx' hp =>
          rcases hx' with ⟨l', site, hx'⟩ | hx'
          · cases hx'
          · cases hx'
      | _ => simp at hb
  | _ => simp at hb

/-- A temporary block shuts its own connection. -/
theorem shut_of_blocked {bl : BlockLocals} (hL : Lasting s.toCore) (h : s.step env l = some t)
    (hb : .blocked k bl ∈ t.since s.world.journal.length) : t.Shut k (t.clock + 60000) := by
  obtain ⟨-, hbl, hd, rfl⟩ := blocked_step h hb
  have hlast := hL k bl hbl
  refine Or.inr ⟨?_, ?_⟩
  · unfold Opened onCore tempBlockEnd close updSocket updSide
    dsimp only
    rw [Function.update_self]
    exact Socket.not_opened_of_close
  · have hconn : ((s.tempBlockEnd k bl).onCore (·.setHandler k hd)).conn k =
        { (s.conn k) with blockedUntil := s.clock + bl.ttl, handler := hd } := by
      rw [toCore_onCore, toCore_tempBlockEnd, Core.setHandler_conn]
      unfold Core.blockEnd Core.mute Core.observe
      dsimp only
      rw [Core.updConn_conn]
    rw [hconn]
    show s.clock + 60000 ≤ s.clock + bl.ttl
    omega

/-- A temporary block leaves the other connections alone. -/
theorem blocked_step_ne {bl : BlockLocals} {j : ConnKey} (h : s.step env l = some t)
    (hb : .blocked k bl ∈ t.since s.world.journal.length) (hj : j ≠ k) :
    t.conn j = s.conn j ∧ t.side j = s.side j := by
  obtain ⟨-, -, hd, rfl⟩ := blocked_step h hb
  constructor
  · rw [toCore_onCore, toCore_tempBlockEnd, Core.setHandler_conn_ne _ hj]
    have hmute : (s.toCore.mute k bl.ttl).conn j = s.conn j := Core.updConn_conn_ne _ hj _
    exact hmute
  · unfold onCore tempBlockEnd send close updSocket updSide
    dsimp only
    rw [Function.update_of_ne hj, Function.update_of_ne hj]
    rfl

/-- The store is left alone by it. -/
theorem keepsBlock_of_blocked {bl : BlockLocals} {sid : Sid} {exp : ℤ} (h : s.step env l = some t)
    (hb : .blocked k bl ∈ t.since s.world.journal.length) : s.keepsBlock env sid exp l = true := by
  obtain ⟨rfl, -⟩ := blocked_step h hb
  rfl

theorem clock_of_blocked {bl : BlockLocals} (h : s.step env l = some t)
    (hb : .blocked k bl ∈ t.since s.world.journal.length) : t.clock = s.clock := by
  obtain ⟨-, -, hd, rfl⟩ := blocked_step h hb
  rw [toCore_onCore, toCore_tempBlockEnd]
  rfl

end Sys

/-- **Administrators' blocks.** The request of an administrator stores a block of a session, and
the kick of the request is delivered to an instance. If no `join` of a connection of the instance
goes on with the session at that instant, then as long as the stored block stays, lookups that are
made later are answered, and no renewal ends with the session, no send frame whose handling starts
later on the connection is accepted for the session before the end of the block: no message
appended, published or acknowledged. -/
theorem banned_of_reaches {env : Env} {p q s t u : Sys} {n m : ℕ} {a i : InstanceId}
    {b : BlockReq} {sid : Sid} {o : Outcome} {v : Bool} {k : ConnKey} {ls ls' : List Label}
    (h : (system env).Reaches Free p)
    (hb : p.task n = some (.admin a (.block b sid .pending)))
    (hp : p.step env (.settle (.task n) o v) = some q) (ho : o.applied = true)
    (hq : (system env).Run
      (fun s l => s.keepsBlock env sid (p.clock + b.minutes * 60000) l = true) q ls s)
    (hm : s.world.inFlight[m]? = some (i, .kick a sid b.reason))
    (hs : s.step env (.deliver m) = some t) (hk : k.inst = i) (hout : t.Outside sid k)
    (hr : (system env).Run (fun s l => s.keptOut env ⟨sid, p.clock + b.minutes * 60000,
      t.clock + 60000, p.clock + b.minutes * 60000⟩ k l = true) t ls' u) :
    (∀ o ∈ u.since t.world.journal.length, ∀ m l, o.accepting = some (k, m, l) →
      (t.conn k).handled < m → l.record.sid = sid → p.clock + b.minutes * 60000 ≤ l.now) ∧
    (∀ o ∈ u.since t.world.journal.length, ∀ m, o.acking = some (k, m) →
      (t.conn k).handled < m →
      ∃ o' ∈ u.since t.world.journal.length, ∃ l, o'.accepting = some (k, m, l)) := by
  have hst : (system env).step p (.settle (.task n) o v) = some q := hp
  have hs' : (system env).Reaches Free s :=
    (h.step trivial hst).run (hq.mono fun _ _ _ => trivial)
  have ht : (system env).Reaches Free t := hs'.step (l := .deliver m) trivial hs
  -- the block is stored, and still there when the kick is delivered
  have hask : p.ask env (.task n) = some (.store (.setBlock (.sess sid) (b.minutes * 60000)
      ("admin:" ++ b.reason))) := by
    show (p.task n).map (Task.ask env) = _
    rw [hb]
    rfl
  have hS : t.Stored sid (p.clock + b.minutes * 60000) :=
    ((Sys.stored_of_setBlock hp ho hask).run hq).step hs rfl
  have hI : t.Barred ⟨sid, p.clock + b.minutes * 60000, t.clock + 60000,
      p.clock + b.minutes * 60000⟩ k (t.conn k).handled t.world.journal.length :=
    Sys.barred_of_shut le_rfl hS hout fun r hr hsid =>
      Sys.shut_of_kick (seats_of_reaches hs') (hk ▸ hm) hs hr hsid
  have hu := hI.run ht hr
  exact ⟨hu.accepted, hu.acked⟩

/-- **Temporary blocks.** A temporary block of a session is stored, and later complete. If at that
instant every other connection that holds the session is shut, and no `join` of a connection goes
on with the session, then as long as the stored block stays, lookups that are made later are
answered before it runs out, and no renewal ends with the session, no send frame whose handling
starts later on the connection is accepted for the session before the end of the block: no message
appended, published or acknowledged. -/
theorem paused_of_reaches {env : Env} {p q s t u : Sys} {o : Outcome} {v : Bool} {l : Label}
    {k j : ConnKey} {b : BlockLocals} {ls ls' : List Label} (h : (system env).Reaches Free p)
    (hb₀ : (p.conn k).handler.bind Handler.storing = some b)
    (hp : p.step env (.settle (.handler k) o v) = some q) (ho : o.applied = true)
    (hq : (system env).Run (fun s l => s.keepsBlock env b.record.sid (p.clock + b.ttl) l = true)
      q ls s)
    (hs : s.step env l = some t) (hb : .blocked k b ∈ t.since s.world.journal.length)
    (hj : j ≠ k → ∀ r, (s.conn j).record = some r → r.sid = b.record.sid →
      s.Shut j (s.clock + 60000))
    (hout : t.Outside b.record.sid j)
    (hr : (system env).Run (fun s l => s.keptOut env ⟨b.record.sid, p.clock + b.ttl,
      t.clock + 60000, t.clock + b.ttl⟩ j l = true) t ls' u) :
    (∀ o ∈ u.since t.world.journal.length, ∀ m l, o.accepting = some (j, m, l) →
      (t.conn j).handled < m → l.record.sid = b.record.sid → t.clock + b.ttl ≤ l.now) ∧
    (∀ o ∈ u.since t.world.journal.length, ∀ m, o.acking = some (j, m) →
      (t.conn j).handled < m →
      ∃ o' ∈ u.since t.world.journal.length, ∃ l, o'.accepting = some (j, m, l)) := by
  have hst : (system env).step p (.settle (.handler k) o v) = some q := hp
  have hs' : (system env).Reaches Free s :=
    (h.step trivial hst).run (hq.mono fun _ _ _ => trivial)
  have ht : (system env).Reaches Free t := hs'.step (l := l) trivial hs
  -- the block is stored, and still there when it is complete
  have hask : p.ask env (.handler k) =
      some (.store (.setBlock (.sess b.record.sid) b.ttl b.reason)) := by
    obtain ⟨x, hx, hx'⟩ := Option.bind_eq_some_iff.mp hb₀
    show (p.conn k).handler.bind (Handler.ask env (p.conn k).info) = _
    rw [hx]
    exact Handler.ask_storing hx'
  have hS : t.Stored b.record.sid (p.clock + b.ttl) :=
    ((Sys.stored_of_setBlock hp ho hask).run hq).step hs (Sys.keepsBlock_of_blocked hs hb)
  have hshut : ∀ r, (t.conn j).record = some r → r.sid = b.record.sid →
      t.Shut j (t.clock + 60000) := by
    intro r hr hsid
    by_cases hjk : j = k
    · subst hjk
      exact Sys.shut_of_blocked (lasting_of_reaches hs') hs hb
    · -- the other connections are as they were
      obtain ⟨hconn, hside⟩ := Sys.blocked_step_ne hs hb hjk
      have hsh := hj hjk r (hconn ▸ hr) hsid
      unfold Sys.Shut Sys.Opened at hsh ⊢
      rw [hconn, hside, Sys.clock_of_blocked hs hb]
      exact hsh
  have hI : t.Barred ⟨b.record.sid, p.clock + b.ttl, t.clock + 60000, t.clock + b.ttl⟩ j
      (t.conn j).handled t.world.journal.length := Sys.barred_of_shut le_rfl hS hout hshut
  have hu := hI.run ht hr
  exact ⟨hu.accepted, hu.acked⟩

namespace Demo

/-- An administrator blocks the first session for an hour: the store is told, the kick published,
the request answered. -/
def adminBlocks : List Label :=
  [.adminBlock 0
    { publicName := some "guest-0", messageId := none, minutes := 60, reason := "spam" }]
    ++ turn (.task 0) ++ turn (.task 0) ++ turn (.task 0) ++ turn (.task 0)

/-- A second connection tries to resume the session, and sends a message. -/
def comesBack : List Label :=
  receive (conn 2) (.join (some 1) none) ++ turns (conn 2) 4
    ++ receive (conn 2) (.send { clientId := "d", text := "x", day := none })

/-- It has handled both frames, and has not joined. -/
def turnedAway (t u : Sys) : Bool :=
  decide ((u.conn (conn 2)).handled = (t.conn (conn 2)).handled + 2) && !(u.conn (conn 2)).joined

/-- The store is told of the block, the kick is delivered, and the second connection comes back. -/
def kicked (s : Sys) : Bool :=
  decide (s.task 0 = some (.admin 0 (.block ⟨some "guest-0", none, 60, "spam"⟩ 0 .pending))) &&
    (s.step (env none) (.settle (.task 0) .answered false)).any fun q : Sys =>
      ((system (env none)).execs (fun x l => x.keepsBlock (env none) 0 (s.clock + 3600000) l) q
        (adminBlocks.drop 4)).any fun r : Sys =>
          decide (r.world.inFlight[0]? = some (0, .kick 0 0 "spam")) &&
            (r.step (env none) (.deliver 0)).any fun t : Sys =>
              (t.entering (conn 2)).isNone &&
                ((system (env none)).execs (fun x l => x.keptOut (env none) ⟨0, s.clock + 3600000,
                  t.clock + 60000, s.clock + 3600000⟩ (conn 2) l) t comesBack).any (turnedAway t)

/-- A second connection resumes the session; its `join` has been told that it is not blocked when
the administrator blocks it. -/
def joinRaces : List Label :=
  botJoined ++ request 1 "b" ++ handshake 1 ++ receive (conn 2) (.join (some 1) none)
    ++ turns (conn 2) 3 ++ [.settle (.handler (conn 2)) .answered false] ++ adminBlocks

/-- The join goes on, and its client sends a message. -/
def joinGoesOn : List Label :=
  [.resume (.handler (conn 2))] ++ turns (conn 2) 1 ++ sent (conn 2) "hello"

/-- Once the kick is delivered and the request answered, a message of the blocked session is
accepted. -/
def slipsThrough (s : Sys) : Bool :=
  decide (s.world.inFlight[0]? = some (0, .kick 0 0 "spam")) &&
    (s.step (env none) (.deliver 0)).any fun t : Sys =>
      decide (t.world.inFlight = []) && decide (t.task 0 = none) &&
        ((system (env none)).execs (fun _ _ => true) t joinGoesOn).any fun u : Sys =>
          decide (0 < (u.world.store.blockTtl u.clock (.sess 0)).1) &&
            (u.since t.world.journal.length).any fun o => o.accepting.any fun x =>
              decide (x.1 = conn 2) && decide ((t.conn (conn 2)).handled < x.2.1) &&
                decide (x.2.2.record.sid = 0)

/-- The first connection runs into a temporary block, up to the end of `tempBlock`. -/
def paused (s : Sys) (P : Sys → BlockLocals → Bool) : Bool :=
  (s.step (env none) (.resume (.handler (conn 1)))).any fun t : Sys =>
    (t.since s.world.journal.length).any fun o => o.blocking.any fun x =>
      decide (x.1 = conn 1) && P t x.2

/-- The block is stored and complete, and the second connection comes back. -/
def staysPaused (s : Sys) : Bool :=
  ((s.conn (conn 1)).handler.bind Handler.storing).any fun b =>
    (s.step (env none) (.settle (.handler (conn 1)) .answered false)).any fun q : Sys =>
      ((system (env none)).execs (fun x l => x.keepsBlock (env none) b.record.sid (s.clock + b.ttl)
        l) q (misbehaves.drop 9)).any fun r : Sys =>
          paused r fun t b' => decide (b' = b) && (t.entering (conn 2)).isNone &&
            (r.conn (conn 2)).record.isNone &&
              ((system (env none)).execs (fun x l => x.keptOut (env none) ⟨b.record.sid,
                s.clock + b.ttl, t.clock + 60000, t.clock + b.ttl⟩ (conn 2) l) t comesBack).any
                  (turnedAway t)

/-- The other connection of the session sends a message before the block has ended. -/
def othersSend (s : Sys) : Bool :=
  paused s fun t b =>
    ((system (env none)).execs (fun _ _ => true) t (sent (conn 2) "hello")).any fun u : Sys =>
      (u.since t.world.journal.length).any fun o => o.accepting.any fun x =>
        decide (x.1 = conn 2) && decide ((t.conn (conn 2)).handled < x.2.1) &&
          decide (x.2.2.record.sid = b.record.sid) && decide (x.2.2.now < t.clock + b.ttl)

end Demo

theorem Sys.outside_of_isNone {sid : Sid} {s : Sys} {k : ConnKey}
    (h : (s.entering k).isNone = true) : s.Outside sid k := by
  intro r hr
  rw [hr] at h
  cases h

/-- A run of the theorem: an administrator blocks a session, and a connection that comes back with
its token is turned away by the stored block. -/
theorem banned_kicked : ∃ p t u : Sys, (system (Demo.env none)).Reaches Free p ∧
    p.task 0 = some (.admin 0 (.block ⟨some "guest-0", none, 60, "spam"⟩ 0 .pending)) ∧
    (u.conn (Demo.conn 2)).handled = (t.conn (Demo.conn 2)).handled + 2 ∧
    (u.conn (Demo.conn 2)).joined = false ∧
    ∀ o ∈ u.since t.world.journal.length, ∀ m l, o.accepting = some (Demo.conn 2, m, l) →
      (t.conn (Demo.conn 2)).handled < m → l.record.sid = 0 → p.clock + 60 * 60000 ≤ l.now := by
  obtain ⟨p, hp, hP⟩ := exists_reached_free (Demo.env none) Demo.kicked Demo.noon
    (Demo.oneJoined ++ Demo.request 1 "b" ++ Demo.handshake 1 ++ Demo.adminBlocks.take 3)
    (by decide +kernel)
  simp only [Demo.kicked, Demo.turnedAway, Option.any_eq_true, Bool.and_eq_true,
    decide_eq_true_eq, Bool.not_eq_true'] at hP
  obtain ⟨htask, q, hq, s, hs, hn, t, ht, hout, u, hu, hm, hj⟩ := hP
  have hr := Machine.run_of_execs
    (C := fun (x : Sys) l => x.keepsBlock (Demo.env none) 0 (p.clock + 60 * 60000) l = true)
    (fun _ _ hc => hc) hs
  have hr' := Machine.run_of_execs
    (C := fun (x : Sys) l => x.keptOut (Demo.env none) ⟨0, p.clock + 60 * 60000, t.clock + 60000,
      p.clock + 60 * 60000⟩ (Demo.conn 2) l = true) (fun _ _ hc => hc) hu
  exact ⟨p, t, u, hp, htask, hm, hj, (banned_of_reaches hp htask hq rfl hr hn ht rfl
    (Sys.outside_of_isNone hout) hr').1⟩

/-- A `join` that was told that its session is not blocked takes it up after the kick. -/
theorem banned_raced : ∃ s t u : Sys, (system (Demo.env none)).Reaches Free s ∧
    s.world.inFlight[0]? = some (0, .kick 0 0 "spam") ∧
    s.step (Demo.env none) (.deliver 0) = some t ∧ t.world.inFlight = [] ∧ t.task 0 = none ∧
    (∃ ls, (system (Demo.env none)).Run Free t ls u) ∧
    0 < (u.world.store.blockTtl u.clock (.sess 0)).1 ∧
    ∃ o ∈ u.since t.world.journal.length, ∃ m l, o.accepting = some (Demo.conn 2, m, l) ∧
      (t.conn (Demo.conn 2)).handled < m ∧ l.record.sid = 0 := by
  obtain ⟨s, hs, hP⟩ := exists_reached_free (Demo.env none) Demo.slipsThrough Demo.noon
    Demo.joinRaces (by decide +kernel)
  simp only [Demo.slipsThrough, Option.any_eq_true, List.any_eq_true, Bool.and_eq_true,
    decide_eq_true_eq] at hP
  obtain ⟨hn, t, ht, ⟨hfl, htask⟩, u, hu, hb, o, ho, ⟨j, m, l⟩, ha, ⟨rfl, hm⟩, hsid⟩ := hP
  have hr := Machine.run_of_execs (C := Free) (fun _ _ _ => trivial) hu
  exact ⟨s, t, u, hs, hn, ht, hfl, htask, ⟨_, hr⟩, hb, o, ho, m, l, ha, hm, hsid⟩

/-- A run of the theorem: a scripted client is blocked, and a second connection that comes with its
token is turned away by the stored block. -/
theorem paused_bot : ∃ (s t u : Sys) (b : BlockLocals),
    (system (Demo.env none)).Reaches Free s ∧
    s.step (Demo.env none) (.resume (.handler (Demo.conn 1))) = some t ∧
    .blocked (Demo.conn 1) b ∈ t.since s.world.journal.length ∧
    (u.conn (Demo.conn 2)).handled = (t.conn (Demo.conn 2)).handled + 2 ∧
    (u.conn (Demo.conn 2)).joined = false ∧
    ∀ o ∈ u.since t.world.journal.length, ∀ m l, o.accepting = some (Demo.conn 2, m, l) →
      (t.conn (Demo.conn 2)).handled < m → l.record.sid = b.record.sid →
        t.clock + b.ttl ≤ l.now := by
  obtain ⟨p, hp, hP⟩ := exists_reached_free (Demo.env none) Demo.staysPaused Demo.noon
    (botJoined ++ Demo.request 1 "b" ++ Demo.handshake 1 ++ misbehaves.take 8) (by decide +kernel)
  simp only [Demo.staysPaused, Demo.paused, Demo.turnedAway, Option.any_eq_true,
    List.any_eq_true, Bool.and_eq_true, decide_eq_true_eq, Bool.not_eq_true'] at hP
  obtain ⟨b, hb₀, q, hq, s, hs, t, ht, o, ho, ⟨k, b'⟩, hb, rfl, ⟨⟨rfl, hout⟩, hnone⟩, u, hu, hm,
    hj⟩ := hP
  rw [Obs.eq_of_blocking hb] at ho
  have hr := Machine.run_of_execs
    (C := fun (x : Sys) l => x.keepsBlock (Demo.env none) b'.record.sid (p.clock + b'.ttl) l = true)
    (fun _ _ hc => hc) hs
  have hr' := Machine.run_of_execs
    (C := fun (x : Sys) l => x.keptOut (Demo.env none)
      ⟨b'.record.sid, p.clock + b'.ttl, t.clock + 60000, t.clock + b'.ttl⟩ (Demo.conn 2) l = true)
    (fun _ _ hc => hc) hu
  have hst : (system (Demo.env none)).step p
    (.settle (.handler (Demo.conn 1)) .answered false) = some q := hq
  have hs' : (system (Demo.env none)).Reaches Free s :=
    (hp.step trivial hst).run (hr.mono fun _ _ _ => trivial)
  refine ⟨s, t, u, b', hs', ht, ho, hm, hj, (paused_of_reaches hp hb₀ hq rfl hr ht ho ?_
    (Sys.outside_of_isNone hout) hr').1⟩
  intro _ r hrec
  rw [hrec] at hnone
  cases hnone

/-- Another connection of the blocked session goes on sending. -/
theorem paused_other : ∃ (s t u : Sys) (b : BlockLocals),
    (system (Demo.env none)).Reaches Free s ∧
    s.step (Demo.env none) (.resume (.handler (Demo.conn 1))) = some t ∧
    .blocked (Demo.conn 1) b ∈ t.since s.world.journal.length ∧
    (∃ ls, (system (Demo.env none)).Run Free t ls u) ∧
    ∃ o ∈ u.since t.world.journal.length, ∃ m l, o.accepting = some (Demo.conn 2, m, l) ∧
      (t.conn (Demo.conn 2)).handled < m ∧ l.record.sid = b.record.sid ∧
        l.now < t.clock + b.ttl := by
  obtain ⟨s, hs, hP⟩ := exists_reached_free (Demo.env none) Demo.othersSend Demo.noon
    (twoJoined ++ misbehaves) (by decide +kernel)
  simp only [Demo.othersSend, Demo.paused, Option.any_eq_true, List.any_eq_true,
    Bool.and_eq_true, decide_eq_true_eq] at hP
  obtain ⟨t, ht, o, ho, ⟨k, b⟩, hb, rfl, u, hu, o', ho', ⟨j, m, l⟩, ha, ⟨⟨rfl, hm⟩, hsid⟩, hnow⟩ :=
    hP
  rw [Obs.eq_of_blocking hb] at ho
  have hr := Machine.run_of_execs (C := Free) (fun _ _ _ => trivial) hu
  exact ⟨s, t, u, b, hs, ht, ho, ⟨_, hr⟩, o', ho', m, l, ha, hm, hsid, hnow⟩

end RoomBackend
