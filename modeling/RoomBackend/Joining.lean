import RoomBackend.Announcements
import RoomBackend.Deliveries

/-! # Frames around a join

A connection is sent no frame of the room before its `join` has taken up a session. From then on
flushes and presence refreshes reach it, although its history is still to be read and its welcome
to be sent: a message that is read and flushed in between is sent twice. -/

namespace RoomBackend

open Async Day Lts

/-- A connection that waits for its history has joined. -/
def Entered (c : Core) : Prop :=
  ∀ k, awaitsHistory (c.conn k).handler = true → (c.conn k).joined = true

theorem Entered.step {env : Env} {up : ConnKey → Bool} {c c' : Core} {l : Label}
    (h : CoreStep env up c l c') (hI : Entered c) : Entered c' := by
  intro k hw
  have hx := h.conn k
  generalize c'.conn k = x at hx hw ⊢
  cases hx with
  | act hl hh ha =>
      cases ha.roster with
      | same hc hw₁ hw₂ => exact absurd hw (by rw [hw₂]; decide)
      | enter hp ht =>
          rw [Core.enter_conn]
      | welcome hp => cases hw
  | handle hl hk hh ha =>
      cases ha.roster with
      | same hc hw₁ hw₂ => exact absurd hw (by rw [hw₂]; decide)
      | switch hj hnext hr hn hc hw₂ => exact absurd hw (by rw [hw₂]; decide)
  | settled hl hh hs =>
      refine hI k ?_
      rw [hh, ← (Handler.settle_history hs).1]
      exact hw
  | accepted => cases hw
  | _ => exact hI k hw

theorem entered_of_reaches {env : Env} {C : Sys → Label → Prop} {s : Sys}
    (h : (system env).Reaches C s) : Entered s.toCore := by
  refine h.invariant (I := fun s => Entered s.toCore) ?_ fun s l t hI _ hs =>
    hI.step (Sys.coreStep hs)
  rintro s ⟨t, rfl⟩ k hw
  cases hw

/-- A connection that has not joined had not joined before. -/
theorem CoreStep.unjoined {env : Env} {up : ConnKey → Bool} {c c' : Core} {l : Label}
    (h : CoreStep env up c l c') (hB : Born c) {k : ConnKey} (hj : (c'.conn k).joined = false) :
    (c.conn k).joined = false := by
  have hx := h.conn k
  generalize c'.conn k = x at hx hj
  cases hx with
  | act hl hh ha =>
      cases ha.roster with
      | same hc => exact (congrArg (fun d => (d.conn k).joined) hc).symm.trans hj
      | enter hp ht =>
          rw [Core.enter_conn] at hj
          cases hj
      | welcome hp =>
          rw [Core.announce_conn] at hj
          exact hj
  | handle hl hk hh ha =>
      cases ha.roster with
      | same hc =>
          exact (congrArg (fun d => (d.conn k).joined) (hc.trans (Core.roster_take c k))).symm.trans
            hj
      | switch hj' hnext hr hn hc =>
          have hs : ((c.take k).conn k).joined = false :=
            (congrArg (fun d => (d.conn k).joined) hc).symm.trans hj
          rw [hs] at hj'
          cases hj'
  | accepted hl hk =>
      rw [hk, hB.next]
      rfl
  | _ => exact hj

namespace Sys

variable {env : Env} {s t u : Sys} {l : Label}

/-- A connection that has not joined was sent private frames only. -/
def Reserved (s : Sys) : Prop :=
  ∀ k, (s.conn k).joined = false → ∀ e ∈ (s.side k).socket.sent, e.shared = false

theorem Reserved.step (hI : s.Reserved) (hP : s.Polite) (hE : Entered s.toCore)
    (hR : Renewals s.toCore) (hB : Born s.toCore) (h : s.step env l = some t) : t.Reserved := by
  intro k hj e he
  have hun := (coreStep h).unjoined hB hj
  rcases step_sides hP h k with hm | ⟨n, u, -, -, -, hm⟩
  · obtain ⟨es, hes, hH⟩ := hm.sent
    rw [hes] at he
    rcases List.mem_append.mp he with he | he
    · exact hI k hun e he
    · have hjoined : e.shared = true → (s.conn k).joined = true := by
        intro hsh
        cases hH e he with
        | own h =>
            rw [h] at hsh
            cases hsh
        | welcome hl hh hq he =>
            refine hE k ?_
            rw [hh]
            rfl
        | reset hl hp he => exact ((hR.fits k).renewing _ hp).1
        | presence hl hj he => exact hj
        | flush hl hb hr he =>
            unfold Core.receives at hr
            exact (Bool.and_eq_true _ _ ▸ hr).1
      by_contra hsh
      have := hjoined (by simpa using hsh)
      rw [hun] at this
      cases this
  · obtain ⟨es, hes, hH⟩ := hm.sent
    rw [hes] at he
    exact hH e he

theorem reserved_of_reaches {C : Sys → Label → Prop} (h : (system env).Reaches C s) :
    s.Reserved := by
  refine h.invariant_of (J := fun s => (s.Polite ∧ Entered s.toCore) ∧ Renewals s.toCore ∧
    Born s.toCore) (I := Reserved) ?_ ?_ ?_
  · exact fun s hs => ⟨⟨polite_of_reaches hs, entered_of_reaches hs⟩, renewals_of_reaches hs,
      born_of_reaches hs⟩
  · rintro s ⟨t, rfl⟩ k - e he
    cases he
  · rintro s l t ⟨⟨hP, hE⟩, hR, hB⟩ hI - hs
    exact hI.step hP hE hR hB hs

/-! ### Messages that are still to come -/

/-- The message may still reach the connections of instance `i` live: it is not published yet,
or on its way there. -/
def Awaited (s : Sys) (i : InstanceId) (x : MsgId) : Prop :=
  (∃ j, s.bears j = some x) ∨ 0 < s.due i x

/-- A message that was accepted, is not awaited and was not shown is never shown. -/
theorem unshown_step (hP : s.Polite) (hS : Seats s.toCore) (hM : s.Manned)
    (hSub : Subscribed s.toCore) (h : s.step env l = some t) {k : ConnKey} {x : MsgId}
    (hx : s.Drawn env x) (hb : ∀ j, s.bears j ≠ some x) (hc : s.copies k x = 0) :
    t.Drawn env x ∧ (∀ j, t.bears j ≠ some x) ∧ t.copies k x = 0 := by
  have hcs := coreStep h
  obtain ⟨d, hd, hxd⟩ := hx
  refine ⟨⟨d, hd.trans_le hcs.draws_le, hxd⟩, fun j hj => ?_, ?_⟩
  · rcases hcs.bears hj with hj | ⟨-, hj, -⟩
    · exact hb j hj
    · rw [hxd] at hj
      exact absurd (env.newMessageId_injective hj) hd.ne
  · rcases copies_step hP hS hM hSub h k x with hle | ⟨⟨j, o, v, -, hj, -⟩, -⟩
    · omega
    · exact absurd hj (hb j)

theorem awaited_of_shown (h : (system env).Reaches Free s) {ls : List Label}
    (hr : (system env).Run Free s ls u) {k : ConnKey} (hj : (s.conn k).joined = false)
    {m : ChatMessage} (hm : m ∈ (u.side k).lives) (hd : s.Drawn env m.id) :
    s.Awaited k.inst m.id := by
  by_contra hna
  obtain ⟨hb, hdue⟩ := not_or.mp hna
  have hlives : (s.side k).lives = [] :=
    List.flatMap_eq_nil_iff.mpr fun e he =>
      ServerEvent.live_of_private (reserved_of_reaches h k hj e he)
  have hcopies : s.copies k m.id = 0 := by
    unfold copies Side.shown
    rw [hlives]
    simpa using hdue
  have hend : u.Drawn env m.id ∧ (∀ j, u.bears j ≠ some m.id) ∧ u.copies k m.id = 0 := by
    refine h.preserves (I := fun s : Sys => s.Drawn env m.id ∧ (∀ j, s.bears j ≠ some m.id) ∧
      s.copies k m.id = 0) hr (fun _ _ hC => hC) ?_ ⟨hd, fun j hj => hb ⟨j, hj⟩, hcopies⟩
    rintro s l t hs ⟨hd, hb, hc⟩ - he
    exact unshown_step (polite_of_reaches hs) (seats_of_reaches hs) (manned_of_reaches hs)
      (subscribed_of_reaches hs) he hd hb hc
  obtain ⟨-, -, hzero⟩ := hend
  have hpos : 0 < (u.side k).shown m.id :=
    List.countP_pos_iff.mpr ⟨m, hm, decide_eq_true rfl⟩
  unfold copies at hzero
  omega

theorem lives_nodup (h : (system env).Reaches Free s) (k : ConnKey) :
    ((s.side k).lives.map ChatMessage.id).Nodup := by
  refine List.nodup_iff_count_le_one.mpr fun x => ?_
  have hle := (ledger_of_reaches h).once k x
  have hcount : ((s.side k).lives.map ChatMessage.id).count x = (s.side k).shown x := by
    rw [List.count, List.countP_map]
    exact List.countP_congr fun m _ => by simp
  unfold copies at hle
  omega

end Sys

/-- **Joining**: a connection is sent no frame of the room before its `join` has taken up a
session, and no message live twice. As long as it has not joined, every message it will be sent
live is still to be accepted, or still to be published, or on its way to its server: a message of
the history of its welcome that was not is not sent to it again. -/
theorem joining_of_reaches {env : Env} {s : Sys} (h : (system env).Reaches Free s)
    (k : ConnKey) :
    ((s.conn k).joined = false → ∀ e ∈ (s.side k).socket.sent, e.shared = false) ∧
    ((s.side k).lives.map ChatMessage.id).Nodup ∧
    ∀ (ls : List Label) (u : Sys), (system env).Run Free s ls u → (s.conn k).joined = false →
      ∀ m ∈ (u.side k).lives, s.Drawn env m.id → s.Awaited k.inst m.id :=
  ⟨Sys.reserved_of_reaches h k, Sys.lives_nodup h k,
    fun _ _ hr hj _ hm hd => Sys.awaited_of_shown h hr hj hm hd⟩

namespace Demo

/-- A second client is accepted, and a message of the first is on its way. -/
def arriving : List Label :=
  oneJoined ++ request 1 "b" ++ handshake 1 ++ sent (conn 1) "hello"

/-- The second client joins, and the message is flushed. -/
def arrives : List Label := joined (conn 2) ++ [.deliver 0, .flush 0]

/-- The second client has joined and waits for its history while a message of the first is
accepted, delivered and flushed. -/
def overtaken : List Label :=
  oneJoined ++ request 1 "b" ++ handshake 1 ++ joinChecked (conn 2) ++
    [.resume (.handler (conn 2))] ++ sent (conn 1) "hello" ++ [.deliver 0, .flush 0] ++
    turns (conn 2) 1

/-- The room frames of the second client: a live message, and a welcome whose history holds it. -/
def toldTwice (s : Sys) : Bool :=
  match (s.side (conn 2)).socket.sent.filter ServerEvent.shared with
  | [.message m, .welcome _ _ _ _ _ history _ _] => decide (history = [m])
  | _ => false

end Demo

/-- A message that a joining client is sent live was on its way when it joined. -/
theorem joining_hello : ∃ s u : Sys, (system (Demo.env none)).Reaches Free s ∧
    (s.conn (Demo.conn 2)).joined = false ∧
    ∃ m ∈ (u.side (Demo.conn 2)).lives, s.Awaited 0 m.id := by
  obtain ⟨s, hs, hP⟩ := exists_reached_free (Demo.env none)
    (fun s => decide ((s.conn (Demo.conn 2)).joined = false) &&
      ((system (Demo.env none)).execs (fun _ _ => true) s Demo.arrives).any fun u : Sys =>
        (u.side (Demo.conn 2)).lives.any fun m => decide (∃ d < s.draws, m.id = d))
    Demo.noon Demo.arriving (by decide +kernel)
  simp only [Bool.and_eq_true, Option.any_eq_true, List.any_eq_true, decide_eq_true_eq] at hP
  obtain ⟨hj, u, hu, m, hm, hd⟩ := hP
  have hr := Machine.run_of_execs (C := Free) (fun _ _ _ => trivial) hu
  exact ⟨s, u, hs, hj, m, hm, (joining_of_reaches hs (Demo.conn 2)).2.2 _ u hr hj m hm hd⟩

/-- The first room frame of a client that joins is a message, not its welcome, and the history
of the welcome holds that message again. -/
theorem joining_twice : ∃ s, (system (Demo.env none)).Reaches Free s ∧ s.clock = Demo.noon ∧
    ∃ (m : ChatMessage) (identity : Identity) (day dayEndsAt serverTime online : ℤ)
      (resume : Token) (maxLength : ℕ),
      (s.side (Demo.conn 2)).socket.sent.filter ServerEvent.shared = [.message m,
        .welcome identity day dayEndsAt serverTime online [m] resume maxLength] := by
  obtain ⟨s, hs, hP⟩ := exists_reached_free (Demo.env none)
    (fun s => decide (s.clock = Demo.noon) && Demo.toldTwice s) Demo.noon Demo.overtaken
    (by decide +kernel)
  obtain ⟨hclock, htold⟩ := Bool.and_eq_true _ _ ▸ hP
  unfold Demo.toldTwice at htold
  split at htold
  · rename_i m identity day dayEndsAt serverTime online history resume maxLength heq
    rw [of_decide_eq_true htold] at heq
    exact ⟨s, hs, of_decide_eq_true hclock, m, identity, day, dayEndsAt, serverTime, online, resume,
      maxLength, heq⟩
  · cases htold

end RoomBackend
