import Mathlib.Data.List.Nodup
import RoomBackend.Fanout
import RoomBackend.Lifetimes

/-! # Each message is sent live at most once

A message that was given an id is borne by one handler until it is published. Then there is at
most one copy of it for each connection: in flight to its instance, in the outbox there, or in a
frame it was sent. Every step moves copies on or drops them, and only a publish makes them. -/

namespace RoomBackend

open Async Day Lts

/-! ### Borne messages -/

/-- The id of a message that was accepted and is not published yet. -/
def Handler.bears : Handler → Option MsgId
  | .send (.append _ _ m _) => some m.id
  | .send (.publish _ _ m .pending) => some m.id
  | _ => none

/-- The message connection `k` is about to publish. -/
def Core.bears (c : Core) (k : ConnKey) : Option MsgId := (c.conn k).handler.bind Handler.bears

theorem Handler.settle_bears {env : Env} {now : ℤ} {v : Bool} {k : ConnKey} {n : ℕ}
    {info : AdmitInfo} {o : Outcome} {h h' : Handler} {w w' : World} {x : MsgId}
    (hs : h.settle env now v k n info o w = some (h', w')) (hx : h'.bears = some x) :
    h.bears = some x := by
  cases h with
  | send p =>
      obtain ⟨⟨p', w₁⟩, hp, he⟩ := Option.map_eq_some_iff.mp hs
      obtain ⟨rfl, rfl⟩ := Prod.mk.inj he
      cases p with
      | reply => cases hp
      | publish l room m q =>
          obtain ⟨⟨q', w₂⟩, hr, he⟩ := Option.map_eq_some_iff.mp hp
          obtain ⟨rfl, rfl⟩ := Prod.mk.inj he
          cases q with
          | pending =>
              cases q' with
              | pending => exact hx
              | _ => cases hx
          | fulfilled => cases hr
          | rejected => cases hr
      | append l room m q =>
          obtain ⟨r, hr, he⟩ := Option.map_eq_some_iff.mp hp
          obtain ⟨rfl, rfl⟩ := Prod.mk.inj he
          exact hx
      | _ =>
          obtain ⟨r, hr, he⟩ := Option.map_eq_some_iff.mp hp
          obtain ⟨rfl, rfl⟩ := Prod.mk.inj he
          cases hx
  | join p =>
      obtain ⟨r, hr, he⟩ := Option.map_eq_some_iff.mp hs
      obtain ⟨rfl, rfl⟩ := Prod.mk.inj he
      cases hx
  | challenge p =>
      obtain ⟨r, hr, he⟩ := Option.map_eq_some_iff.mp hs
      obtain ⟨rfl, rfl⟩ := Prod.mk.inj he
      cases hx
  | report p =>
      obtain ⟨r, hr, he⟩ := Option.map_eq_some_iff.mp hs
      obtain ⟨rfl, rfl⟩ := Prod.mk.inj he
      cases hx

/-- A stretch of a handler bears the message it bore, or one with a new id. -/
theorem Act.bears {env : Env} {k : ConnKey} {up : Bool} {c c₁ : Core} {h h' : Option Handler}
    (ha : Act env k up c h c₁ h') {x : MsgId} (hx : h'.bind Handler.bears = some x) :
    h.bind Handler.bears = some x ∨
      h ≠ none ∧ x = env.newMessageId c.draws ∧ c₁.draws = c.draws + 1 := by
  cases ha with
  | sendAccept =>
      obtain rfl := Option.some.inj hx
      exact Or.inr ⟨by simp, rfl, rfl⟩
  | appendDone => exact Or.inl hx
  | _ => cases hx

/-- A connection bears the message it bore, or one that was given its id in this step. -/
theorem CoreStep.bears {env : Env} {up : ConnKey → Bool} {c c' : Core} {l : Label}
    (h : CoreStep env up c l c') {k : ConnKey} {x : MsgId} (hx : c'.bears k = some x) :
    c.bears k = some x ∨
      l = .resume (.handler k) ∧ x = env.newMessageId c.draws ∧ c'.draws = c.draws + 1 := by
  by_cases hl : l = .resume (.handler k)
  · subst hl
    cases h with
    | same => exact Or.inl hx
    | @act k h₀ c₁ h' hh ha =>
        unfold Core.bears at hx ⊢
        rw [Core.setHandler_conn] at hx
        rw [hh]
        rcases ha.bears hx with hb | ⟨-, hb, hd⟩
        · exact Or.inl hb
        · exact Or.inr ⟨rfl, hb, hd⟩
  · refine Or.inl ?_
    have hc := h.conn k
    unfold Core.bears at hx ⊢
    generalize c'.conn k = y at hc hx
    cases hc with
    | act hl' => exact absurd hl' hl
    | handle hl' hk hh ha =>
        rcases ha.bears hx with hb | ⟨hne, -⟩
        · cases hb
        · exact absurd rfl hne
    | settled hl' hh hs =>
        rw [hh]
        exact Handler.settle_bears hs hx
    | accepted => cases hx
    | _ => exact hx

/-! ### Copies -/

/-- The event carries the message with the given id. -/
def BusEvent.carries (x : MsgId) : BusEvent → Bool
  | .message m => decide (m.message.id = x)
  | .kick _ _ _ => false

/-- The copies of a message in flight to instance `i`. -/
def World.flying (w : World) (i : InstanceId) (x : MsgId) : ℕ :=
  w.inFlight.countP fun e => decide (e.1 = i) && e.2.carries x

/-- The copies of a message in the outbox of instance `i`. -/
def Core.boxed (c : Core) (i : InstanceId) (x : MsgId) : ℕ :=
  (c.srv i).outbox.countP fun m => decide (m.message.id = x)

/-- The copies of a message on their way to the connections of instance `i`. -/
def Core.due (c : Core) (i : InstanceId) (x : MsgId) : ℕ := c.world.flying i x + c.boxed i x

/-- The copies of a message a connection was sent live. -/
def Side.shown (d : Side) (x : MsgId) : ℕ := d.lives.countP fun m => decide (m.id = x)

/-- No instance is subscribed twice, and those that are have started. -/
structure Subscribed (c : Core) : Prop where
  nodup : c.world.subscribers.Nodup
  started : ∀ i ∈ c.world.subscribers, (c.srv i).started = true

theorem Effect.subscribers {env : Env} {c : Core} {th : Thread} {w : World}
    (h : Effect env c th w) : w.subscribers = c.world.subscribers := by
  cases h <;> rfl

theorem CoreStep.subscribers {env : Env} {up : ConnKey → Bool} {c c' : Core} {l : Label}
    (h : CoreStep env up c l c') : c'.world.subscribers = c.world.subscribers ∨
      (∃ i, (c.srv i).started = false ∧ (c'.srv i).started = true ∧
        c'.world.subscribers = c.world.subscribers ++ [i]) ∨
      ∃ i, c'.world.subscribers = c.world.subscribers.filter (· ≠ i) := by
  have settled : ∀ {th : Thread} {o : Outcome} {w : World}, Settles env c th o w →
      w.subscribers = c.world.subscribers := by
    rintro th o w (⟨-, rfl⟩ | ⟨-, he⟩)
    · rfl
    · exact he.subscribers
  cases h with
  | @start i hs =>
      refine Or.inr (Or.inl ⟨i, hs, ?_, rfl⟩)
      unfold Core.start
      dsimp only
      rw [Core.updSrv_srv]
  | @stopEnd i => exact Or.inr (Or.inr ⟨i, rfl⟩)
  | settle hs => exact Or.inl (settled (Core.settles hs))
  | @settleChore n o v b b' w hs =>
      exact Or.inl (settled (show Settles env c (.chore n) o w from Chore.settles hs))
  | act hh ha =>
      obtain ⟨log, -, hw⟩ := ha.world
      have hsub := congrArg World.subscribers hw
      exact Or.inl hsub
  | handle hk hh ha =>
      obtain ⟨log, -, hw⟩ := ha.world
      have hsub := congrArg World.subscribers hw
      exact Or.inl hsub
  | rollover hp hprev hm => cases hm <;> exact Or.inl rfl
  | reset hp hm =>
      rw [hm.frame]
      exact Or.inl rfl
  | tick =>
      rw [Core.checkRoom_frame]
      exact Or.inl rfl
  | message =>
      unfold Core.onMessage
      split <;> exact Or.inl rfl
  | _ => exact Or.inl rfl

theorem subscribed_of_reaches {env : Env} {C : Sys → Label → Prop} {s : Sys}
    (h : (system env).Reaches C s) : Subscribed s.toCore := by
  refine h.invariant (I := fun s => Subscribed s.toCore) ?_ ?_
  · rintro s ⟨t, rfl⟩
    exact ⟨List.nodup_nil, fun i hi => absurd hi List.not_mem_nil⟩
  · rintro s l t ⟨hn, hst⟩ - hs
    have hc := Sys.coreStep hs
    have hkeep : ∀ i ∈ s.world.subscribers, (t.srv i).started = true :=
      fun i hi => (hc.srv i).started (hst i hi)
    rcases hc.subscribers with he | ⟨i, hi, hti, he⟩ | ⟨i, he⟩
    · constructor
      · rw [he]
        exact hn
      · rw [he]
        exact hkeep
    · have hni : i ∉ s.world.subscribers := by
        intro hm
        rw [hst i hm] at hi
        cases hi
      constructor
      · rw [he]
        exact List.nodup_append.mpr ⟨hn, List.nodup_singleton i, fun a ha b hb =>
          fun hab => hni (List.mem_singleton.mp hb ▸ hab ▸ ha)⟩
      · rw [he]
        intro j hj
        rcases List.mem_append.mp hj with hj | hj
        · exact hkeep j hj
        · rw [List.mem_singleton.mp hj]
          exact hti
    · constructor
      · rw [he]
        exact hn.filter _
      · rw [he]
        exact fun j hj => hkeep j (List.mem_of_mem_filter hj)

/-! ### What a step makes of the copies -/

/-- Publishing a message makes at most one copy for each instance. -/
theorem World.flying_publish (w : World) (hn : w.subscribers.Nodup) (i : InstanceId) (x : MsgId)
    (e : BusEvent) :
    (w.publish e).2.flying i x ≤ w.flying i x + if e.carries x then 1 else 0 := by
  unfold World.flying World.publish
  rw [List.countP_append, List.countP_map]
  refine Nat.add_le_add_left ?_ _
  by_cases he : e.carries x = true
  · rw [if_pos he]
    have hcount : (w.subscribers.countP fun j => decide (j = i)) ≤ 1 := by
      have hle := List.nodup_iff_count_le_one.mp hn i
      rw [List.count] at hle
      refine le_trans (le_of_eq (List.countP_congr fun j _ => ?_)) hle
      simp
    refine le_trans (le_of_eq (List.countP_congr fun j _ => ?_)) hcount
    simp [he]
  · rw [if_neg he]
    refine le_of_eq (List.countP_eq_zero.mpr fun j _ => ?_)
    simp [he]

theorem Promise.settled_ne_pending {α ω : Type} {p p' : Promise α} {f : ω → α × ω} {o : Outcome}
    {w w' : ω} (h : p.settle f o w = some (p', w')) : p' ≠ .pending := by
  cases p with
  | pending =>
      cases o <;>
      · obtain ⟨rfl, rfl⟩ := Prod.mk.inj (Option.some.inj h)
        intro he
        cases he
  | _ => cases h

/-- The publish of a message is settled: its handler bears it before the step and not after. -/
def Publishes (c : Core) (l : Label) (c' : Core) (x : MsgId) : Prop :=
  ∃ k o v, l = .settle (.handler k) o v ∧ c.bears k = some x ∧ c'.bears k = none

theorem Core.publishes {env : Env} {c c' : Core} {k : ConnKey} {o : Outcome} {v : Bool}
    {l : SendLocals} {room : DailyRoom} {m : StoredMessage}
    (h : c.settle env o v (.handler k) = some c')
    (hh : (c.conn k).handler = some (.send (.publish l room m .pending))) :
    Publishes c (.settle (.handler k) o v) c' m.id := by
  refine ⟨k, o, v, rfl, ?_, ?_⟩
  · unfold Core.bears
    rw [hh]
    rfl
  · obtain ⟨h₀, hh', hs⟩ := Option.bind_eq_some_iff.mp h
    obtain rfl := Option.some.inj (hh.symm.trans hh')
    obtain ⟨⟨h', w⟩, hr, rfl⟩ := Option.map_eq_some_iff.mp hs
    obtain ⟨⟨p', w₁⟩, hp, he⟩ := Option.map_eq_some_iff.mp hr
    obtain ⟨rfl, rfl⟩ := Prod.mk.inj he
    obtain ⟨⟨q, w₂⟩, hq, he⟩ := Option.map_eq_some_iff.mp hp
    obtain ⟨rfl, rfl⟩ := Prod.mk.inj he
    unfold Core.bears Core.suspend
    rw [Core.setHandler_conn]
    cases q with
    | pending => exact absurd rfl (Promise.settled_ne_pending hq)
    | _ => rfl

/-- Only a publish adds to the copies in flight. -/
theorem CoreStep.flying {env : Env} {up : ConnKey → Bool} {c c' : Core} {l : Label}
    (h : CoreStep env up c l c') (hS : Subscribed c) (i : InstanceId) (x : MsgId) :
    c'.world.flying i x ≤ c.world.flying i x ∨
      Publishes c l c' x ∧ c'.world.flying i x ≤ c.world.flying i x + 1 := by
  have quiet : ∀ {w : World}, w.inFlight = c.world.inFlight →
      w.flying i x ≤ c.world.flying i x := by
    intro w hw
    unfold World.flying
    rw [hw]
  have drop : ∀ {n : ℕ}, (c.receive n).world.flying i x ≤ c.world.flying i x := fun {n} =>
    (List.eraseIdx_sublist c.world.inFlight n).countP_le
  -- an operation that publishes no message
  have settled : ∀ {th : Thread} {w : World}, Effect env c th w →
      w.flying i x ≤ c.world.flying i x ∨
        ∃ k l' room m, th = .handler k ∧ m.id = x ∧
          (c.conn k).handler = some (.send (.publish l' room m .pending)) ∧
          w.flying i x ≤ c.world.flying i x + 1 := by
    intro th w he
    cases he with
    | kick j sid reason =>
        exact Or.inl (World.flying_publish c.world hS.nodup i x _)
    | @publish k l' room m ht hh =>
        have hp := World.flying_publish c.world hS.nodup i x (.message (busMessage k room m))
        by_cases hm : m.id = x
        · refine Or.inr ⟨k, l', room, m, ht, hm, hh, le_trans hp ?_⟩
          split <;> omega
        · refine Or.inl (le_trans hp ?_)
          rw [if_neg]
          · exact le_refl _
          · exact fun he => hm (of_decide_eq_true he)
    | _ => exact Or.inl (quiet rfl)
  cases h with
  | @settle th o v c' hs =>
      rcases Core.settles hs with ⟨-, hw⟩ | ⟨-, he⟩
      · exact Or.inl (quiet (congrArg World.inFlight hw))
      · rcases settled he with hle | ⟨k, l', room, m, rfl, rfl, hh, hle⟩
        · exact Or.inl hle
        · exact Or.inr ⟨Core.publishes hs hh, hle⟩
  | @settleChore n o v b b' w hs =>
      rcases (show Settles env c (.chore n) o w from Chore.settles hs) with ⟨-, hw⟩ | ⟨-, he⟩
      · exact Or.inl (quiet (congrArg World.inFlight hw))
      · rcases settled he with hle | ⟨k, l', room, m, hth, -⟩
        · exact Or.inl hle
        · cases hth
  | act hh ha =>
      obtain ⟨log, -, hw⟩ := ha.world
      have hin := congrArg World.inFlight hw
      exact Or.inl (quiet hin)
  | handle hk hh ha =>
      obtain ⟨log, -, hw⟩ := ha.world
      have hin := congrArg World.inFlight hw
      exact Or.inl (quiet hin)
  | rollover hp hprev hm => cases hm <;> exact Or.inl (quiet rfl)
  | reset hp hm =>
      rw [hm.frame]
      exact Or.inl (quiet rfl)
  | tick =>
      rw [Core.checkRoom_frame]
      exact Or.inl (quiet rfl)
  | @message n j m =>
      refine Or.inl (le_trans (le_of_eq ?_) (drop (n := n)))
      unfold Core.onMessage
      split <;> rfl
  | kick => exact Or.inl drop
  | _ => exact Or.inl (quiet rfl)

/-- An event that arrives leaves the copies in flight. -/
theorem Core.flying_receive {c : Core} {n : ℕ} {i : InstanceId} {e : BusEvent} {x : MsgId}
    (hn : c.world.inFlight[n]? = some (i, e)) (hx : e.carries x = true) :
    (c.receive n).world.flying i x + 1 = c.world.flying i x := by
  obtain ⟨hlt, hget⟩ := List.getElem?_eq_some_iff.mp hn
  have hp := (List.getElem_cons_eraseIdx_perm hlt).countP_eq
    fun e : InstanceId × BusEvent => decide (e.1 = i) && e.2.carries x
  rw [List.countP_cons, hget, if_pos (by simp [hx])] at hp
  exact hp

/-- A socket that is not open is sent nothing. -/
theorem Side.Moves.sent_of_not_opened {P : ServerEvent → Prop} {L : Limiter → Limiter → Prop}
    {x y : Side} (h : Moves P L x y) (ho : x.socket.state ≠ .opened) :
    y.socket.sent = x.socket.sent := by
  induction h with
  | refl => rfl
  | @send y e h he ih =>
      have hy : y.socket.state ≠ .opened := fun hy => ho (h.opened hy)
      rw [← ih]
      unfold Socket.sendRaw
      rw [if_pos hy]
  | shut h hs hz ih => exact hs.trans ih
  | other h hs hr hl ih => exact (congrArg Socket.sent hs).trans ih

namespace Sys

variable {env : Env} {s t : Sys} {l : Label}

/-- A flush sends a connection each copy in the batch at most once. -/
theorem fanSide_shown (s : Sys) (k : ConnKey) (x : MsgId) :
    (fanSide (s.batch k.inst) k.inst k s.toCore (s.side k)).shown x ≤
      (s.side k).shown x + s.boxed k.inst x := by
  unfold fanSide
  split
  · cases hf : flushFrame (s.batch k.inst) k with
    | none => exact Nat.le_add_right _ _
    | some e =>
        have hlive : e.live = ((s.batch k.inst).filter fun m => decide (m.exclude ≠ some k)).map
            BusMessage.message := by
          rw [← flushFrame_live, hf]
          rfl
        have hcount : (e.live.countP fun m => decide (m.id = x)) ≤ s.boxed k.inst x := by
          rw [hlive, List.countP_map]
          exact (List.filter_sublist.trans List.filter_sublist).countP_le
        unfold Side.shown Side.lives
        dsimp only
        unfold Socket.sendRaw
        split
        · exact Nat.le_add_right _ _
        · split
          · rw [Socket.terminate_sent]
            exact Nat.le_add_right _ _
          · dsimp only
            rw [List.flatMap_append, List.countP_append]
            simpa using hcount
  · exact Nat.le_add_right _ _

/-- A flush takes the copies out of the outbox. -/
theorem due_flush {i : InstanceId} (h : s.step env (.flush i) = some t) (x : MsgId) :
    t.due i x + s.boxed i x = s.due i x := by
  obtain rfl := Option.some.inj (Option.ite_none_right_eq_some.mp h).2
  have hcore := s.toCore_flushOutbox i
  have hw : (s.toCore.flushOutbox i).boxed i x = 0 := by
    unfold Core.boxed Core.flushOutbox
    dsimp only
    rw [Core.updSrv_srv]
    rfl
  have hf : (s.toCore.flushOutbox i).world.flying i x = s.world.flying i x := rfl
  unfold Core.due
  rw [hcore, hw, hf, Nat.add_zero]

/-- Copies on their way to an instance arrive in its outbox or are made by a publish. -/
theorem due_step (h : s.step env l = some t) (hS : Subscribed s.toCore) (i : InstanceId)
    (x : MsgId) : t.due i x ≤ s.due i x ∨
      Publishes s.toCore l t.toCore x ∧ l ≠ .flush i ∧ t.due i x ≤ s.due i x + 1 := by
  by_cases hl : l = .flush i
  · subst hl
    have := due_flush h x
    exact Or.inl (by omega)
  by_cases hd : ∃ n j m, l = .deliver n ∧ s.world.inFlight[n]? = some (j, BusEvent.message m)
  · obtain ⟨n, j, m, rfl, hn⟩ := hd
    refine Or.inl ?_
    obtain ⟨e, he, rfl⟩ := Option.map_eq_some_iff.mp h
    obtain rfl : e = (j, .message m) := Option.some.inj (he.symm.trans hn)
    obtain ⟨-, hout⟩ := onMessage_outbox (s.toCore.receive n) j i m
    have hf : ((s.toCore.receive n).onMessage j m).world.flying i x =
        (s.toCore.receive n).world.flying i x := by
      unfold Core.onMessage
      split <;> rfl
    have hdrop : (s.toCore.receive n).world.flying i x ≤ s.world.flying i x :=
      (List.eraseIdx_sublist s.world.inFlight n).countP_le
    have hw : ((s.toCore.receive n).onMessage j m).boxed i x ≤
        s.boxed i x + if j = i ∧ m.message.id = x then 1 else 0 := by
      unfold Core.boxed
      rw [hout]
      split
      · rename_i hj
        rw [List.countP_append, List.countP_singleton]
        refine Nat.add_le_add_left ?_ _
        simp [hj.1]
      · exact Nat.le_add_right _ _
    show ((s.toCore.receive n).onMessage j m).world.flying i x +
      ((s.toCore.receive n).onMessage j m).boxed i x ≤ s.world.flying i x + s.boxed i x
    rw [hf]
    by_cases hx : j = i ∧ m.message.id = x
    · have hrec := Core.flying_receive (c := s.toCore) (e := .message m) (x := x)
        (hx.1 ▸ hn) (decide_eq_true hx.2)
      rw [if_pos hx] at hw
      omega
    · rw [if_neg hx] at hw
      omega
  · have hc := coreStep h
    have hout := (outbox_kept (hc.srv i) hl fun n m hl' hn => hd ⟨n, i, m, hl', hn⟩).1
    have hw : t.boxed i x = s.boxed i x := by
      unfold Core.boxed
      rw [hout]
    unfold Core.due
    rw [hw]
    rcases hc.flying hS i x with hf | ⟨hp, hf⟩
    · exact Or.inl (by omega)
    · exact Or.inr ⟨hp, hl, by omega⟩

/-- What a connection is sent live comes out of the outbox. -/
theorem shown_step (hP : s.Polite) (hS : Seats s.toCore) (hM : s.Manned)
    (h : s.step env l = some t) (k : ConnKey) (x : MsgId) :
    (t.side k).shown x ≤ (s.side k).shown x ∨
      l = .flush k.inst ∧ (t.side k).shown x ≤ (s.side k).shown x + s.boxed k.inst x := by
  by_cases hl : l = .flush k.inst
  · subst hl
    refine Or.inr ⟨rfl, ?_⟩
    obtain rfl := Option.some.inj (Option.ite_none_right_eq_some.mp h).2
    by_cases hb : s.batch k.inst = []
    · have hside : (s.flushOutbox k.inst).side k = s.side k := by
        unfold flushOutbox
        dsimp only
        rw [if_pos hb]
        rfl
      rw [hside]
      exact Nat.le_add_right _ _
    by_cases ho : s.Opened k
    · rw [flush_side (hS.nodup _) (listed_of_opened hS hM ho) hb]
      exact s.fanSide_shown k x
    · rcases step_sides hP h k with hm | ⟨n, u, hl, -⟩
      · unfold Side.shown Side.lives
        rw [hm.sent_of_not_opened ho]
        exact Nat.le_add_right _ _
      · cases hl
  · refine Or.inl ?_
    unfold Side.shown
    rcases step_sides hP h k with hm | ⟨n, u, -, -, -, hm⟩
    · rw [hm.lives fun e he => ?_]
      cases he with
      | own he => exact ServerEvent.live_of_private he
      | welcome hl' hh hq he =>
          subst he
          rfl
      | reset hl' hp he =>
          subst he
          rfl
      | presence hl' hj he =>
          subst he
          rfl
      | flush hl' => exact absurd hl' hl
    · rw [hm.lives fun e he => ServerEvent.live_of_private he]
      exact Nat.zero_le _

/-! ### The ledger -/

/-- The copies of a message for a connection: on their way, or sent to it live. -/
def copies (s : Sys) (k : ConnKey) (x : MsgId) : ℕ := s.due k.inst x + (s.side k).shown x

theorem copies_step (hP : s.Polite) (hS : Seats s.toCore) (hM : s.Manned)
    (hSub : Subscribed s.toCore) (h : s.step env l = some t) (k : ConnKey) (x : MsgId) :
    t.copies k x ≤ s.copies k x ∨
      Publishes s.toCore l t.toCore x ∧ t.copies k x ≤ s.copies k x + 1 := by
  unfold copies
  rcases shown_step hP hS hM h k x with hsh | ⟨rfl, hsh⟩
  · rcases due_step h hSub k.inst x with hd | ⟨hp, -, hd⟩
    · exact Or.inl (by omega)
    · exact Or.inr ⟨hp, by omega⟩
  · have := due_flush h x
    exact Or.inl (by omega)

/-- The id was drawn before. -/
def Drawn (env : Env) (s : Sys) (x : MsgId) : Prop := ∃ d < s.draws, x = env.newMessageId d

/-- A message is borne by one handler and has no copies, or it is borne by none and has at most
one copy for each connection. -/
structure Ledger (env : Env) (s : Sys) : Prop where
  borne : ∀ j x, s.bears j = some x → s.Drawn env x
  drawn : ∀ k x, 0 < s.copies k x → s.Drawn env x
  alone : ∀ j j' x, s.bears j = some x → s.bears j' = some x → j = j'
  apart : ∀ j k x, s.bears j = some x → s.copies k x = 0
  once : ∀ k x, s.copies k x ≤ 1

theorem Drawn.new {d : ℕ} (h : s.Drawn env (env.newMessageId d)) : d < s.draws := by
  obtain ⟨d', hd, he⟩ := h
  rw [env.newMessageId_injective he]
  exact hd

theorem Ledger.step (hI : s.Ledger env) (hP : s.Polite) (hS : Seats s.toCore) (hM : s.Manned)
    (hSub : Subscribed s.toCore) (h : s.step env l = some t) : t.Ledger env := by
  have hc := coreStep h
  have mono : ∀ {x}, s.Drawn env x → t.Drawn env x := fun ⟨d, hd, hx⟩ =>
    ⟨d, hd.trans_le hc.draws_le, hx⟩
  have hcopies := copies_step hP hS hM hSub h
  -- a published message was borne by the handler that published it, and has no copies yet
  have hpub : ∀ {k x}, 0 < t.copies k x → 0 < s.copies k x ∨
      Publishes s.toCore l t.toCore x ∧ s.copies k x = 0 := by
    intro k x hpos
    rcases hcopies k x with hle | ⟨⟨j, o, v, hl, hj, hj'⟩, hle⟩
    · exact Or.inl (by omega)
    · exact Or.inr ⟨⟨j, o, v, hl, hj, hj'⟩, hI.apart j k x hj⟩
  constructor
  · intro j x hj
    rcases hc.bears hj with hj | ⟨-, rfl, hd⟩
    · exact mono (hI.borne j x hj)
    · exact ⟨s.draws, by omega, rfl⟩
  · intro k x hpos
    rcases hpub hpos with hpos | ⟨⟨j, o, v, -, hj, -⟩, -⟩
    · exact mono (hI.drawn k x hpos)
    · exact mono (hI.borne j x hj)
  · intro j j' x hj hj'
    rcases hc.bears hj with hb | ⟨hl, rfl, -⟩
    · rcases hc.bears hj' with hb' | ⟨-, rfl, -⟩
      · exact hI.alone j j' x hb hb'
      · exact absurd (hI.borne j _ hb).new (lt_irrefl _)
    · rcases hc.bears hj' with hb' | ⟨hl', -, -⟩
      · exact absurd (hI.borne j' _ hb').new (lt_irrefl _)
      · rw [hl] at hl'
        cases hl'
        rfl
  · intro j k x hj
    by_contra hne
    rcases hc.bears hj with hb | ⟨hl, rfl, -⟩
    · rcases hpub (Nat.pos_of_ne_zero hne) with hpos | ⟨⟨j', o, v, -, hb', hn⟩, -⟩
      · rw [hI.apart j k x hb] at hpos
        exact lt_irrefl _ hpos
      · rw [hI.alone j j' x hb hb'] at hj
        cases hn.symm.trans hj
    · rcases hpub (Nat.pos_of_ne_zero hne) with hpos | ⟨⟨j', o, v, -, hb', -⟩, -⟩
      · exact absurd (hI.drawn k _ hpos).new (lt_irrefl _)
      · exact absurd (hI.borne j' _ hb').new (lt_irrefl _)
  · intro k x
    rcases hcopies k x with hle | ⟨⟨j, o, v, hl, hj, hj'⟩, hle⟩
    · exact hle.trans (hI.once k x)
    · rw [hI.apart j k x hj] at hle
      exact hle

theorem ledger_of_reaches {C : Sys → Label → Prop} (h : (system env).Reaches C s) :
    s.Ledger env := by
  refine h.invariant_of (J := fun s => (s.Polite ∧ Seats s.toCore) ∧ s.Manned ∧
    Subscribed s.toCore) (I := Ledger env) ?_ ?_ ?_
  · exact fun s hs => ⟨⟨polite_of_reaches hs, seats_of_reaches hs⟩, manned_of_reaches hs,
      subscribed_of_reaches hs⟩
  · rintro s ⟨t, rfl⟩
    refine ⟨fun j x hj => ?_, fun k x hk => ?_, fun j j' x hj => ?_, fun j k x hj => ?_,
      fun k x => ?_⟩
    · cases hj
    · cases hk
    · cases hj
    · cases hj
    · exact Nat.zero_le _
  · rintro s l t ⟨⟨hP, hS⟩, hM, hSub⟩ hI - hs
    exact hI.step hP hS hM hSub hs

end Sys

end RoomBackend
