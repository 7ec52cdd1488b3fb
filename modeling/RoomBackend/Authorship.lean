import RoomBackend.Joining
import RoomBackend.Shown

/-! # Who wrote what is shown

A message is made in `decide`, of the text of the frame and of the session the connection holds. It
is published with the connection as its sender, and the backplane, the outboxes and the frames of a
flush pass it on as it is. So every message that a connection is sent live was written by another
connection, in the name of a session that this one held, and belongs to a room of its receiver. -/

namespace RoomBackend

open Async Lts

/-! ### Authors -/

/-- The message was made of the frame, in the name of a session of its connection. -/
structure Authored (env : Env) (held : List SessionIdent) (l : SendLocals) (m : StoredMessage) :
    Prop where
  mine : l.record ∈ held
  normal : env.Normal l
  made : ∃ d, m = Sys.acceptedMessage env d l

/-- What the journal says about the authors of messages. -/
def Obs.Authored (env : Env) (c : Core) : Obs → Prop
  | .appended k _ l _ m => RoomBackend.Authored env (c.conn k).held l m
  | .published k _ l bm _ =>
      ∃ room m, bm = busMessage k room m ∧ RoomBackend.Authored env (c.conn k).held l m
  | _ => True

structure Authorship (env : Env) (c : Core) : Prop where
  locals : ∀ k l, (c.conn k).handler.bind Handler.locals = some l → l.record ∈ (c.conn k).held
  filing : ∀ k l room m, (c.conn k).handler.bind Handler.filing = some (l, room, m) →
    Authored env (c.conn k).held l m
  journal : ∀ o ∈ c.world.journal, o.Authored env c

variable {env : Env} {s t : Sys} {l : Label} {k : ConnKey}

theorem Authored.mono {held held' : List SessionIdent} {l : SendLocals} {m : StoredMessage}
    (h : Authored env held l m) (hh : ∀ r ∈ held, r ∈ held') : Authored env held' l m :=
  ⟨hh _ h.mine, h.normal, h.made⟩

theorem Authorship.step (h : Authorship env s.toCore) (hB : Born s.toCore)
    (hH : ∀ k, (s.toCore.berth k).Holds) (hW : Worded env s.toCore)
    (hs : s.step env l = some t) : Authorship env t.toCore := by
  have hcore := Sys.coreStep hs
  have held : ∀ k, ∀ r ∈ (s.conn k).held, r ∈ (t.conn k).held :=
    fun k r hr => (hcore.conn k).held hB hr
  refine ⟨fun k l' hl => ?_, fun k l' room m hf => ?_, fun o ho => ?_⟩
  · refine held k _ ?_
    have hx := hcore.conn k
    generalize t.conn k = y at hx hl
    cases hx with
    | act hl' hh ha =>
        rcases ha.locals hl with he | ⟨he, -⟩
        · exact h.locals k l' (hh ▸ he)
        · cases he
    | handle hl' hk hh ha =>
        rcases ha.locals hl with he | ⟨-, ho⟩
        · cases he
        · have hrec : (s.conn k).record = some l'.record := by
            have := ho.record
            rwa [show ((s.toCore.take k).observe _).conn k = _ from Core.take_conn ..] at this
          exact List.mem_of_getLast? ((hH k).record.symm.trans hrec)
    | settled hl' hh hset =>
        refine h.locals k l' ?_
        rw [hh]
        exact (Handler.settle_locals hset).1.symm.trans hl
    | accepted => cases hl
    | _ => exact h.locals k l' hl
  · refine Authored.mono ?_ (held k)
    have hx := hcore.conn k
    generalize t.conn k = y at hx hf
    cases hx with
    | act hl' hh ha =>
        rcases ha.filing hf with he | ⟨he, -, rfl⟩
        · exact h.filing k l' room m (hh ▸ he)
        · have hloc : (s.conn k).handler.bind Handler.locals = some l' := by
            rw [hh, he]
            rfl
          exact ⟨h.locals k l' hloc, hW.locals k l' hloc, s.draws, rfl⟩
    | handle hl' hk hh ha =>
        rcases ha.filing hf with he | ⟨he, -, -⟩
        · cases he
        · cases he
    | settled hl' hh hset =>
        refine h.filing k l' room m ?_
        rw [hh]
        exact (Handler.settle_locals hset).2.symm.trans hf
    | accepted => cases hf
    | _ => exact h.filing k l' room m hf
  · rcases hcore.world.filed o ho with ho | ho | ⟨k, l', room, m, hf, rfl | ⟨to_, rfl⟩⟩
    · have hold := h.journal o ho
      cases o with
      | appended k n l' roomId m => exact Authored.mono hold (held k)
      | published k n l' bm to_ =>
          obtain ⟨room, m, he, ha⟩ := hold
          exact ⟨room, m, he, ha.mono (held k)⟩
      | _ => trivial
    · cases o with
      | appended => cases ho
      | published => cases ho
      | _ => trivial
    · exact (h.filing k l' room m hf).mono (held k)
    · exact ⟨room, m, rfl, (h.filing k l' room m hf).mono (held k)⟩

theorem authorship_of_reaches {C : Sys → Label → Prop} (h : (system env).Reaches C s) :
    Authorship env s.toCore := by
  refine Machine.Reaches.invariant_of (I := fun s => Authorship env s.toCore)
    (J := fun s => Born s.toCore ∧ (∀ k, (s.toCore.berth k).Holds) ∧ Worded env s.toCore)
    (fun s hs => ⟨born_of_reaches hs, holds_of_reaches hs, worded_of_reaches hs⟩) ?_ ?_ h
  · rintro s ⟨t, rfl⟩
    exact ⟨fun k l hl => (Option.some_ne_none l hl.symm).elim,
      fun k l room m hf => (Option.some_ne_none _ hf.symm).elim,
      fun o ho => absurd ho List.not_mem_nil⟩
  · intro s l t hJ hI _ hs
    exact hI.step hJ.1 hJ.2.1 hJ.2.2 hs

/-! ### The way to the sockets -/

/-- The message was published to the instance. -/
def World.PublishedTo (w : World) (i : InstanceId) (bm : BusMessage) : Prop :=
  ∃ k n l to_, .published k n l bm to_ ∈ w.journal ∧ i ∈ to_

/-- The message was published by another connection, to a room the connection has been in. -/
def Core.ShownTo (c : Core) (k : ConnKey) (m : ChatMessage) : Prop :=
  ∃ bm, c.world.PublishedTo k.inst bm ∧ bm.message = m ∧ bm.exclude ≠ some k ∧
    ∃ r ∈ (c.conn k).held, r.roomId = bm.roomId

/-- What is in flight, in an outbox or sent live was published. -/
structure Relayed (s : Sys) : Prop where
  flying : ∀ i bm, (i, BusEvent.message bm) ∈ s.world.inFlight → s.world.PublishedTo i bm
  boxed : ∀ i, ∀ bm ∈ (s.srv i).outbox, s.world.PublishedTo i bm
  lives : ∀ k, ∀ m ∈ (s.side k).lives, s.ShownTo k m

theorem World.PublishedTo.mono {w w' : World} {i : InstanceId} {bm : BusMessage}
    (h : w.PublishedTo i bm) (hw : ∀ o ∈ w.journal, o ∈ w'.journal) : w'.PublishedTo i bm := by
  obtain ⟨k, n, l, to_, ho, hi⟩ := h
  exact ⟨k, n, l, to_, hw _ ho, hi⟩

theorem WorldStep.journal_mono {env : Env} {up : ConnKey → Bool} {c : Core} {l : Label} {w : World}
    (h : WorldStep env up c l w) : ∀ o ∈ c.world.journal, o ∈ w.journal := by
  obtain ⟨log, -, hj⟩ := h.log
  intro o ho
  rw [hj]
  exact List.mem_append_left _ ho

/-- Messages are put in flight by a publish only. -/
theorem WorldStep.flying {env : Env} {up : ConnKey → Bool} {c : Core} {l : Label} {w : World}
    (h : WorldStep env up c l w) {i : InstanceId} {bm : BusMessage}
    (hm : (i, BusEvent.message bm) ∈ w.inFlight) :
    (i, BusEvent.message bm) ∈ c.world.inFlight ∨ w.PublishedTo i bm := by
  cases h with
  | settled hl ho he =>
      cases he with
      | @publish k l' room m ht hh =>
          rcases List.mem_append.mp hm with hm | hm
          · exact Or.inl hm
          · obtain ⟨j, hj, he⟩ := List.mem_map.mp hm
            obtain ⟨rfl, hbm⟩ := Prod.mk.inj he
            obtain rfl := BusEvent.message.inj hbm
            exact Or.inr ⟨k, _, l', _, List.mem_append_right _ (List.mem_singleton_self _), hj⟩
      | kick =>
          rcases List.mem_append.mp hm with hm | hm
          · exact Or.inl hm
          · obtain ⟨j, hj, he⟩ := List.mem_map.mp hm
            cases (Prod.mk.inj he).2
      | _ => exact Or.inl hm
  | received hl hn hlog => exact Or.inl (List.mem_of_mem_eraseIdx hm)
  | _ => exact Or.inl hm

/-- Messages are put in an outbox when they are delivered. -/
theorem SrvStep.boxed {c : Core} {i : InstanceId} {v : Srv} (h : SrvStep env c l i v)
    {bm : BusMessage} (hm : bm ∈ v.outbox) :
    bm ∈ (c.srv i).outbox ∨ (i, BusEvent.message bm) ∈ c.world.inFlight := by
  cases h with
  | close hl hc hi =>
      subst hi
      rw [Core.onClosed, Core.updSrv_srv] at hm
      split at hm <;> exact Or.inl hm
  | message hl hn =>
      rcases List.mem_append.mp hm with hm | hm
      · exact Or.inl hm
      · rw [List.mem_singleton.mp hm]
        exact Or.inr (List.mem_of_getElem? hn)
  | flush => exact absurd hm List.not_mem_nil
  | _ => exact Or.inl hm

/-- A flush sends a connection messages of its room that are not its own. -/
theorem Sys.fanSide_lives {m : ChatMessage}
    (hm : m ∈ (fanSide (s.batch k.inst) k.inst k s.toCore (s.side k)).lives) :
    m ∈ (s.side k).lives ∨ ∃ bm ∈ (s.srv k.inst).outbox, bm.message = m ∧ bm.exclude ≠ some k ∧
      ∃ r, (s.conn k).record = some r ∧ r.roomId = bm.roomId := by
  unfold fanSide at hm
  split at hm
  · rename_i hr
    split at hm
    · exact Or.inl hm
    · rename_i e he
      have hnew : m ∈ (s.side k).lives ∨ m ∈ e.live := by
        unfold Side.lives at hm ⊢
        dsimp only at hm
        unfold Socket.sendRaw at hm
        split at hm
        · exact Or.inl hm
        · split at hm
          · rw [Socket.terminate_sent] at hm
            exact Or.inl hm
          · dsimp only at hm
            rw [List.flatMap_append] at hm
            rcases List.mem_append.mp hm with hm | hm
            · exact Or.inl hm
            · exact Or.inr (by simpa using hm)
      refine hnew.imp_right fun hm => ?_
      have hlive := flushFrame_live (s.batch k.inst) k
      rw [he] at hlive
      rw [show e.live = _ from hlive] at hm
      obtain ⟨bm, hbm, rfl⟩ := List.mem_map.mp hm
      obtain ⟨hbm, hx⟩ := List.mem_filter.mp hbm
      obtain ⟨hout, hroom⟩ := List.mem_filter.mp hbm
      obtain ⟨r, hrec, hr⟩ := (Option.any_eq_true _ _).mp (Bool.and_eq_true_iff.mp hr).2
      exact ⟨bm, hout, rfl, of_decide_eq_true hx, r, hrec,
        (of_decide_eq_true hr).trans (of_decide_eq_true hroom).symm⟩
  · exact Or.inl hm

theorem Sys.lives_new (hP : s.Polite) (hS : Seats s.toCore) (hM : s.Manned)
    (h : s.step env l = some t) {m : ChatMessage} (hm : m ∈ (t.side k).lives) :
    m ∈ (s.side k).lives ∨ ∃ bm ∈ (s.srv k.inst).outbox, bm.message = m ∧ bm.exclude ≠ some k ∧
      ∃ r, (s.conn k).record = some r ∧ r.roomId = bm.roomId := by
  by_cases hl : l = .flush k.inst
  · subst hl
    by_cases ho : s.Opened k
    · obtain rfl := Option.some.inj (Option.ite_none_right_eq_some.mp h).2
      by_cases hb : s.batch k.inst = []
      · have hside : (s.flushOutbox k.inst).side k = s.side k := by
          unfold flushOutbox
          dsimp only
          rw [if_pos hb]
          rfl
        rw [hside] at hm
        exact Or.inl hm
      · rw [flush_side (hS.nodup _) (listed_of_opened hS hM ho) hb] at hm
        exact fanSide_lives hm
    · rcases step_sides hP h k with hmv | ⟨n, u, hl, -⟩
      · unfold Side.lives at hm
        rw [hmv.sent_of_not_opened ho] at hm
        exact Or.inl hm
      · cases hl
  · refine Or.inl ?_
    rcases step_sides hP h k with hmv | ⟨n, u, -, -, -, hmv⟩
    · rwa [hmv.lives fun e he => ?_] at hm
      cases he with
      | own he => exact ServerEvent.live_of_private he
      | welcome hl' hh hq he =>
          subst he
          rfl
      | reset hl' hp he =>
          subst he
          rfl
      | presence hl' hj he =>
          subst he
          rfl
      | flush hl' => exact absurd hl' hl
    · rw [hmv.lives fun e he => ServerEvent.live_of_private he] at hm
      exact absurd hm List.not_mem_nil

theorem Relayed.step (h : Relayed s) (hB : Born s.toCore) (hH : ∀ k, (s.toCore.berth k).Holds)
    (hP : s.Polite) (hS : Seats s.toCore) (hM : s.Manned) (hs : s.step env l = some t) :
    Relayed t := by
  have hcore := Sys.coreStep hs
  have journal := hcore.world.journal_mono
  refine ⟨fun i bm hm => ?_, fun i bm hm => ?_, fun k m hm => ?_⟩
  · rcases hcore.world.flying hm with hm | hm
    · exact (h.flying i bm hm).mono journal
    · exact hm
  · rcases (hcore.srv i).boxed hm with hm | hm
    · exact (h.boxed i bm hm).mono journal
    · exact (h.flying i bm hm).mono journal
  · have held : ∀ r ∈ (s.conn k).held, r ∈ (t.conn k).held :=
      fun r hr => (hcore.conn k).held hB hr
    rcases Sys.lives_new hP hS hM hs hm with hm | ⟨bm, hout, he, hx, r, hr, hroom⟩
    · obtain ⟨bm, hpub, he, hx, r, hr, hroom⟩ := h.lives k m hm
      exact ⟨bm, hpub.mono journal, he, hx, r, held r hr, hroom⟩
    · exact ⟨bm, (h.boxed _ bm hout).mono journal, he, hx, r,
        held r (List.mem_of_getLast? ((hH k).record.symm.trans hr)), hroom⟩

theorem relayed_of_reaches {C : Sys → Label → Prop} (h : (system env).Reaches C s) : Relayed s := by
  refine h.invariant_of (I := Relayed)
    (J := fun s => (Born s.toCore ∧ ∀ k, (s.toCore.berth k).Holds) ∧ s.Polite ∧
      Seats s.toCore ∧ s.Manned)
    (fun s hs => ⟨⟨born_of_reaches hs, holds_of_reaches hs⟩, Sys.polite_of_reaches hs,
      seats_of_reaches hs, Sys.manned_of_reaches hs⟩) ?_ ?_
  · rintro s ⟨t, rfl⟩
    exact ⟨fun i bm hm => absurd hm List.not_mem_nil, fun i bm hm => absurd hm List.not_mem_nil,
      fun k m hm => absurd hm List.not_mem_nil⟩
  · rintro s l t ⟨⟨hB, hH⟩, hP, hS, hM⟩ hI - hs
    exact hI.step hB hH hP hS hM hs

/-- **Authors.** No connection is sent a message live twice. What it is sent is a message as another
connection sent it, in the name of a session of that connection and with the text `normalizeText`
made of its frame, that was published to the instance; and it is of a room of which the connection
has held a session. -/
theorem authored_of_reaches (h : (system env).Reaches Free s) (k : ConnKey) :
    ((s.side k).lives.map ChatMessage.id).Nodup ∧
      ∀ m ∈ (s.side k).lives, ∃ j n l room m' to_,
        .published j n l (busMessage j room m') to_ ∈ s.world.journal ∧ m = toPublic m' ∧
          j ≠ k ∧ k.inst ∈ to_ ∧ Authored env (s.conn j).held l m' ∧
          ∃ r ∈ (s.conn k).held, r.roomId = room.roomId := by
  refine ⟨Sys.lives_nodup h k, fun m hm => ?_⟩
  obtain ⟨bm, ⟨j, n, l, to_, ho, hi⟩, rfl, hx, r, hr, hroom⟩ := (relayed_of_reaches h).lives k m hm
  obtain ⟨room, m', rfl, ha⟩ := (authorship_of_reaches h).journal _ ho
  refine ⟨j, n, l, room, m', to_, ho, rfl, ?_, hi, ha, r, hr, hroom⟩
  rintro rfl
  exact hx rfl

/-- A run of the theorem: the second connection is sent what the first one said. -/
theorem authored_hello : ∃ s, (system (Demo.env none)).Reaches Free s ∧
    ∃ m ∈ (s.side (Demo.conn 2)).lives, ∃ j r, j ≠ Demo.conn 2 ∧ r ∈ (s.conn j).held ∧
      m.author = r.name ∧ m.text = "hello" := by
  obtain ⟨s, hs, hP⟩ := exists_reached_free (Demo.env none)
    (fun s => (s.side (Demo.conn 2)).lives.any fun m => decide (m.text = "hello")) Demo.noon
    (Demo.twoAttending ++ [.deliver 0, .flush 0]) (by decide +kernel)
  obtain ⟨m, hm, htext⟩ := List.any_eq_true.mp hP
  obtain ⟨j, n, l, room, m', to_, -, rfl, hne, -, ha, -⟩ := (authored_of_reaches hs _).2 m hm
  obtain ⟨d, rfl⟩ := ha.made
  exact ⟨s, hs, _, hm, j, l.record, hne, ha.mine, rfl, of_decide_eq_true htext⟩

end RoomBackend
