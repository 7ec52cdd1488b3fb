import RoomBackend.Histories
import RoomBackend.Succession

/-! # Messages around a midnight

While the identities of a server's connections are renewed, a flush passes over those whose
session is still of the room left. A message of the new room reaches a connection unless it was
flushed before the connection was renewed. -/

namespace RoomBackend

open Async Day Lts

namespace Sys

variable {env : Env} {s t u : Sys} {l : Label} {k : ConnKey}

/-- The store and the backplane succeed, and the server of connection `k` is subscribed and stays
in its room. -/
def settled (env : Env) (k : ConnKey) (s : Sys) (l : Label) : Bool :=
  succeeds l && decide (k.inst ∈ s.world.subscribers) &&
    (s.step env l).all fun t => decide ((t.srv k.inst).room = (s.srv k.inst).room)

/-- The message was flushed by the server of connection `k`, after the first `n` entries of the
journal. -/
def Passed (s : Sys) (k : ConnKey) (n : ℕ) (x : ConnKey × StoredMessage) : Prop :=
  ∃ (batch : List BusMessage) (m : BusMessage), .flushed k.inst batch ∈ s.world.journal.drop n ∧
    m ∈ batch ∧ m.message = toPublic x.2

theorem Passed.step (h : s.step env l = some t) {n : ℕ} {x : ConnKey × StoredMessage}
    (hm : s.Passed k n x) : t.Passed k n x := by
  obtain ⟨batch, m, hb, hm, hx⟩ := hm
  obtain ⟨log, -, hj⟩ := (coreStep h).world.log
  refine ⟨batch, m, ?_, hm, hx⟩
  rw [hj, List.drop_append]
  exact List.mem_append_left _ hb

/-- A message on its way to a connection goes on, or it is flushed. -/
theorem Coming.step (hB : Born s.toCore) (h : s.step env l = some t)
    (hl : s.settled env k l = true) {roomId : String} (hroom : (s.srv k.inst).room.roomId = roomId)
    {n : ℕ} (hn : n ≤ s.world.journal.length) {x : ConnKey × StoredMessage} (hx : x.1 ≠ k)
    (hc : s.Coming k roomId x) : t.Coming k roomId x ∨ t.Passed k n x := by
  unfold settled at hl
  rw [h] at hl
  simp only [Option.all_some, Bool.and_eq_true, decide_eq_true_eq] at hl
  obtain ⟨⟨hok, hsub⟩, hroom'⟩ := hl
  cases hc with
  | appended hr hh => exact Or.inl (publishing_step hB h hok hsub hx ⟨_, _, hr, Or.inl hh⟩)
  | publishing hr hh => exact Or.inl (publishing_step hB h hok hsub hx ⟨_, _, hr, Or.inr hh⟩)
  | @flying m hm hf hin =>
      rcases inFlight_step h hin with hin | ⟨n', rfl, hn'⟩
      · exact Or.inl (.flying hm hf hin)
      · refine Or.inl (.owed ?_)
        have harr : s.arrivals k.inst (.deliver n') = [m] := by
          simp only [arrivals, hn', if_true]
        rw [owed_step h (by simp) hroom', harr, hroom]
        refine List.mem_append_right _ (List.mem_map.mpr ⟨m, ?_, hm⟩)
        exact List.mem_filter.mpr ⟨List.mem_singleton_self _, hf⟩
  | owed hm =>
      by_cases hfl : l = .flush k.inst
      · subst hfl
        refine Or.inr ?_
        rw [owed_eq] at hm
        obtain ⟨m, hmb, hmx⟩ := List.mem_map.mp hm
        refine ⟨s.batch k.inst, m, ?_, List.mem_of_mem_filter hmb, hmx⟩
        obtain rfl := Option.some.inj (Option.ite_none_right_eq_some.mp h).2
        rw [show (s.flushOutbox k.inst).world = (s.flushOutbox k.inst).toCore.world from rfl,
          toCore_flushOutbox]
        have hj : (s.toCore.flushOutbox k.inst).world.journal = s.world.journal ++
            ((s.stale k.inst).map (fun m => Obs.dropped k.inst m (s.srv k.inst).room.roomId) ++
              [.flushed k.inst (s.batch k.inst)]) := rfl
        rw [hj, List.drop_append_of_le_length hn]
        exact List.mem_append_right _ (List.mem_append_right _ (List.mem_singleton_self _))
      · refine Or.inl (.owed ?_)
        rw [owed_step h hfl hroom']
        exact List.mem_append_left _ hm

/-- The messages appended after the first `n` are on their way or were flushed. -/
structure Passes (roomId : String) (k : ConnKey) (n p : ℕ) (s : Sys) : Prop where
  room : (s.srv k.inst).room.roomId = roomId
  journal : p ≤ s.world.journal.length
  passes : ∀ x ∈ (s.world.postings roomId).drop n, x.1 ≠ k →
    s.Coming k roomId x ∨ s.Passed k p x

theorem Passes.step (hB : Born s.toCore) (h : s.step env l = some t)
    (hl : s.settled env k l = true) {roomId : String} {n p : ℕ} (hI : s.Passes roomId k n p) :
    t.Passes roomId k n p := by
  have hold : ∀ x ∈ (s.world.postings roomId).drop n, x.1 ≠ k →
      t.Coming k roomId x ∨ t.Passed k p x := by
    intro x hx hk
    rcases hI.passes x hx hk with hc | hm
    · exact hc.step hB h hl hI.room hI.journal hk
    · exact Or.inr (hm.step h)
  unfold settled at hl
  rw [h] at hl
  simp only [Option.all_some, Bool.and_eq_true, decide_eq_true_eq] at hl
  obtain ⟨⟨hok, -⟩, hroom'⟩ := hl
  refine ⟨hroom' ▸ hI.room, ?_, ?_⟩
  · exact hI.journal.trans (coreStep h).world.length_le
  · rcases postings_step h hok roomId with hp | ⟨y, l', room, hp, hr, hh⟩
    · rw [hp]
      exact hold
    · intro x hx hk
      rw [hp, List.drop_append] at hx
      rcases List.mem_append.mp hx with hx | hx
      · exact hold x hx hk
      · obtain rfl := List.mem_singleton.mp (List.mem_of_mem_drop hx)
        exact Or.inl (.appended hr hh)

theorem Passes.run {roomId : String} {n p : ℕ} {ls : List Label}
    (h : (system env).Reaches Free s) (hI : s.Passes roomId k n p)
    (hr : (system env).Run (fun s l => s.settled env k l = true) s ls t) :
    (system env).Reaches Free t ∧ t.Passes roomId k n p := by
  refine ⟨h.run (hr.mono fun _ _ _ => trivial), h.preserves (I := fun s : Sys =>
    s.Passes roomId k n p) hr (fun _ _ _ => trivial) ?_ hI⟩
  intro s l t hs hI hC he
  exact hI.step (born_of_reaches hs) he hC

end Sys

/-- **Messages of the new day.** From a state in which a server is in its new room, let it stay
there while the store and the backplane succeed, and let connection `k` attend the room from some
state on. Then every message that another connection appends to the room was sent to it live or
is on its way to it, unless it was flushed before that state. -/
theorem midnight_of_reaches {env : Env} {s₀ s u : Sys} {ls ls' : List Label} {k : ConnKey}
    (h : (system env).Reaches Free s₀)
    (hrun : (system env).Run (fun s l => s.settled env k l = true) s₀ ls s)
    (hcalm : (system env).Run (fun s l => s.calm env k l = true) s ls' u) :
    ∀ x ∈ (u.world.postings (s₀.srv k.inst).room.roomId).drop
        (s₀.world.postings (s₀.srv k.inst).room.roomId).length, x.1 ≠ k →
      (toPublic x.2 ∈ (u.side k).lives ∨ u.Coming k (s₀.srv k.inst).room.roomId x) ∨
        s.Passed k s₀.world.journal.length x := by
  have h0 : s₀.Passes (s₀.srv k.inst).room.roomId k
      (s₀.world.postings (s₀.srv k.inst).room.roomId).length s₀.world.journal.length := by
    refine ⟨rfl, le_refl _, fun x hx => ?_⟩
    rw [List.drop_length] at hx
    cases hx
  obtain ⟨hreach, hpass⟩ := h0.run h hrun
  have hF : s.Follows (s₀.srv k.inst).room.roomId k
      (s₀.world.postings (s₀.srv k.inst).room.roomId).length
      (s.Passed k s₀.world.journal.length) := by
    refine ⟨hpass.room, fun x hx hk => ?_⟩
    rcases hpass.passes x hx hk with hc | hm
    · exact Or.inl (Or.inr hc)
    · exact Or.inr hm
  exact (hF.run hreach hcalm).follows

/-- The messages in a frame. -/
def ServerEvent.told : ServerEvent → List ChatMessage
  | .welcome _ _ _ _ _ history _ _ => history
  | .message m => [m]
  | .messages ms => ms
  | _ => []

namespace Demo

/-- Two clients are joined when the server switches rooms at midnight. -/
def twoAtMidnight : List Label :=
  oneJoined ++ request 1 "b" ++ handshake 1 ++ joined (conn 2) ++ switchesRoom

/-- The first client sends a message to the new room; it is published and flushed. -/
def sendsTomorrow : List Label :=
  receive (conn 1) (.send { clientId := "c", text := "hello", day := some 186 }) ++
    turns (conn 1) 1 ++ [.resume (.handler (conn 1))] ++ turns (conn 1) 2 ++
    [.resume (.handler (conn 1)), .deliver 0, .flush 0]

/-- Another client than the second has appended a message to the room of `s₀` since. -/
def postedSince (s₀ u : Sys) : Bool :=
  ((u.world.postings (s₀.srv 0).room.roomId).drop
    (s₀.world.postings (s₀.srv 0).room.roomId).length).any fun x =>
      decide (x.1 ≠ conn 2) && decide (x.2.text = "hello")

/-- A message of the new room was flushed, and the second client was not told of it. -/
def missed (s : Sys) : Bool :=
  decide (s.Attends (conn 2)) && decide (s.world.inFlight = []) &&
    decide ((s.srv 0).outbox = []) && decide ((s.conn (conn 1)).handler = none) &&
    (s.world.postings (s.srv 0).room.roomId).any fun x => decide (x.1 = conn 1) &&
      (s.side (conn 2)).socket.sent.all fun e => decide (toPublic x.2 ∉ e.told)

end Demo

/-- A message that is sent after both clients were renewed reaches the second. -/
theorem midnight_hello : ∃ (s₀ s u : Sys) (x : ConnKey × StoredMessage),
    (system (Demo.env none)).Reaches Free s₀ ∧ x.2.text = "hello" ∧
    (u.Reaching (Demo.conn 2) (s₀.srv 0).room.roomId x ∨
      s.Passed (Demo.conn 2) s₀.world.journal.length x) := by
  obtain ⟨s₀, h₀, hP⟩ := exists_reached_free (Demo.env none)
    (fun s₀ => ((system (Demo.env none)).execs
        (fun s l => s.settled (Demo.env none) (Demo.conn 2) l) s₀
        (cleansUp ++ renews (Demo.conn 1) ++ renews (Demo.conn 2))).any fun s : Sys =>
      ((system (Demo.env none)).execs (fun s l => s.calm (Demo.env none) (Demo.conn 2) l) s
        Demo.sendsTomorrow).any fun u : Sys => Demo.postedSince s₀ u)
    Demo.noon Demo.twoAtMidnight (by decide +kernel)
  simp only [Demo.postedSince, Option.any_eq_true, List.any_eq_true, Bool.and_eq_true,
    decide_eq_true_eq] at hP
  obtain ⟨s, hs, u, hu, x, hx, hk, hxt⟩ := hP
  have hrun := Machine.run_of_execs
    (C := fun (s : Sys) l => s.settled (Demo.env none) (Demo.conn 2) l = true) (fun _ _ hc => hc) hs
  have hcalm := Machine.run_of_execs
    (C := fun (s : Sys) l => s.calm (Demo.env none) (Demo.conn 2) l = true) (fun _ _ hc => hc) hu
  exact ⟨s₀, s, u, x, h₀, hxt, midnight_of_reaches h₀ hrun hcalm x hx hk⟩

/-- A message that the first client sends to the new room is flushed before the second client is
renewed: it is in no frame the second is sent, and not on its way. -/
theorem midnight_missed : ∃ (s : Sys) (x : ConnKey × StoredMessage),
    (system (Demo.env none)).Reaches Free s ∧ s.Attends (Demo.conn 2) ∧
    x ∈ s.world.postings (s.srv 0).room.roomId ∧ x.1 ≠ Demo.conn 2 ∧
    (∀ e ∈ (s.side (Demo.conn 2)).socket.sent, toPublic x.2 ∉ e.told) ∧
    ¬ s.Coming (Demo.conn 2) (s.srv 0).room.roomId x := by
  obtain ⟨s, hs, hP⟩ := exists_reached_free (Demo.env none) Demo.missed Demo.noon
    (Demo.twoAtMidnight ++ cleansUp ++ renews (Demo.conn 1) ++ Demo.sendsTomorrow
      ++ renews (Demo.conn 2)) (by decide +kernel)
  simp only [Demo.missed, Bool.and_eq_true, List.any_eq_true, List.all_eq_true,
    decide_eq_true_eq] at hP
  obtain ⟨⟨⟨⟨hA, hin⟩, hout⟩, hh⟩, x, hx, hk, htold⟩ := hP
  refine ⟨s, x, hs, hA, hx, by rw [hk]; decide, htold, fun hc => ?_⟩
  cases hc with
  | appended hr hx' =>
      rw [hk, hh] at hx'
      cases hx'
  | publishing hr hx' =>
      rw [hk, hh] at hx'
      cases hx'
  | flying hm hf hfly =>
      rw [hin] at hfly
      cases hfly
  | owed hm =>
      unfold Sys.owed at hm
      rw [show (s.srv (Demo.conn 2).inst).outbox = [] from hout] at hm
      cases hm

end RoomBackend
