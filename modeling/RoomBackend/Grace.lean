import RoomBackend.Filing
import RoomBackend.Hints
import RoomBackend.Replays
import RoomBackend.Succession

/-! # The grace of a rollover

A send without a day that comes shortly after a rollover is taken for a composition of the old day.
`timed` is the system beside the times of each rollover: when it began, and when its reset was
sent. The grace is counted from the first, so a session that is slow to create takes from it. -/

namespace RoomBackend

open Async Day Lts

/-- The times of a rollover that has sent its reset. -/
structure Reset where
  beganAt : ℤ
  sentAt : ℤ
deriving DecidableEq

/-- The rollovers of a connection: when the last one began, and the times of the last one that has
sent its reset. -/
structure Turn where
  beganAt : ℤ
  reset : Option Reset
deriving DecidableEq

/-- A rollover begins where one is in progress that was not before; with its reset the connection
takes up another session. -/
def Turn.next (s : Sys) (l : Label) (t : Sys) (k : ConnKey) (w : Turn) : Turn :=
  if (s.conn k).rolling = none ∧ (t.conn k).rolling ≠ none then { w with beganAt := s.clock }
  else if l = .resume (.rollover k) ∧ (t.conn k).held ≠ (s.conn k).held then
    { w with reset := some ⟨w.beganAt, s.clock⟩ }
  else w

/-- The system, and the times of its rollovers. -/
def timed (env : Env) : Machine (Sys × (ConnKey → Turn)) Label :=
  (system env).beside (fun _ => ⟨0, none⟩) fun s l t w k => (w k).next s l t k

/-! ### When a rollover began -/

section rollings

variable {env : Env} {up : ConnKey → Bool} {c c' : Core} {l : Label} {k : ConnKey}

/-- The batches of a reset start rollovers at the present instant, of connections that have none in
progress. -/
theorem Batches.rolling {i : InstanceId} {p : RollingPc} {prev next : DailyRoom} {rest : List ℕ}
    (hb : Batches env i prev next c rest c') (hR : Renewals c) (hp : (c.srv i).rolling = some p)
    (hu : ∀ prev next current rest, p ≠ .batch prev next current rest) {q : RolloverPc}
    (hq : (c'.conn k).rolling = some q) :
    ((c.conn k).rolling = none ∧ q.now = c.clock) ∨ (c.conn k).rolling = some q := by
  cases hb with
  | ended h => exact Or.inr hq
  | batch h hb =>
      rcases hb.conn k with hc | ⟨-, -, hi, -, d, input, -, hc⟩
      · exact Or.inr (by rw [← hc]; exact hq)
      · subst hi
        have hnow := hq
        rw [show ((_ : Core).setReset k.inst _).conn k = _ from hc] at hnow
        cases hnow
        exact Or.inl ⟨(hR.fits k).unrenewed hp hu, rfl⟩

theorem ResetMove.rolling {i : InstanceId} {p : RollingPc} (hm : ResetMove env i c p c')
    (hR : Renewals c) (hp : (c.srv i).rolling = some p) {q : RolloverPc}
    (hq : (c'.conn k).rolling = some q) :
    ((c.conn k).rolling = none ∧ q.now = c.clock) ∨ (c.conn k).rolling = some q := by
  cases hm with
  | listed hl hb =>
      refine hb.rolling hR hp (fun prev next current rest he => ?_) hq
      rcases hl with ⟨x, rfl⟩ | ⟨x, rfl⟩ | ⟨x, rfl⟩ <;> cases he
  | next hb => exact hb.rolling hR hp (fun prev next current rest he => by cases he) hq
  | _ => exact Or.inr hq

/-- Where a rollover is in progress after a step, it began with this step, or it was in progress. -/
theorem CoreStep.rolling (h : CoreStep env up c l c') (hR : Renewals c) {q : RolloverPc}
    (hq : (c'.conn k).rolling = some q) :
    ((c.conn k).rolling = none ∧ q.now = c.clock) ∨
      ∃ p, (c.conn k).rolling = some p ∧ q.now = p.now := by
  by_cases hl : ∃ i, l = .resume (.reset i)
  · obtain ⟨i, rfl⟩ := hl
    cases h with
    | same => exact Or.inr ⟨q, hq, rfl⟩
    | reset hp hm =>
        rcases hm.rolling hR hp hq with hn | hq
        · exact Or.inl hn
        · exact Or.inr ⟨q, hq, rfl⟩
  · have hx := h.conn k
    generalize c'.conn k = x at hx hq
    cases hx with
    | act hl hh ha =>
        exact Or.inr ⟨q, ha.kept.rolling.symm.trans hq, rfl⟩
    | handle hl hk hh ha =>
        have hkept := ha.kept.rolling
        rw [Core.take_conn] at hkept
        exact Or.inr ⟨q, hkept.symm.trans hq, rfl⟩
    | accepted => cases hq
    | begins hd hj hc hi hl' hn => exact absurd hl' hl
    | rolling hl' hp hs =>
        obtain ⟨r, -, he⟩ := Option.map_eq_some_iff.mp hs
        cases hq
        cases he
        exact Or.inr ⟨_, hp, rfl⟩
    | creating hp hr =>
        cases hq
        exact Or.inr ⟨_, hp, rfl⟩
    | rolled hp => cases hq
    | renewed hl' hp hr hc => cases hq
    | _ => exact Or.inr ⟨q, hq, rfl⟩

end rollings

/-! ### What is timed and what is stored -/

namespace Sys

variable {env : Env} {s t : Sys} {k : ConnKey} {l : Label}

/-- A rollover that goes on leaves the session and the time of the grace alone, or ends: then it
replaces both, the time by that of its beginning. -/
theorem turn_step (h : s.step env (.resume (.rollover k)) = some t) :
    ((t.conn k).held = (s.conn k).held ∧ (t.vitals k).rolledAt = (s.vitals k).rolledAt) ∨
      ∃ p, (s.conn k).rolling = some p ∧ (t.conn k).held ≠ (s.conn k).held ∧
        (t.vitals k).rolledAt = p.now := by
  obtain ⟨p, hp, hu⟩ := Option.bind_eq_some_iff.mp h
  obtain ⟨⟨r, d⟩, hr, rfl⟩ := Option.map_eq_some_iff.mp hu
  have hrolling : ∀ q, ((({ s with draws := d } : Sys).onCore (·.setRolling k q)).conn k).held =
      (s.conn k).held := by
    intro q
    show ((Core.setRolling _ k q).conn k).held = _
    rw [Core.setRolling, Core.updConn_conn]
  cases r with
  | wait c => exact Or.inl ⟨hrolling _, rfl⟩
  | done record token =>
      dsimp only
      split
      · exact Or.inl ⟨hrolling _, rfl⟩
      · refine Or.inr ⟨p, hp, ?_, ?_⟩
        · have hconn := congrArg (fun c : Core => (c.conn k).held)
            (@toCore_rolloverEnter env { s with draws := d } k p (s.leaving k) record token)
          dsimp only at hconn
          rw [Core.rolloverEnter_conn, Function.update_self] at hconn
          rw [hconn]
          simp
        · rw [vitals_rolloverEnter, Function.update_self]
  | threw => exact Or.inl ⟨hrolling _, by rw [vitals_close]; rfl⟩

/-- Every other step leaves the time of the grace alone, and a session that was held. -/
theorem turn_kept (hB : Born s.toCore) (h : s.step env l = some t) (hh : (s.conn k).held ≠ [])
    (hl : ¬ (l = .resume (.rollover k) ∧ (t.conn k).held ≠ (s.conn k).held)) :
    (t.vitals k).rolledAt = (s.vitals k).rolledAt ∧ (t.conn k).held ≠ [] := by
  constructor
  · by_cases hk : l = .resume (.rollover k)
    · subst hk
      rcases turn_step h with ⟨-, hr⟩ | ⟨p, -, hne, -⟩
      · exact hr
      · exact absurd ⟨rfl, hne⟩ hl
    · have hstep := vitals_step (k := k) hB h
      generalize t.vitals k = v at hstep ⊢
      cases hstep with
      | rolled he hp hr hc => exact absurd he hk
      | accepted hn =>
          refine absurd ?_ hh
          rw [hB.unborn k hn]
          rfl
      | _ => rfl
  · rcases ((coreStep h).conn k).record hB with ⟨-, he⟩ | ⟨r, -, he⟩
    · rwa [show (t.conn k).held = _ from he]
    · rw [show (t.conn k).held = _ from he]
      exact List.append_ne_nil_of_right_ne_nil _ (List.cons_ne_nil _ _)

end Sys

/-- The times are those of the code: the one kept while a rollover is in progress, and the one the
grace is counted from. -/
structure Turn.Fits (w : Turn) (s : Sys) (k : ConnKey) : Prop where
  began : ∀ p, (s.conn k).rolling = some p → p.now = w.beganAt
  reset : ∀ r, w.reset = some r → (s.vitals k).rolledAt = r.beganAt ∧ (s.conn k).held ≠ []

theorem Turn.Fits.step {env : Env} {s t : Sys} {k : ConnKey} {l : Label} {w : Turn}
    (hw : w.Fits s k) (hB : Born s.toCore) (hR : Renewals s.toCore) (h : s.step env l = some t) :
    (w.next s l t k).Fits t k := by
  have hbegan : ¬ ((s.conn k).rolling = none ∧ (t.conn k).rolling ≠ none) →
      ∀ q, (t.conn k).rolling = some q → q.now = w.beganAt := by
    intro hn q hq
    rcases (Sys.coreStep h).rolling hR hq with ⟨hnone, -⟩ | ⟨p, hp, hnow⟩
    · exact absurd ⟨hnone, by rw [hq]; exact Option.some_ne_none q⟩ hn
    · exact hnow.trans (hw.began p hp)
  unfold Turn.next
  split_ifs with hbegins hresets
  · refine ⟨fun q hq => ?_, fun r hr => ?_⟩
    · rcases (Sys.coreStep h).rolling hR hq with ⟨-, hnow⟩ | ⟨p, hp, -⟩
      · exact hnow
      · cases hbegins.1.symm.trans hp
    · obtain ⟨hr, hne⟩ := hw.reset r hr
      have hkept := Sys.turn_kept hB h hne fun hn => by
        obtain ⟨rfl, hn⟩ := hn
        rcases Sys.turn_step h with ⟨he, -⟩ | ⟨p, hp, -⟩
        · exact hn he
        · cases hbegins.1.symm.trans hp
      exact ⟨hkept.1.trans hr, hkept.2⟩
  · obtain ⟨rfl, hne⟩ := hresets
    refine ⟨hbegan hbegins, fun r hr => ?_⟩
    obtain rfl := Option.some.inj hr
    rcases Sys.turn_step h with ⟨he, -⟩ | ⟨p, hp, -, hr⟩
    · exact absurd he hne
    · refine ⟨hr.trans (hw.began p hp), ?_⟩
      rcases ((Sys.coreStep h).conn k).record hB with ⟨-, he⟩ | ⟨r, -, he⟩
      · exact absurd he hne
      · rw [show (t.conn k).held = _ from he]
        exact List.append_ne_nil_of_right_ne_nil _ (List.cons_ne_nil _ _)
  · refine ⟨hbegan hbegins, fun r hr => ?_⟩
    obtain ⟨hr, hne⟩ := hw.reset r hr
    have hkept := Sys.turn_kept hB h hne hresets
    exact ⟨hkept.1.trans hr, hkept.2⟩

/-- In every run. -/
theorem turn_of_reaches {env : Env} {C : Sys × (ConnKey → Turn) → Label → Prop}
    {x : Sys × (ConnKey → Turn)} (h : (timed env).Reaches C x) (k : ConnKey) :
    (x.2 k).Fits x.1 k := by
  refine Machine.Reaches.beside (M := system env) (I := fun s w => (w k).Fits s k) ?_ ?_ h
  · rintro s ⟨time, rfl⟩
    exact ⟨fun p hp => (by cases hp), fun r hr => (by cases hr)⟩
  · intro s w l t hreach hs hI
    exact hI.step (born_of_reaches hreach) (renewals_of_reaches hreach) hs

/-! ### The checks of the day -/

/-- The next frame of the connection is a send without a day, not answered from the cache. -/
structure Sys.Dayless (s : Sys) (k : ConnKey) (e : SendEvent) : Prop where
  queued : (s.side k).queue.head? = some (.event (.send e))
  day : e.day = none
  up : (s.conn k).closed = false
  fresh : (s.side k).conduct.replies.find? (fun p => p.1 = e.clientId) = none

/-- The frame is to be answered as of another day. -/
def Sys.Stale (t : Sys) (k : ConnKey) (e : SendEvent) : Prop :=
  (t.conn k).handler = some (.send (.reply e (.reject e.clientId .staleRoom none)))

instance (t : Sys) (k : ConnKey) (e : SendEvent) : Decidable (t.Stale k e) := by
  unfold Sys.Stale
  infer_instance

/-- The server is between two rooms: its room or the session of the connection is of another day. -/
def Sys.Between (env : Env) (s : Sys) (k : ConnKey) : Prop :=
  (env.roomAt s.clock).roomId ≠ (s.roomOf k).roomId ∨
    ∃ r, (s.conn k).record = some r ∧ r.roomId ≠ (s.roomOf k).roomId

namespace Sys

variable {env : Env} {s t : Sys} {k : ConnKey}

theorem stale_suspend {e : SendEvent} {x : Handler} :
    (s.suspend k x).Stale k e ↔ x = .send (.reply e (.reject e.clientId .staleRoom none)) := by
  unfold Stale
  rw [toCore_suspend, Core.setHandler_conn]
  exact Option.some_inj

theorem stale_decided {e : SendEvent} {reply : ServerEvent} :
    (s.decided k e reply).Stale k e ↔ reply = .reject e.clientId .staleRoom none := by
  unfold decided
  rw [stale_suspend]
  simp

/-- The cooldown and the bucket do not look at the day. -/
theorem not_stale_decideRate (l : SendLocals) : ¬ (s.decideRate env k l).Stale k l.event := by
  unfold decideRate decideEscalate
  dsimp only
  split_ifs
  · rw [stale_suspend]
    exact fun h => by cases h
  · rw [stale_decided]
    exact fun h => by cases h
  all_goals
    rw [stale_suspend]
    exact fun h => by cases h

/-- The checks of `decide` that look at the day. -/
theorem stale_decideSend {e : SendEvent} {r : SessionIdent}
    (hn : ∀ text n m, env.normalizeText text n m ≠ .error .staleRoom) (hd : e.day = none) :
    (s.decideSend env k e r).Stale k e ↔
      (env.roomAt s.clock).roomId ≠ (s.roomOf k).roomId ∨
        s.clock - (s.side k).conduct.rolledAt < STALE_ROOM_GRACE_MS ∨
        r.roomId ≠ (s.roomOf k).roomId := by
  have hday : ¬ (e.day.any (· ≠ (s.roomOf k).day) = true) := by
    rw [hd]
    exact Bool.false_ne_true
  unfold decideSend
  dsimp only
  rw [if_neg hday]
  split_ifs with hroom hgrace hsess hblock hpend
  · exact iff_of_true (stale_decided.mpr rfl) (Or.inl hroom)
  · exact iff_of_true (stale_decided.mpr rfl) (Or.inr (Or.inl hgrace.2))
  · exact iff_of_true (stale_decided.mpr rfl) (Or.inr (Or.inr hsess))
  all_goals
    refine iff_of_false ?_ (not_or.mpr ⟨hroom, not_or.mpr ⟨fun hg => hgrace ⟨hd, hg⟩, hsess⟩⟩)
  · rw [stale_decided]
    exact fun h => by cases h
  · rw [stale_decided]
    exact fun h => by cases h
  · split
    · rename_i reason hreason
      rw [stale_decided]
      intro h
      cases h
      exact hn _ _ _ hreason
    · exact not_stale_decideRate _

end Sys

/-- In every run, a send without a day that is decided upon after a reset is answered as of another
day exactly while the server is between two rooms, or for 3 seconds after its rollover began. -/
theorem stale_iff {env : Env} {C : Sys × (ConnKey → Turn) → Label → Prop}
    {x : Sys × (ConnKey → Turn)} {k : ConnKey} {e : SendEvent} {r : Reset} {t : Sys}
    (hn : ∀ text n m, env.normalizeText text n m ≠ .error .staleRoom)
    (hx : (timed env).Reaches C x) (hr : (x.2 k).reset = some r) (he : x.1.Dayless k e)
    (h : x.1.step env (.handle k) = some t) :
    t.Stale k e ↔ x.1.Between env k ∨ x.1.clock - r.beganAt < STALE_ROOM_GRACE_MS := by
  obtain ⟨hrolled, hheld⟩ := (turn_of_reaches hx k).reset r hr
  have hH := holds_of_reaches hx.fst k
  have hrec : (x.1.conn k).record = (x.1.conn k).held.getLast? := hH.record
  rw [List.getLast?_eq_getLast_of_ne_nil hheld] at hrec
  have hj : (x.1.conn k).joined = true := by
    rw [show (x.1.conn k).joined = _ from hH.joined, show (x.1.toCore.berth k).record = _ from hrec]
    rfl
  obtain ⟨p, hclock, hroomOf, hconduct, hconn, rfl⟩ :=
    Sys.handle_fresh he.queued he.up hrec hj he.fresh h
  have hbegan : (x.1.side k).conduct.rolledAt = r.beganAt := hrolled
  rw [Sys.stale_decideSend hn he.day, hclock, hroomOf, hconduct, hbegan]
  unfold Sys.Between
  rw [hrec]
  simp only [Option.some.injEq, exists_eq_left']
  tauto

/-- The answer is sent next. -/
theorem stale_answered {env : Env} {s t : Sys} {k : ConnKey} {e : SendEvent}
    (hs : (system env).Reaches Free s) (hstale : s.Stale k e)
    (h : s.step env (.resume (.handler k)) = some t) : (t.side k).socket =
      (s.side k).socket.sendRaw (.reject e.clientId .staleRoom none) :=
  (Sys.retains_replied (F := ∅) (Sys.caching_of_reaches hs k) hstale h).1

/-- **The grace.** In every run, a send without a day that is decided upon within 3 seconds of a
reset is answered as of another day exactly if the server is between two rooms, or the rollover of
that reset began no more than 3 seconds ago. -/
theorem grace_iff {env : Env} {C : Sys × (ConnKey → Turn) → Label → Prop}
    {x : Sys × (ConnKey → Turn)} {k : ConnKey} {e : SendEvent} {r : Reset} {t : Sys}
    (hn : ∀ text n m, env.normalizeText text n m ≠ .error .staleRoom)
    (hx : (timed env).Reaches C x) (hr : (x.2 k).reset = some r) (he : x.1.Dayless k e)
    (h : x.1.step env (.handle k) = some t) :
    (x.1.clock < r.sentAt + STALE_ROOM_GRACE_MS → t.Stale k e) ↔
      (x.1.clock < r.sentAt + STALE_ROOM_GRACE_MS →
        x.1.Between env k ∨ x.1.clock < r.beganAt + STALE_ROOM_GRACE_MS) := by
  rw [stale_iff hn hx hr he h, sub_lt_iff_lt_add']

namespace Demo

/-- A text of a client that does not send the day. -/
def undated : SendEvent := { clientId := "d", text := "hello", day := none }

/-- A client joins, and midnight passes. Its reset is sent `delay` milliseconds after the rollover
began; then a text of its arrives. -/
def rollsOver (delay : ℤ) : List Label :=
  oneJoined ++ switchesRoom ++ cleansUp ++ [.clock (midnight + delay)] ++ renews (conn 1) ++
    [.frame (conn 1) (.event (.send undated))]

/-- The text is the next frame of an open connection; `stale` says how its handling begins. -/
def rolledOver (delay : ℤ) (stale : Bool) (x : Sys × (ConnKey → Turn)) : Bool :=
  decide ((x.2 (conn 1)).reset = some ⟨midnight, midnight + delay⟩) &&
    decide (x.1.clock = midnight + delay) &&
    decide ((x.1.side (conn 1)).queue.head? = some (.event (.send undated))) &&
    decide ((x.1.conn (conn 1)).closed = false) &&
    ((x.1.side (conn 1)).conduct.replies.find? fun p => p.1 = undated.clientId).isNone &&
    (x.1.step (env none) (.handle (conn 1))).any fun t => t.Stale (conn 1) undated = stale

/-- A run that has been executed. -/
theorem exists_rolledOver {delay : ℤ} {stale : Bool}
    (h : ((timed (env none)).execs (fun _ _ => true) (Sys.initial noon, fun _ => ⟨0, none⟩)
      (rollsOver delay)).any (rolledOver delay stale) = true) :
    ∃ x t, (timed (env none)).Reaches Free x ∧
      (x.2 (conn 1)).reset = some ⟨midnight, midnight + delay⟩ ∧ x.1.clock = midnight + delay ∧
      x.1.Dayless (conn 1) undated ∧ x.1.step (env none) (.handle (conn 1)) = some t ∧
      (t.Stale (conn 1) undated ↔ stale = true) := by
  obtain ⟨x, hs, hP⟩ := (Option.any_eq_true _ _).mp h
  unfold rolledOver at hP
  simp only [Bool.and_eq_true, decide_eq_true_eq, Option.isNone_iff_eq_none, Option.any_eq_true]
    at hP
  obtain ⟨⟨⟨⟨⟨hreset, hclock⟩, hq⟩, hup⟩, hfresh⟩, t, ht, hstale⟩ := hP
  refine ⟨x, t, ?_, hreset, hclock, ⟨hq, rfl, hup, hfresh⟩, ht, ?_⟩
  · exact Machine.reaches_of_execs (fun _ _ _ => trivial) ⟨⟨noon, rfl⟩, rfl⟩ hs
  · rw [← hstale, decide_eq_true_iff]

theorem normalizes : ∀ text n m, (env none).normalizeText text n m ≠ .error .staleRoom := by
  intro text n m
  unfold env
  dsimp only
  split <;> exact fun h => by cases h

end Demo

/-- A run of the theorem: the session is created at once, and a text sent at once is refused. -/
theorem grace_at_midnight : ∃ x t, (timed (Demo.env none)).Reaches Free x ∧
    (x.2 (Demo.conn 1)).reset = some ⟨Demo.midnight, Demo.midnight⟩ ∧
    x.1.Dayless (Demo.conn 1) Demo.undated ∧
    x.1.step (Demo.env none) (.handle (Demo.conn 1)) = some t ∧
    (x.1.clock < Demo.midnight + STALE_ROOM_GRACE_MS → t.Stale (Demo.conn 1) Demo.undated) := by
  obtain ⟨x, t, hx, hr, -, he, ht, -⟩ :=
    @Demo.exists_rolledOver 0 true (by decide +kernel)
  exact ⟨x, t, hx, hr, he, ht, (grace_iff Demo.normalizes hx hr he ht).mpr Or.inr⟩

/-- The session takes 3 seconds to create. A text without a day that arrives at the instant at which
the reset is sent is not refused. -/
theorem grace_spent : ∃ x r t, (timed (Demo.env none)).Reaches Free x ∧
    (x.2 (Demo.conn 1)).reset = some r ∧ x.1.Dayless (Demo.conn 1) Demo.undated ∧
    x.1.clock = r.sentAt ∧ x.1.step (Demo.env none) (.handle (Demo.conn 1)) = some t ∧
    ¬ t.Stale (Demo.conn 1) Demo.undated := by
  obtain ⟨x, t, hx, hr, hclock, he, ht, hstale⟩ :=
    @Demo.exists_rolledOver 3000 false (by decide +kernel)
  exact ⟨x, _, t, hx, hr, he, hclock, ht, fun hs => Bool.false_ne_true (hstale.mp hs)⟩

end RoomBackend
