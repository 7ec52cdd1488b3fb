import RoomBackend.Succession

/-! # A clock that may step back

`SyncedClock.sync` recomputes the offset to the clock of the store, so that the instants
`checkRoom` and `decide` read may step back. In the machine below the clock is set to any
instant at any time. `checkRoom` compares room ids for inequality only: as long as no check
reads an instant of an earlier day than that of the room in force, every switch enters a later
day, and only earlier rooms are left, cleaned up and renewed from. -/

namespace RoomBackend

open Async Day Lts

/-! ### The machine -/

/-- The system, with a clock that can be set to any instant. -/
def drifting (env : Env) : Machine Sys (Label ⊕ ℤ) :=
  { init := fun s => ∃ t, s = Sys.initial t
    step := fun s l =>
      match l with
      | .inl l => s.step env l
      | .inr t => some (s.onCore fun c => { c with clock := t }) }

/-- If the room of a server is to be switched now, it is switched to one of a later day. -/
def Core.looksAhead (env : Env) (c : Core) (i : InstanceId) : Bool :=
  (c.srv i).rolling.isSome || decide ((env.roomAt c.clock).roomId = (c.srv i).room.roomId) ||
    decide ((c.srv i).room.day < (env.roomAt c.clock).day)

/-- No check of the room reads an instant of an earlier day. -/
def Sys.looksAhead (env : Env) (s : Sys) : Label ⊕ ℤ → Bool
  | .inl (.tick i) => s.toCore.looksAhead env i
  | .inl (.handle k) => !(s.conn k).joined || s.toCore.looksAhead env k.inst
  | _ => true

/-- The day of the room that an entry says the connection was renewed from. -/
def Obs.left (k : ConnKey) : Obs → Option ℤ
  | .rolled j _ prev _ _ => if j = k then some prev.day else none
  | _ => none

/-- The days that the connection was renewed from, in order. -/
def World.left (w : World) (k : ConnKey) : List ℤ := w.journal.filterMap (Obs.left k)

theorem World.mem_left {w : World} {k : ConnKey} {d : ℤ} :
    d ∈ w.left k ↔ ∃ n prev old new, .rolled k n prev old new ∈ w.journal ∧ prev.day = d := by
  rw [left, List.mem_filterMap]
  constructor
  · rintro ⟨o, ho, hd⟩
    cases o with
    | rolled j n prev old new =>
        have hj : j = k ∧ prev.day = d := by simpa [Obs.left] using hd
        exact ⟨n, prev, old, new, hj.1 ▸ ho, hj.2⟩
    | _ => cases hd
  · rintro ⟨n, prev, old, new, ho, hd⟩
    exact ⟨_, ho, by simp [Obs.left, hd]⟩

/-! ### Switches of the room -/

theorem Switches.ahead {env : Env} {s : Sys} {l : Label} {i : InstanceId}
    (h : Switches s.toCore l i) (hl : s.looksAhead env (.inl l) = true)
    (hr : (s.srv i).rolling = none) (hn : (env.roomAt s.clock).roomId ≠ (s.srv i).room.roomId) :
    (s.srv i).room.day < (env.roomAt s.clock).day := by
  have key : s.toCore.looksAhead env i = true → (s.srv i).room.day < (env.roomAt s.clock).day := by
    intro ha
    simpa [Core.looksAhead, hr, hn] using ha
  cases h with
  | tick => exact key hl
  | handle hk hj =>
      apply key
      simpa [Sys.looksAhead, hj] using hl

/-- A step leaves the room and lets the rollover go on, starts the server, or switches the
room. -/
theorem Shift.room_cases {env : Env} {c : Core} {l : Label} {k : ConnKey} {b : Berth}
    (h : Shift env c l k b) :
    ((c.srv k.inst).started = false ∧ b.rolling = (c.srv k.inst).rolling) ∨
    (b.room = c.roomOf k ∧ b.resets = (c.srv k.inst).resets ∧
      ∀ p', b.rolling = some p' → ∃ p, (c.srv k.inst).rolling = some p ∧ p'.prev = p.prev) ∨
    (Switches c l k.inst ∧ (c.srv k.inst).rolling = none ∧
      (env.roomAt c.clock).roomId ≠ (c.roomOf k).roomId ∧ b.room = env.roomAt c.clock ∧
      b.resets = (c.srv k.inst).resets + 1 ∧
      b.rolling = some (.acquire (c.roomOf k) (env.roomAt c.clock) .pending)) := by
  cases h with
  | start hs => exact Or.inl ⟨hs, rfl⟩
  | switch hl hnext hr hn =>
      subst hnext
      exact Or.inr (Or.inr ⟨hl, hr, hn, rfl, rfl, rfl⟩)
  | waits hp hu hu' hprev =>
      refine Or.inr (Or.inl ⟨rfl, rfl, fun p' hp' => ?_⟩)
      cases hp'
      exact ⟨_, hp, hprev⟩
  | ended hp hk =>
      refine Or.inr (Or.inl ⟨rfl, rfl, fun p' hp' => ?_⟩)
      cases hp'
  | batch hp hk =>
      refine Or.inr (Or.inl ⟨rfl, rfl, fun p' hp' => ?_⟩)
      cases hp'
      exact ⟨_, hp, rfl⟩
  | begins hp hk =>
      refine Or.inr (Or.inl ⟨rfl, rfl, fun p' hp' => ?_⟩)
      cases hp'
      exact ⟨_, hp, rfl⟩
  | batched hp =>
      refine Or.inr (Or.inl ⟨rfl, rfl, fun p' hp' => ?_⟩)
      cases hp'
      exact ⟨_, hp, rfl⟩
  | _ => exact Or.inr (Or.inl ⟨rfl, rfl, fun p' hp' => ⟨p', hp', rfl⟩⟩)

/-- From one state to a later one a server that has started stays started, its day does not
decrease, and every switch of its room enters a later day. -/
def Sys.Ahead (s t : Sys) : Prop :=
  ∀ i, (s.srv i).started = true → (t.srv i).started = true ∧
    (s.srv i).room.day ≤ (t.srv i).room.day ∧ (s.srv i).resets ≤ (t.srv i).resets ∧
    ((s.srv i).resets < (t.srv i).resets → (s.srv i).room.day < (t.srv i).room.day)

theorem Sys.Ahead.refl (s : Sys) : s.Ahead s :=
  fun _ hs => ⟨hs, le_refl _, le_refl _, fun h => absurd h (lt_irrefl _)⟩

theorem Sys.Ahead.trans {s t u : Sys} (h : s.Ahead t) (h' : t.Ahead u) : s.Ahead u := by
  intro i hs
  obtain ⟨ht, hd, hr, hlt⟩ := h i hs
  obtain ⟨hu, hd', hr', hlt'⟩ := h' i ht
  refine ⟨hu, hd.trans hd', hr.trans hr', fun hsu => ?_⟩
  rcases Nat.lt_or_ge (s.srv i).resets (t.srv i).resets with hst | hst
  · exact (hlt hst).trans_le hd'
  · exact hd.trans_lt (hlt' (hst.trans_lt hsu))

/-! ### The invariant -/

/-- Rooms are left for rooms of later days only: the rollover in progress leaves an earlier
room than the one in force, and each connection was renewed from earlier and earlier rooms. -/
structure Forward (c : Core) : Prop where
  started : ∀ k n prev old new, .rolled k n prev old new ∈ c.world.journal →
    (c.srv k.inst).started = true
  leaves : ∀ k p, (c.berth k).rolling = some p → p.prev.day < (c.berth k).room.day
  left : ∀ k n prev old new, .rolled k n prev old new ∈ c.world.journal →
    prev.day < (c.berth k).room.day
  earlier : ∀ k n prev old new, .rolled k n prev old new ∈ c.world.journal →
    n < (c.berth k).resets → ∀ p, (c.berth k).rolling = some p → prev.day < p.prev.day
  sorted : ∀ k, (c.world.left k).Pairwise (· < ·)

/-- What is known of every reached state whatever the clock shows. -/
structure Timeless (c : Core) : Prop where
  seats : Seats c
  born : Born c
  renewals : Renewals c
  once : Once c

theorem Timeless.step {env : Env} {up : ConnKey → Bool} {c c' : Core} {l : Label}
    (hs : CoreStep env up c l c') (h : Timeless c) : Timeless c' :=
  ⟨h.seats.step hs, h.born.step hs, h.renewals.step hs h.seats h.born,
    h.once.step hs h.seats h.renewals⟩

theorem Timeless.clock {c : Core} (h : Timeless c) (t : ℤ) : Timeless { c with clock := t } :=
  ⟨⟨h.seats.members, h.seats.nodup, h.seats.fresh, h.seats.network⟩,
    ⟨h.born.asked, h.born.running, h.born.numbered, h.born.unborn⟩,
    ⟨h.renewals.started, h.renewals.nodup, h.renewals.fits⟩,
    ⟨h.once.nodup, h.once.le, h.once.due⟩⟩

theorem Forward.clock {c : Core} (h : Forward c) (t : ℤ) : Forward { c with clock := t } :=
  ⟨h.started, h.leaves, h.left, h.earlier, h.sorted⟩

theorem Obs.left_eq_none {o : Obs} (h : o.renewal = none) (k : ConnKey) : o.left k = none := by
  cases o with
  | rolled => cases h
  | _ => rfl

theorem Forward.step {env : Env} {s : Sys} {l : Label} {c' : Core}
    (hs : CoreStep env s.up s.toCore l c') (hT : Timeless s.toCore)
    (hl : s.looksAhead env (.inl l) = true) (h : Forward s.toCore) : Forward c' := by
  have running : ∀ k p, (s.toCore.berth k).rolling = some p → (s.srv k.inst).started = true := by
    intro k p hp
    cases hst : (s.srv k.inst).started with
    | true => rfl
    | false =>
        have hn : (s.toCore.berth k).rolling = none := hT.renewals.started _ hst
        rw [hn] at hp
        cases hp
  have started : ∀ k : ConnKey, (s.srv k.inst).started = true → (c'.srv k.inst).started = true :=
    fun k => (hs.srv k.inst).started
  have turn := fun k : ConnKey => (hs.shift hT.seats k).room_cases
  have leaves : ∀ k p, (c'.berth k).rolling = some p → p.prev.day < (c'.berth k).room.day := by
    intro k p' hp'
    rcases turn k with ⟨hst, hr⟩ | ⟨hroom, -, hp⟩ | ⟨hsw, hr, hn, hroom, -, hroll⟩
    · rw [hr] at hp'
      rw [running k p' hp'] at hst
      cases hst
    · obtain ⟨p, hp, hprev⟩ := hp p' hp'
      rw [hroom, hprev]
      exact h.leaves k p hp
    · rw [hroll] at hp'
      cases hp'
      rw [hroom]
      exact hsw.ahead hl hr hn
  have left : ∀ k n prev old new, .rolled k n prev old new ∈ s.world.journal →
      prev.day < (c'.berth k).room.day := by
    intro k n prev old new hm
    have hlt := h.left k n prev old new hm
    rcases turn k with ⟨hst, -⟩ | ⟨hroom, -, -⟩ | ⟨hsw, hr, hn, hroom, -, -⟩
    · cases hst.symm.trans (h.started k n prev old new hm)
    · rw [hroom]
      exact hlt
    · rw [hroom]
      exact hlt.trans (hsw.ahead hl hr hn)
  have earlier : ∀ k n prev old new, .rolled k n prev old new ∈ s.world.journal →
      n < (c'.berth k).resets → ∀ p, (c'.berth k).rolling = some p → prev.day < p.prev.day := by
    intro k n prev old new hm hlt p' hp'
    rcases turn k with ⟨hst, -⟩ | ⟨-, hres, hp⟩ | ⟨-, -, -, -, -, hroll⟩
    · cases hst.symm.trans (h.started k n prev old new hm)
    · obtain ⟨p, hp, hprev⟩ := hp p' hp'
      rw [hprev]
      rw [hres] at hlt
      exact h.earlier k n prev old new hm hlt p hp
    · rw [hroll] at hp'
      cases hp'
      exact h.left k n prev old new hm
  obtain ⟨log, hlog, hw⟩ := hs.world.log
  have hleft : ∀ k, c'.world.left k = s.world.left k ++ log.filterMap (Obs.left k) := by
    intro k
    rw [World.left, hw, List.filterMap_append]
    rfl
  rcases hlog.renewal with hnil | ⟨j, p, prev, r, token, d, rfl, hp, hprev, hr, hc, rfl⟩
  · -- no connection is renewed
    have old : ∀ {k n prev old new}, .rolled k n prev old new ∈ c'.world.journal →
        .rolled k n prev old new ∈ s.world.journal := by
      intro k n prev old new hm
      rw [hw] at hm
      rcases List.mem_append.mp hm with hm | hm
      · exact hm
      · have := List.filterMap_eq_nil_iff.mp hnil _ hm
        cases this
    refine ⟨fun k n prev old' new hm => started k (h.started k n prev old' new (old hm)), leaves,
      fun k n prev old' new hm => left k n prev old' new (old hm),
      fun k n prev old' new hm => earlier k n prev old' new (old hm), fun k => ?_⟩
    have hnone : log.filterMap (Obs.left k) = [] :=
      List.filterMap_eq_nil_iff.mpr fun o ho =>
        Obs.left_eq_none (List.filterMap_eq_nil_iff.mp hnil o ho) k
    rw [hleft, hnone, List.append_nil]
    exact h.sorted k
  · -- `j` is renewed, from the room that its server leaves
    obtain ⟨-, -, prev', current, rest, hb, -⟩ := (hT.renewals.fits j).renewing p hp
    obtain rfl := hprev _ _ _ _ hb
    have hrun : (s.srv j.inst).started = true := running j _ hb
    obtain ⟨hroom, hres⟩ : (c'.berth j).room = s.toCore.roomOf j ∧
        (c'.berth j).resets = (s.srv j.inst).resets := by
      rcases turn j with ⟨hst, -⟩ | ⟨hroom, hres, -⟩ | ⟨hsw, -⟩
      · cases hst.symm.trans hrun
      · exact ⟨hroom, hres⟩
      · cases hsw
    have hdue : (s.toCore.berth j).Due j.seq :=
      Or.inl (Option.isSome_iff_exists.mpr ⟨p, hp⟩)
    have split : ∀ {k n prev₁ old new}, .rolled k n prev₁ old new ∈ c'.world.journal →
        .rolled k n prev₁ old new ∈ s.world.journal ∨
          k = j ∧ n = (s.srv j.inst).resets ∧ prev₁ = prev := by
      intro k n prev₁ old new hm
      rw [hw] at hm
      rcases List.mem_append.mp hm with hm | hm
      · exact Or.inl hm
      · cases List.mem_singleton.mp hm
        exact Or.inr ⟨rfl, rfl, rfl⟩
    refine ⟨fun k n prev₁ old new hm => ?_, leaves, fun k n prev₁ old new hm => ?_,
      fun k n prev₁ old new hm hlt => ?_, fun k => ?_⟩
    · rcases split hm with hm | ⟨rfl, -, -⟩
      · exact started k (h.started k n prev₁ old new hm)
      · exact started k hrun
    · rcases split hm with hm | ⟨rfl, -, rfl⟩
      · exact left k n prev₁ old new hm
      · rw [hroom]
        exact h.leaves k _ hb
    · rcases split hm with hm | ⟨rfl, rfl, -⟩
      · exact earlier k n prev₁ old new hm hlt
      · rw [hres] at hlt
        exact absurd hlt (lt_irrefl _)
    · rw [hleft]
      by_cases hk : j = k
      · subst hk
        refine List.pairwise_append.mpr ⟨h.sorted j, ?_, fun d hd d' hd' => ?_⟩
        · simp [Obs.left]
        · have hd'' : d' = prev.day := by simpa [Obs.left] using hd'
          obtain ⟨n, prev₁, old, new, hm, rfl⟩ := World.mem_left.mp hd
          rw [hd'']
          have hren : (j, n) ∈ s.world.renewals := List.mem_filterMap.mpr ⟨_, hm, rfl⟩
          exact h.earlier j n prev₁ old new hm (hT.once.due j n hren hdue) _ hb
      · simpa [Obs.left, hk] using h.sorted k

theorem Sys.ahead_step {env : Env} {s t : Sys} {l : Label} (hs : s.step env l = some t)
    (hT : Timeless s.toCore) (hl : s.looksAhead env (.inl l) = true) : s.Ahead t := by
  have hc := Sys.coreStep hs
  intro i hst
  have hturn := (hc.shift hT.seats ⟨i, 0⟩).room_cases
  refine ⟨(hc.srv i).started hst, ?_⟩
  rcases hturn with ⟨hst', -⟩ | ⟨hroom, hres, -⟩ | ⟨hsw, hr, hn, hroom, hres, -⟩
  · cases hst.symm.trans hst'
  · have hroom' : (t.srv i).room = (s.srv i).room := hroom
    have hres' : (t.srv i).resets = (s.srv i).resets := hres
    rw [hroom', hres']
    exact ⟨le_refl _, le_refl _, fun h => absurd h (lt_irrefl _)⟩
  · have hroom' : (t.srv i).room = env.roomAt s.clock := hroom
    have hres' : (t.srv i).resets = (s.srv i).resets + 1 := hres
    have hlt := hsw.ahead hl hr hn
    rw [hroom', hres']
    exact ⟨hlt.le, Nat.le_succ _, fun _ => hlt⟩

/-! ### Runs -/

theorem timeless_of_reaches {env : Env} {C : Sys → Label ⊕ ℤ → Prop} {s : Sys}
    (h : (drifting env).Reaches C s) : Timeless s.toCore := by
  refine Machine.Reaches.invariant (I := fun s => Timeless s.toCore) ?_ ?_ h
  · rintro s ⟨t, rfl⟩
    have hreach : (system env).Reaches Free (Sys.initial t) := ⟨_, [], ⟨t, rfl⟩, Machine.Run.nil _⟩
    exact ⟨seats_of_reaches hreach, born_of_reaches hreach, renewals_of_reaches hreach,
      once_of_reaches hreach⟩
  · intro s l t hI _ hs
    cases l with
    | inl l => exact hI.step (Sys.coreStep hs)
    | inr t' =>
        obtain rfl := Option.some.inj hs
        exact hI.clock t'

theorem forward_of_reaches {env : Env} {s : Sys}
    (h : (drifting env).Reaches (fun s l => s.looksAhead env l = true) s) : Forward s.toCore := by
  refine Machine.Reaches.invariant_of (J := fun s => Timeless s.toCore)
    (I := fun s => Forward s.toCore) (fun s hs => timeless_of_reaches hs) ?_ ?_ h
  · rintro s ⟨t, rfl⟩
    exact ⟨fun k n prev old new hm => absurd hm List.not_mem_nil,
      fun k p hp => (Option.some_ne_none p hp.symm).elim,
      fun k n prev old new hm => absurd hm List.not_mem_nil,
      fun k n prev old new hm => absurd hm List.not_mem_nil, fun k => List.Pairwise.nil⟩
  · intro s l t hT hI hl hs
    cases l with
    | inl l => exact hI.step (Sys.coreStep hs) hT hl
    | inr t' =>
        obtain rfl := Option.some.inj hs
        exact hI.clock t'

theorem ahead_of_run {env : Env} {s t : Sys} {ls : List (Label ⊕ ℤ)}
    (h : (drifting env).Reaches (fun s l => s.looksAhead env l = true) s)
    (hr : (drifting env).Run (fun s l => s.looksAhead env l = true) s ls t) : s.Ahead t := by
  induction hr with
  | nil s => exact Sys.Ahead.refl s
  | @cons s u t l ls hl hs hr ih =>
      refine Sys.Ahead.trans ?_ (ih (h.step hl hs))
      cases l with
      | inl l => exact Sys.ahead_step hs (timeless_of_reaches h) hl
      | inr t' =>
          obtain rfl := Option.some.inj hs
          exact Sys.Ahead.refl s

/-- **One midnight after another.** In every run, with a clock that is set to any instants, in
which no check of the room reads an instant of an earlier day: the day of a server's room does
not decrease and every rollover enters a later day, so that no boundary is rolled over twice;
the room that a rollover leaves, cleans up and renews from is of an earlier day than the room in
force; and a connection is renewed from later and later days, never twice around one midnight. -/
theorem boundaries_of_reaches {env : Env} {s : Sys}
    (h : (drifting env).Reaches (fun s l => s.looksAhead env l = true) s) :
    (∀ ls t, (drifting env).Run (fun s l => s.looksAhead env l = true) s ls t →
      ∀ i, (s.srv i).started = true → (s.srv i).room.day ≤ (t.srv i).room.day ∧
        ((s.srv i).resets < (t.srv i).resets → (s.srv i).room.day < (t.srv i).room.day)) ∧
    (∀ i p, (s.srv i).rolling = some p →
      p.prev.day < (s.srv i).room.day ∧ p.prev.roomId ≠ (s.srv i).room.roomId) ∧
    ∀ k, (s.world.left k).Pairwise (· < ·) := by
  have hF := forward_of_reaches h
  refine ⟨fun ls t hr i hst => ?_, fun i p hp => ⟨hF.leaves ⟨i, 0⟩ p hp, ?_⟩, hF.sorted⟩
  · obtain ⟨-, hd, -, hlt⟩ := ahead_of_run h hr i hst
    exact ⟨hd, hlt⟩
  · obtain ⟨hnext, hne⟩ := ((timeless_of_reaches h).renewals.fits ⟨i, 0⟩).room p hp
    rw [hnext] at hne
    exact hne

/-! ### Two midnights, and one midnight twice -/

/-- The labels of a stretch with a clock that goes on. -/
def onward (ls : List Label) : List (Label ⊕ ℤ) := ls.map .inl

/-- Midnight passes with one client joined, and the server is done with it. -/
def passesMidnight : List Label :=
  Demo.oneJoined ++ switchesRoom ++ cleansUp ++ renews (Demo.conn 1)
    ++ [.resume (.reset 0), .resume (.reset 0)]

/-- A successful execution shows that its end is reached. -/
theorem exists_drifted (env : Env) (c : Sys → Label ⊕ ℤ → Bool) (P : Sys → Sys → Bool) (t : ℤ)
    (ls ls' : List (Label ⊕ ℤ))
    (h : ((drifting env).execs c (Sys.initial t) ls).any (fun s =>
      ((drifting env).execs c s ls').any fun u => P s u) = true) :
    ∃ s u, (drifting env).Reaches (fun s l => c s l = true) s ∧
      (drifting env).Run (fun s l => c s l = true) s ls' u ∧ P s u = true := by
  obtain ⟨s, hs, h⟩ := (Option.any_eq_true _ _).mp h
  obtain ⟨u, hu, hP⟩ := (Option.any_eq_true _ _).mp h
  exact ⟨s, u, Machine.reaches_of_execs (fun _ _ hc => hc) ⟨t, rfl⟩ hs,
    Machine.run_of_execs (fun _ _ hc => hc) hu, hP⟩

/-- A run of the theorem: a client that joined at noon is renewed at one midnight, and the next
one switches the room again. -/
theorem boundaries_passed : ∃ s t ls,
    (drifting (Demo.env none)).Reaches (fun s l => s.looksAhead (Demo.env none) l = true) s ∧
    (drifting (Demo.env none)).Run (fun s l => s.looksAhead (Demo.env none) l = true) s ls t ∧
    (s.world.left (Demo.conn 1)).length = 1 ∧ (s.srv 0).room.day < (t.srv 0).room.day := by
  obtain ⟨s, t, hs, hr, hP⟩ := exists_drifted (Demo.env none) (Sys.looksAhead (Demo.env none))
    (fun s t => decide ((s.srv 0).started = true ∧ (s.world.left (Demo.conn 1)).length = 1 ∧
      (s.srv 0).resets < (t.srv 0).resets)) Demo.noon (onward passesMidnight)
    [.inr (Demo.midnight + dayMs), .inl (.tick 0)] (by decide +kernel)
  obtain ⟨hst, hlen, hlt⟩ := of_decide_eq_true hP
  exact ⟨s, t, _, hs, hr, hlen, ((boundaries_of_reaches hs).1 _ _ hr 0 hst).2 hlt⟩

/-- Without the condition, a clock that is set back by a millisecond after midnight sends the
server back to the day before, deletes the history of the new day, and renews the client twice
around that midnight. -/
theorem boundaries_recrossed : ∃ s t ls, (drifting (Demo.env none)).Reaches Free s ∧
    (drifting (Demo.env none)).Run Free s ls t ∧ (s.srv 0).started = true ∧
    (t.srv 0).room.day < (s.srv 0).room.day ∧
    (∃ p, (t.srv 0).rolling = some p ∧ (t.srv 0).room.day < p.prev.day) ∧
    (s.world.left (Demo.conn 1)).length = 1 ∧ (t.world.left (Demo.conn 1)).length = 2 := by
  obtain ⟨s, t, hs, hr, hP⟩ := exists_drifted (Demo.env none) (fun _ _ => true)
    (fun s t => decide ((s.srv 0).started = true ∧ (t.srv 0).room.day < (s.srv 0).room.day ∧
      (s.world.left (Demo.conn 1)).length = 1 ∧ (t.world.left (Demo.conn 1)).length = 2) &&
      (t.srv 0).rolling.any fun p => decide ((t.srv 0).room.day < p.prev.day)) Demo.noon
    (onward passesMidnight)
    ([.inr (Demo.midnight - 1), .inl (.tick 0)] ++ onward (cleansUp ++ renews (Demo.conn 1)))
    (by decide +kernel)
  obtain ⟨hP, hroll⟩ := Bool.and_eq_true_iff.mp hP
  obtain ⟨hst, hday, hlen, hlen'⟩ := of_decide_eq_true hP
  obtain ⟨p, hp, hlt⟩ := (Option.any_eq_true _ _).mp hroll
  exact ⟨s, t, _, hs.mono fun _ _ _ => trivial, hr.mono fun _ _ _ => trivial, hst, hday,
    ⟨p, hp, of_decide_eq_true hlt⟩, hlen, hlen'⟩

end RoomBackend
