import RoomBackend.Fanout
import RoomBackend.Histories
import RoomBackend.Vitals

/-! # Heartbeats

A tick terminates a connection that has sent nothing since the last ping, and one that has sent
nothing for two minutes. `watched` is the system beside what can be seen of its clients: when each
was last heard of, and when it was last pinged. Where ticks are more than two minutes apart, the
second rule is for clients that answer each ping. -/

namespace RoomBackend

open Async Day Lts

/-- The values of `HEARTBEAT_MS` that the configuration admits. -/
def HEARTBEAT_MS.admits (n : ℤ) : Bool := 100 ≤ n

/-- What can be seen of a client: its last frame or pong, whether there was none since the last
tick, and that tick. Before the first of each, the time the connection was made. -/
structure Watch where
  heardAt : ℤ
  silent : Bool
  tickedAt : ℤ
deriving DecidableEq

/-- What a step from `s` to `t` shows. -/
def Watch.next (s : Sys) (l : Label) (t : Sys) (k : ConnKey) (w : Watch) : Watch :=
  if k ∉ s.accepted ∧ k ∈ t.accepted then ⟨s.clock, false, s.clock⟩
  else
    match l with
    | .pong j => if j = k then { w with heardAt := s.clock, silent := false } else w
    | .frame j _ => if j = k then { w with heardAt := s.clock, silent := false } else w
    | .heartbeat i => if i = k.inst then { w with silent := true, tickedAt := s.clock } else w
    | _ => w

/-- The system, and what its clients have shown. -/
def watched (env : Env) : Machine (Sys × (ConnKey → Watch)) Label :=
  (system env).beside (fun _ => ⟨0, false, 0⟩) fun s l t w k => (w k).next s l t k

/-- The client answers each ping before the next tick. -/
def AnswersPings (k : ConnKey) (x : Sys × (ConnKey → Watch)) : Label → Prop
  | .heartbeat i => i = k.inst → (x.2 k).silent = false
  | _ => True

/-- The ticks of its server are at most `heartbeatMs` apart. -/
def Paced (heartbeatMs : ℤ) (k : ConnKey) (x : Sys × (ConnKey → Watch)) : Label → Prop
  | .heartbeat i => i = k.inst → x.1.clock - (x.2 k).tickedAt ≤ heartbeatMs
  | _ => True

instance (k : ConnKey) (x : Sys × (ConnKey → Watch)) (l : Label) :
    Decidable (AnswersPings k x l) := by
  cases l <;> unfold AnswersPings <;> infer_instance

instance (heartbeatMs : ℤ) (k : ConnKey) (x : Sys × (ConnKey → Watch)) (l : Label) :
    Decidable (Paced heartbeatMs k x l) := by
  cases l <;> unfold Paced <;> infer_instance

theorem Paced.mono {n m : ℤ} {k : ConnKey} {x : Sys × (ConnKey → Watch)} {l : Label}
    (h : Paced n k x l) (hnm : n ≤ m) : Paced m k x l := by
  cases l with
  | heartbeat i => exact fun hi => (h hi).trans hnm
  | _ => trivial

/-! ### One tick -/

/-- What a tick does to a side. -/
def Side.heartbeat (now : ℤ) (d : Side) : Side :=
  if !d.conduct.alive ∨ now - d.conduct.lastFrameAt > IDLE_TIMEOUT_MS then
    { d with socket := d.socket.terminate }
  else { d with conduct := { d.conduct with alive := false } }

/-- The rule of a tick: a frame or pong since the last one, and one in the last two minutes. -/
def Side.Spared (now : ℤ) (d : Side) : Prop :=
  d.conduct.alive = true ∧ now - d.conduct.lastFrameAt ≤ IDLE_TIMEOUT_MS

theorem Side.heartbeat_of_spared {now : ℤ} {d : Side} (h : d.Spared now) :
    d.heartbeat now = { d with conduct := { d.conduct with alive := false } } := by
  unfold heartbeat
  rw [if_neg]
  rw [not_or, h.1]
  exact ⟨by simp, not_lt.mpr h.2⟩

theorem Side.heartbeat_of_not_spared {now : ℤ} {d : Side} (h : ¬ d.Spared now) :
    d.heartbeat now = { d with socket := d.socket.terminate } := by
  unfold heartbeat
  rw [if_pos]
  by_contra hn
  rw [not_or] at hn
  exact h ⟨by simpa using hn.1, not_lt.mp hn.2⟩

theorem Side.spared_of_opened {now : ℤ} {d : Side} (h : (d.heartbeat now).socket.state = .opened) :
    d.Spared now := by
  by_contra hn
  rw [heartbeat_of_not_spared hn] at h
  exact d.socket.terminate_ne_opened h

theorem Side.vitals_heartbeat {now : ℤ} {d : Side} (h : d.Spared now) :
    (d.heartbeat now).conduct.vitals = { d.conduct.vitals with alive := false } := by
  rw [heartbeat_of_spared h]
  rfl

/-- An open socket is left as it is exactly by the rule. -/
theorem Side.heartbeat_socket {now : ℤ} {d : Side} (h : d.socket.state = .opened) :
    (d.heartbeat now).socket = d.socket ↔ d.Spared now := by
  constructor
  · intro he
    exact spared_of_opened (by rw [he, h])
  · intro hs
    rw [heartbeat_of_spared hs]

namespace Sys

variable {env : Env} {s t : Sys} {k : ConnKey} {l : Label}

theorem heartbeat_side (j : ConnKey) :
    (s.heartbeat j).side = Function.update s.side j ((s.side j).heartbeat s.clock) := by
  unfold heartbeat Side.heartbeat
  dsimp only
  split_ifs <;> rfl

theorem toCore_heartbeat (j : ConnKey) : (s.heartbeat j).toCore = s.toCore := by
  unfold heartbeat
  dsimp only
  split <;> rfl

theorem heartbeats_side (hS : Seats s.toCore) (hk : k.seq ∈ (s.srv k.inst).conns) :
    (s.heartbeats k.inst).side k = (s.side k).heartbeat s.clock := by
  have hloop := forConns_side (i := k.inst) (f := fun j u => u.heartbeat j)
    (g := fun _ c d => d.heartbeat c.clock) (fun j u => toCore_heartbeat j)
    (fun j u => heartbeat_side j) k.seq (s.srv k.inst).conns s (hS.nodup k.inst)
  rw [if_pos hk] at hloop
  exact hloop

/-! ### What is seen and what is stored -/

/-- A new connection starts alive. -/
theorem vitals_new (h : s.step env l = some t) (hs : k ∉ s.accepted) (ht : k ∈ t.accepted) :
    t.vitals k = ⟨[], 0, true, s.clock⟩ := by
  rcases (coreStep h).accepted with he | ⟨n, u, rfl, hu, hpc, hd, he⟩
  · rw [he] at ht
    exact absurd ht hs
  · obtain ⟨u', hu', h⟩ := Option.bind_eq_some_iff.mp h
    obtain rfl : u = u' := Option.some.inj (hu.symm.trans hu')
    obtain ⟨pc, hr, rfl⟩ := Option.map_eq_some_iff.mp h
    rw [hpc, hd] at hr
    obtain rfl := Option.some.inj hr
    rw [he] at ht
    rcases List.mem_append.mp ht with hm | hm
    · exact absurd hm hs
    · obtain rfl := List.mem_singleton.mp hm
      dsimp only
      rw [if_pos (by rfl), vitals_accept]
      exact Function.update_self _ _ _

end Sys

/-- What is seen is what the connection stores. -/
structure Watch.Fits (w : Watch) (now : ℤ) (v : Vitals) : Prop where
  alive : v.alive = !w.silent
  heard : v.lastFrameAt = w.heardAt
  ticked : w.tickedAt ≤ now
  answered : w.silent = false → w.tickedAt ≤ w.heardAt

theorem Watch.Fits.later {w : Watch} {now now' : ℤ} {v v' : Vitals} (h : w.Fits now v)
    (hn : now ≤ now') (ha : v'.alive = v.alive) (hl : v'.lastFrameAt = v.lastFrameAt) :
    w.Fits now' v' :=
  ⟨ha.trans h.alive, hl.trans h.heard, h.ticked.trans hn, h.answered⟩

theorem Watch.Fits.hears {w : Watch} {now : ℤ} {v : Vitals} (h : w.Fits now v) :
    Watch.Fits { w with heardAt := now, silent := false } now
      { v with alive := true, lastFrameAt := now } :=
  ⟨rfl, rfl, h.ticked, fun _ => h.ticked⟩

namespace Sys

variable {env : Env} {s t : Sys} {k : ConnKey} {l : Label}

/-- A connection with an open socket was accepted. -/
theorem accepted_of_opened (hB : Born s.toCore) (hM : s.Manned) (ho : s.Opened k) :
    k ∈ s.accepted := by
  by_contra hk
  refine hM k ?_ ho
  rw [hB.unborn k hk]
  rfl

/-- One step keeps what is seen and what is stored together, as long as the socket is open. -/
theorem watch_step {w : Watch} (hB : Born s.toCore) (hS : Seats s.toCore) (hM : s.Manned)
    (hP : s.Polite) (h : s.step env l = some t) (hB' : Born t.toCore) (hM' : t.Manned)
    (hw : s.Opened k → w.Fits s.clock (s.vitals k)) (ho : t.Opened k) :
    (w.next s l t k).Fits t.clock (t.vitals k) := by
  have hacc := accepted_of_opened hB' hM' ho
  have hclock := clock_mono h
  unfold Watch.next
  by_cases hk : k ∈ s.accepted
  · rw [if_neg fun hn => hn.1 hk]
    have hos : s.Opened k := by
      rcases step_sides hP h k with hm | ⟨n, u, -, rfl, -, -⟩
      · exact hm.opened ho
      · exact absurd (hB.numbered _ hk) (Nat.not_succ_le_self _)
    have hfits := hw hos
    have hlater : ∀ v : Vitals, v.alive = (s.vitals k).alive →
        v.lastFrameAt = (s.vitals k).lastFrameAt → w.Fits t.clock v :=
      fun v ha hl => hfits.later hclock ha hl
    cases l with
    | pong j =>
        dsimp only
        obtain ⟨-, he⟩ := Option.ite_none_left_eq_some.mp h
        cases he
        rw [vitals_onPong]
        by_cases hj : j = k
        · subst hj
          rw [if_pos rfl, Function.update_self]
          exact hfits.hears
        · rw [if_neg hj, Function.update_of_ne (Ne.symm hj)]
          exact hlater _ rfl rfl
    | frame j raw =>
        dsimp only
        obtain ⟨-, he⟩ := Option.ite_none_left_eq_some.mp h
        cases he
        have hclk := clock_step h fun _ hn => by cases hn
        rw [vitals_onFrame, hclk]
        by_cases hj : j = k
        · subst hj
          rw [if_pos rfl, Function.update_self]
          exact hfits.hears
        · rw [if_neg hj, Function.update_of_ne (Ne.symm hj)]
          exact hfits
    | heartbeat i =>
        dsimp only
        obtain ⟨-, he⟩ := Option.ite_none_right_eq_some.mp h
        cases he
        by_cases hi : i = k.inst
        · subst hi
          have hside := heartbeats_side hS (listed_of_opened hS hM hos)
          have hclk := clock_step h fun _ hn => by cases hn
          have ht : ((s.heartbeats k.inst).side k).socket.state = .opened := ho
          rw [hside] at ht
          rw [if_pos rfl, hclk, vitals, hside, Side.vitals_heartbeat (Side.spared_of_opened ht)]
          exact ⟨rfl, hfits.heard, le_rfl, fun hn => by cases hn⟩
        · rw [if_neg hi]
          rcases @vitals_heartbeats s k i with hv | ⟨hn, -⟩
          · rw [hv]
            exact hlater _ rfl rfl
          · exact absurd hn.symm hi
    | _ =>
        dsimp only
        generalize hv : t.vitals k = v
        have hstep := vitals_step (k := k) hB h
        rw [hv] at hstep
        cases hstep with
        | same => exact hlater _ rfl rfl
        | replied hl hh => exact hlater _ rfl rfl
        | rolled hl hp hr hc => exact hlater _ rfl rfl
        | accepted hn => exact absurd hk hn
        | heard hl => rcases hl with hl | ⟨raw, hl⟩ <;> cases hl
        | pinged hl => cases hl
  · rw [if_pos ⟨hk, hacc⟩, vitals_new h hk hacc]
    exact ⟨rfl, rfl, hclock, fun _ => le_rfl⟩

end Sys

/-! ### Runs -/

/-- In every run, what is seen of a client with an open socket is what its connection stores. -/
theorem watch_of_reaches {env : Env} {C : Sys × (ConnKey → Watch) → Label → Prop}
    {x : Sys × (ConnKey → Watch)} (h : (watched env).Reaches C x) {k : ConnKey}
    (ho : x.1.Opened k) : (x.2 k).Fits x.1.clock (x.1.vitals k) := by
  refine Machine.Reaches.beside (M := system env)
    (I := fun s w => s.Opened k → (w k).Fits s.clock (s.vitals k)) ?_ ?_ h ho
  · rintro s ⟨time, rfl⟩ ho
    cases ho
  · intro s w l t hreach hs hI ho
    have hreach' := hreach.step trivial hs
    exact Sys.watch_step (born_of_reaches hreach) (seats_of_reaches hreach)
      (Sys.manned_of_reaches hreach) (Sys.polite_of_reaches hreach) hs (born_of_reaches hreach')
      (Sys.manned_of_reaches hreach') hI ho

/-- The rule of a tick, in terms of what is seen. -/
theorem spared_iff {env : Env} {C : Sys × (ConnKey → Watch) → Label → Prop}
    {x : Sys × (ConnKey → Watch)} {k : ConnKey} (hx : (watched env).Reaches C x)
    (ho : x.1.Opened k) : (x.1.side k).Spared x.1.clock ↔
      (x.2 k).silent = false ∧ x.1.clock - (x.2 k).heardAt ≤ IDLE_TIMEOUT_MS := by
  have hfits := watch_of_reaches hx ho
  have halive : (x.1.side k).conduct.alive = !(x.2 k).silent := hfits.alive
  have hheard : (x.1.side k).conduct.lastFrameAt = (x.2 k).heardAt := hfits.heard
  unfold Side.Spared
  rw [halive, hheard]
  cases (x.2 k).silent <;> simp

/-- A tick does to each open socket what its rule says. -/
theorem Sys.side_of_heartbeat {env : Env} {s t : Sys} {k : ConnKey}
    (hs : (system env).Reaches Free s) (ho : s.Opened k)
    (h : s.step env (.heartbeat k.inst) = some t) : t.side k = (s.side k).heartbeat s.clock := by
  obtain ⟨-, he⟩ := Option.ite_none_right_eq_some.mp h
  cases he
  have hseats := seats_of_reaches hs
  exact heartbeats_side hseats (listed_of_opened hseats (manned_of_reaches hs) ho)

/-- The clock runs on. -/
theorem watched_clock (env : Env) {s : Sys} (w : ConnKey → Watch) {time : ℤ}
    (h : s.clock ≤ time) : ∃ s', (watched env).step (s, w) (.clock time) = some (s', w) ∧
      s'.clock = time ∧ s'.side = s.side ∧ s'.srv = s.srv := by
  refine ⟨s.onCore fun c => { c with clock := time }, ?_, rfl, rfl, rfl⟩
  unfold watched Machine.beside system Sys.step
  dsimp only
  rw [if_pos h, Option.map_some]
  congr
  funext k
  unfold Watch.next
  rw [if_neg]
  exact fun hn => hn.1 hn.2

/-- A tick leaves an open socket as it is exactly if something came since the last tick and
something came in the last two minutes. -/
theorem socket_of_heartbeat {env : Env} {C : Sys × (ConnKey → Watch) → Label → Prop}
    {x : Sys × (ConnKey → Watch)} {k : ConnKey} {t : Sys} (hx : (watched env).Reaches C x)
    (ho : x.1.Opened k) (h : x.1.step env (.heartbeat k.inst) = some t) :
    (t.side k).socket = (x.1.side k).socket ↔
      (x.2 k).silent = false ∧ x.1.clock - (x.2 k).heardAt ≤ IDLE_TIMEOUT_MS := by
  rw [Sys.side_of_heartbeat hx.fst ho h, Side.heartbeat_socket ho, spared_iff hx ho]

/-- A client that answers each ping before the next tick is never terminated by one, where ticks are
at most `heartbeatMs` apart. -/
def AnswersSuffice (heartbeatMs : ℤ) : Prop :=
  ∀ (env : Env) (k : ConnKey) (x : Sys × (ConnKey → Watch)) (t : Sys),
    (watched env).Reaches (fun x l => AnswersPings k x l ∧ Paced heartbeatMs k x l) x →
    AnswersPings k x (.heartbeat k.inst) → Paced heartbeatMs k x (.heartbeat k.inst) →
    x.1.step env (.heartbeat k.inst) = some t → x.1.Opened k →
    (t.side k).socket = (x.1.side k).socket

/-- A client of which nothing came since a tick is terminated by the next. -/
def SilenceEnds : Prop :=
  ∀ (env : Env) (k : ConnKey) (x : Sys × (ConnKey → Watch)) (t : Sys),
    (watched env).Reaches Free x → (x.2 k).silent = true →
    x.1.step env (.heartbeat k.inst) = some t → ¬ t.Opened k

theorem silenceEnds : SilenceEnds := by
  intro env k x t hx hw h ho
  have hreach := hx.fst
  have hos : x.1.Opened k := by
    rcases Sys.step_sides (Sys.polite_of_reaches hreach) h k with hm | ⟨n, u, hl, -⟩
    · exact hm.opened ho
    · cases hl
  have hspared : (x.1.side k).Spared x.1.clock := by
    refine Side.spared_of_opened ?_
    rw [← Sys.side_of_heartbeat hreach hos h]
    exact ho
  have hheard := ((spared_iff hx hos).mp hspared).1
  rw [hw] at hheard
  cases hheard

theorem answersSuffice_of_le {heartbeatMs : ℤ} (hle : heartbeatMs ≤ IDLE_TIMEOUT_MS) :
    AnswersSuffice heartbeatMs := by
  intro env k x t hx ha hp h ho
  rw [socket_of_heartbeat hx ho h]
  have hfits := watch_of_reaches hx ho
  have hsilent : (x.2 k).silent = false := ha rfl
  have hticked := hfits.answered hsilent
  have hpaced : x.1.clock - (x.2 k).tickedAt ≤ heartbeatMs := hp rfl
  refine ⟨hsilent, ?_⟩
  omega

namespace Demo

/-- A server with one joined connection, whose client answers the ping of the first tick. -/
def ponged : List Label := oneJoined ++ [.heartbeat 0, .pong (conn 1)]

end Demo

/-- Where ticks may be further apart, a client that answered at once is terminated by the next. -/
theorem terminated_of_lt {heartbeatMs : ℤ} (hlt : IDLE_TIMEOUT_MS < heartbeatMs) :
    ∃ x t, (watched (Demo.env none)).Reaches
        (fun x l => AnswersPings (Demo.conn 1) x l ∧ Paced heartbeatMs (Demo.conn 1) x l) x ∧
      AnswersPings (Demo.conn 1) x (.heartbeat 0) ∧
      Paced heartbeatMs (Demo.conn 1) x (.heartbeat 0) ∧
      x.1.step (Demo.env none) (.heartbeat 0) = some t ∧ x.1.Opened (Demo.conn 1) ∧
      ¬ t.Opened (Demo.conn 1) := by
  have hrun : ((watched (Demo.env none)).execs
      (fun x l => decide (AnswersPings (Demo.conn 1) x l ∧ Paced 0 (Demo.conn 1) x l))
      (Sys.initial Demo.noon, fun _ => ⟨0, false, 0⟩) Demo.ponged).any (fun x =>
        decide ((x.1.side (Demo.conn 1)).socket.state = .opened ∧ x.1.clock = Demo.noon ∧
          x.2 (Demo.conn 1) = ⟨Demo.noon, false, Demo.noon⟩ ∧
          (x.1.srv 0).ticking = true)) = true := by
    decide +kernel
  obtain ⟨⟨s, w⟩, hs, hP⟩ := (Option.any_eq_true _ _).mp hrun
  obtain ⟨ho, hclock, hw, htick⟩ := of_decide_eq_true hP
  have hfirst : (watched (Demo.env none)).Reaches
      (fun x l => AnswersPings (Demo.conn 1) x l ∧ Paced 0 (Demo.conn 1) x l) (s, w) :=
    Machine.reaches_of_execs (fun _ _ hc => of_decide_eq_true hc) ⟨⟨Demo.noon, rfl⟩, rfl⟩ hs
  have hreach : (watched (Demo.env none)).Reaches
      (fun x l => AnswersPings (Demo.conn 1) x l ∧ Paced heartbeatMs (Demo.conn 1) x l) (s, w) :=
    hfirst.mono fun x l hc => ⟨hc.1, hc.2.mono (by unfold IDLE_TIMEOUT_MS at hlt; omega)⟩
  -- no time has passed since the answer; now the clock runs to the next tick
  have hle : s.clock ≤ Demo.noon + heartbeatMs := by
    unfold IDLE_TIMEOUT_MS at hlt
    rw [show s.clock = Demo.noon from hclock]
    omega
  obtain ⟨s', hstep, hclock', hside', hsrv'⟩ := watched_clock (Demo.env none) w hle
  have hreach' := hreach.step (by exact ⟨trivial, trivial⟩) hstep
  have hw' : w (Demo.conn 1) = ⟨Demo.noon, false, Demo.noon⟩ := hw
  have ho' : s'.Opened (Demo.conn 1) := by
    unfold Sys.Opened
    rw [hside']
    exact ho
  have htick' : (s'.srv 0).ticking = true := by
    rw [hsrv']
    exact htick
  have hticks : s'.step (Demo.env none) (.heartbeat 0) = some (s'.heartbeats 0) := if_pos htick'
  refine ⟨_, _, hreach', fun _ => ?_, fun _ => ?_, hticks, ho', fun hn => ?_⟩
  · exact congrArg Watch.silent hw'
  · dsimp only
    rw [hw', hclock']
    dsimp only
    omega
  · have hside := Sys.side_of_heartbeat (k := Demo.conn 1) hreach'.fst ho' hticks
    have hspared : (s'.side (Demo.conn 1)).Spared s'.clock := by
      refine Side.spared_of_opened ?_
      rw [← hside]
      exact hn
    have hheard := ((spared_iff hreach' ho').mp hspared).2
    dsimp only at hheard
    rw [hw', hclock'] at hheard
    dsimp only at hheard
    omega

/-- Answering each ping is enough, and falling silent is noticed, exactly where ticks are at most
two minutes apart. -/
theorem heartbeat_iff (heartbeatMs : ℤ) :
    AnswersSuffice heartbeatMs ∧ SilenceEnds ↔ heartbeatMs ≤ IDLE_TIMEOUT_MS := by
  constructor
  · rintro ⟨ha, -⟩
    by_contra hlt
    obtain ⟨x, t, hx, hans, hpace, h, ho, hn⟩ := terminated_of_lt (not_le.mp hlt)
    refine hn ?_
    unfold Sys.Opened
    rw [ha _ _ x t hx hans hpace h ho]
    exact ho
  · exact fun hle => ⟨answersSuffice_of_le hle, silenceEnds⟩

/-- `HEARTBEAT_MS` has a least value and no greatest. At 130 seconds, a client that answers each
ping at once is terminated. -/
theorem heartbeat_130s : ∃ heartbeatMs, HEARTBEAT_MS.admits heartbeatMs = true ∧
    ∃ x t, (watched (Demo.env none)).Reaches
        (fun x l => AnswersPings (Demo.conn 1) x l ∧ Paced heartbeatMs (Demo.conn 1) x l) x ∧
      AnswersPings (Demo.conn 1) x (.heartbeat 0) ∧
      Paced heartbeatMs (Demo.conn 1) x (.heartbeat 0) ∧
      x.1.step (Demo.env none) (.heartbeat 0) = some t ∧ x.1.Opened (Demo.conn 1) ∧
      ¬ t.Opened (Demo.conn 1) :=
  ⟨130000, rfl, terminated_of_lt (by decide)⟩

end RoomBackend
