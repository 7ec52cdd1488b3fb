import RoomBackend.Seats

/-! # The counts of a room server

`joinedCount` counts the joined connections and `perNetwork` the connections of each network
pseudonym. Both are changed in three places (`accept`, `onJoined`, `onClosed`), and both are
right as long as no `join` takes up its session after the connection was closed. -/

namespace RoomBackend

open Async Day Lts

/-! ### A `join` before its entry is of an unjoined connection -/

theorem Handler.settle_beforeEntry {env : Env} {now : ℤ} {v : Bool} {k : ConnKey} {n : ℕ}
    {info : AdmitInfo} {o : Outcome} {h h' : Handler} {w w' : World}
    (hs : h.settle env now v k n info o w = some (h', w')) :
    beforeEntry (some h') = beforeEntry (some h) := by
  cases h with
  | join p =>
      obtain ⟨⟨p', w₁⟩, hp, he⟩ := Option.map_eq_some_iff.mp hs
      obtain ⟨rfl, rfl⟩ := Prod.mk.inj he
      cases p <;>
      · obtain ⟨r, hr, he⟩ := Option.map_eq_some_iff.mp hp
        obtain ⟨rfl, rfl⟩ := Prod.mk.inj he
        rfl
  | send p =>
      obtain ⟨r, hp, he⟩ := Option.map_eq_some_iff.mp hs
      obtain ⟨rfl, rfl⟩ := Prod.mk.inj he
      rfl
  | challenge p =>
      obtain ⟨r, hp, he⟩ := Option.map_eq_some_iff.mp hs
      obtain ⟨rfl, rfl⟩ := Prod.mk.inj he
      rfl
  | report p =>
      obtain ⟨r, hp, he⟩ := Option.map_eq_some_iff.mp hs
      obtain ⟨rfl, rfl⟩ := Prod.mk.inj he
      rfl

/-- A connection whose `join` has not taken up a session is not joined. -/
def JoinsOnce (c : Core) : Prop :=
  ∀ k, beforeEntry (c.conn k).handler = true → (c.conn k).joined = false

theorem joinsOnce_step {env : Env} {up : ConnKey → Bool} {c c' : Core} {l : Label}
    (h : CoreStep env up c l c') (hI : JoinsOnce c) : JoinsOnce c' := by
  intro j
  have hx := h.conn j
  generalize c'.conn j = x at hx ⊢
  cases hx with
  | same => exact hI j
  | @act h₀ c₁ h' hl hh ha =>
      intro hb
      cases ha.roster with
      | same hc _ _ hb' =>
          have hj : (c₁.conn j).joined = (c.conn j).joined :=
            congrArg (fun c => (c.conn j).joined) hc
          rw [hj]
          rcases hb' hb with h | h
          · exact hI j (by rw [hh]; exact h)
          · exact h
      | enter hp ht => cases hb
      | welcome hp => cases hb
  | @handle c₁ h' hl hk hh ha =>
      intro hb
      cases ha.roster with
      | same hc _ _ hb' =>
          have hj : (c₁.conn j).joined = (c.conn j).joined :=
            congrArg (fun c => (c.conn j).joined) (hc.trans (Core.roster_take c j))
          rw [hj]
          rcases hb' hb with h | h
          · cases h
          · simpa [Core.take] using h
      | switch _ _ _ _ _ _ hb' => rw [hb'] at hb; cases hb
  | settled hl hh hs =>
      intro hb
      refine hI j ?_
      rw [hh, ← Handler.settle_beforeEntry hs]
      exact hb
  | accepted hl hj => intro hb; rfl
  | _ => exact hI j

theorem joinsOnce_initial (t : ℤ) : JoinsOnce (Sys.initial t).toCore := fun _ h => by cases h

theorem joinsOnce_of_reaches {env : Env} {C : Sys → Label → Prop} {s : Sys}
    (h : (system env).Reaches C s) : JoinsOnce s.toCore := by
  refine Machine.Reaches.invariant (I := fun s => JoinsOnce s.toCore) ?_ ?_ h
  · rintro s ⟨t, rfl⟩
    exact joinsOnce_initial t
  · intro s l t hI _ hs
    exact joinsOnce_step (Sys.coreStep hs) hI

/-! ### The joined connections -/

/-- The number of joined connections of an instance. -/
def Core.joinedIn (c : Core) (i : InstanceId) : ℕ :=
  (c.srv i).conns.countP fun n => (c.conn ⟨i, n⟩).joined

/-- `joinedCount` counts the joined connections of `conns`. -/
def Tallied (c : Core) : Prop := ∀ i, (c.srv i).joinedCount = c.joinedIn i

/-- The tally depends on these fields only. -/
theorem Tallied.congr {c c' : Core} (h : Tallied c)
    (hx : ∀ k, (c'.conn k).joined = (c.conn k).joined)
    (hv : ∀ i, (c'.srv i).conns = (c.srv i).conns ∧
      (c'.srv i).joinedCount = (c.srv i).joinedCount) : Tallied c' := by
  intro i
  simp only [Core.joinedIn, (hv i).1, (hv i).2, hx]
  exact h i

theorem Tallied.of_roster {c c' : Core} (hc : c'.roster = c.roster) (h : Tallied c) :
    Tallied c' := by
  refine h.congr (fun k => congrArg (fun d => (d.conn k).joined) hc) fun i => ?_
  exact ⟨congrArg (fun d => (d.srv i).conns) hc, congrArg (fun d => (d.srv i).joinedCount) hc⟩

theorem Tallied.updConn {c c' : Core} {k : ConnKey} {x : Conn} (h : Tallied c)
    (hc : c'.conn = Function.update c.conn k x) (hs : c'.srv = c.srv)
    (hj : x.joined = (c.conn k).joined) : Tallied c' := by
  refine h.congr (fun j => ?_) fun i => by rw [hs]; exact ⟨rfl, rfl⟩
  rw [hc]
  by_cases hjk : j = k
  · subst hjk
    rw [Function.update_self]
    exact hj
  · rw [Function.update_of_ne hjk]

theorem Tallied.updSrv {c c' : Core} {i : InstanceId} {v : Srv} (h : Tallied c)
    (hc : c'.conn = c.conn) (hv : c'.srv = Function.update c.srv i v)
    (hn : v.conns = (c.srv i).conns) (hj : v.joinedCount = (c.srv i).joinedCount) :
    Tallied c' := by
  refine h.congr (fun k => by rw [hc]) fun j => ?_
  rw [hv]
  by_cases hji : j = i
  · subst hji
    rw [Function.update_self]
    exact ⟨hn, hj⟩
  · rw [Function.update_of_ne hji]
    exact ⟨rfl, rfl⟩

theorem Tallied.accept {c : Core} (h : Tallied c) (hS : Seats c) (i : InstanceId)
    (info : AdmitInfo) : Tallied (c.accept i info) := by
  intro j
  by_cases hj : j = i
  · subst hj
    rw [Core.joinedIn, hS.countP_accept j info Conn.joined, Core.accept_srv]
    simpa [Conn.new, Core.joinedIn] using h j
  · rw [Core.joinedIn, Core.accept_srv_ne i info hj]
    simp only [Core.accept_conn_ne i info hj]
    exact h j

/-- `onJoined` counts a connection that is still open. -/
theorem Tallied.enter {c : Core} (h : Tallied c) (hS : Seats c) {k : ConnKey} (r : SessionRecord)
    (token : Token) (hj : (c.conn k).joined = false) (hc : (c.conn k).closed = false) :
    Tallied (c.enter k r token) := by
  have hk : k.seq ∈ (c.srv k.inst).conns := (hS.members k.inst k.seq).mpr hc
  have hself : ((c.enter k r token).conn k).joined = true := by
    simp [Core.enter, Core.updSrv, Core.updConn]
  have hconn : ∀ j, j ≠ k → (c.enter k r token).conn j = c.conn j :=
    fun j hj => Function.update_of_ne hj _ _
  have hsrv : (c.enter k r token).srv k.inst =
      { c.srv k.inst with joinedCount := (c.srv k.inst).joinedCount + 1 } :=
    Function.update_self ..
  have hsrv' : ∀ i, i ≠ k.inst → (c.enter k r token).srv i = c.srv i :=
    fun i hi => Function.update_of_ne hi _ _
  intro i
  by_cases hi : i = k.inst
  · subst hi
    have hgain := countP_gain (p := fun n => (c.conn ⟨k.inst, n⟩).joined)
      (q := fun n => ((c.enter k r token).conn ⟨k.inst, n⟩).joined) (hS.nodup k.inst) hk hj
      hself (fun n _ hn => by rw [hconn _ fun he => hn (congrArg ConnKey.seq he)])
    rw [Core.joinedIn, hsrv]
    dsimp only
    rw [hgain, h k.inst, Core.joinedIn]
    exact (Int.natCast_succ _).symm
  · have hne : ∀ n, (c.enter k r token).conn ⟨i, n⟩ = c.conn ⟨i, n⟩ :=
      fun n => hconn _ fun he => hi (congrArg ConnKey.inst he)
    rw [Core.joinedIn, hsrv' i hi]
    simp only [hne]
    exact h i

/-- `onClosed` takes a joined connection out of the tally. -/
theorem Tallied.close {c : Core} (h : Tallied c) (hS : Seats c) {k : ConnKey}
    (hc : (c.conn k).closed = false) : Tallied ((c.shut k).onClosed k) := by
  have hk : k.seq ∈ (c.srv k.inst).conns := (hS.members k.inst k.seq).mpr hc
  intro i
  rw [Core.joinedIn, Core.onClosed_conn]
  simp only [(Core.shut_conn _).1]
  by_cases hi : i = k.inst
  · subst hi
    have hl := countP_leave (p := fun n => (c.conn ⟨k.inst, n⟩).joined) hk
    have hj := h k.inst
    rw [Core.joinedIn, hl] at hj
    rw [Core.onClosed_srv hk]
    cases hcj : (c.conn k).joined with
    | true => simp only [hcj, if_true] at hj ⊢; omega
    | false => simpa [hcj] using hj
  · rw [Core.onClosed_srv_ne hi]
    exact h i

/-! ### Runs -/

/-- No `join` takes up its session on a connection that was closed while it waited. -/
def Sys.entersOpen (s : Sys) : Label → Bool
  | .resume (.handler k) => (s.entering k).isNone || !(s.conn k).closed
  | _ => true

theorem Tallied.setReset {c : Core} (h : Tallied c) (i : InstanceId) (p : Option RollingPc) :
    Tallied (c.setReset i p) := h.updSrv rfl rfl rfl rfl

theorem Tallied.begins {env : Env} {i : InstanceId} {next : DailyRoom} {c c' : Core}
    {ns : List ℕ} (hb : Begins env i next c ns c') (h : Tallied c) : Tallied c' := by
  refine h.congr (fun k => ?_) fun j => by rw [hb.srv]; exact ⟨rfl, rfl⟩
  rcases hb.conn k with hk | ⟨-, -, -, -, d, input, -, hk⟩ <;> rw [hk]

theorem Tallied.batches {env : Env} {i : InstanceId} {prev next : DailyRoom} {c c' : Core}
    {rest : List ℕ} (hb : Batches env i prev next c rest c') (h : Tallied c) : Tallied c' := by
  cases hb with
  | ended => exact h.setReset _ _
  | batch hr hb => exact (h.begins hb).setReset _ _

theorem Tallied.resetMove {env : Env} {i : InstanceId} {c c' : Core} {p : RollingPc}
    (hm : ResetMove env i c p c') (h : Tallied c) : Tallied c' := by
  cases hm with
  | acquired => exact h.setReset _ _
  | cleaned => exact h.setReset _ _
  | listed hp hb => exact h.batches hb
  | batched hd => exact h.setReset _ _
  | next hb => exact h.batches hb

theorem Tallied.rolloverMove {env : Env} {k : ConnKey} {up : Bool} {prev : DailyRoom}
    {c c' : Core} {p : RolloverPc} (hm : RolloverMove env k up prev c p c') (h : Tallied c) :
    Tallied c' := by
  cases hm with
  | wait hp => exact h.updConn rfl rfl rfl
  | closed hp hc => exact h.updConn rfl rfl rfl
  | threw hp => exact h.updConn rfl rfl rfl
  | enter hp hc => exact h.updConn (Core.rolloverEnter_conn ..) rfl rfl

/-- One step keeps the tally, if no closed connection joins. -/
theorem Tallied.step {env : Env} {s : Sys} {l : Label} {c' : Core}
    (hs : CoreStep env s.up s.toCore l c') (hS : Seats s.toCore) (hj : JoinsOnce s.toCore)
    (hl : s.entersOpen l = true) (h : Tallied s.toCore) : Tallied c' := by
  cases hs.roster with
  | same hc => exact h.of_roster hc
  | start hs hc => exact Tallied.of_roster hc (h.updSrv rfl rfl rfl rfl)
  | accept hu hpc hd hc => exact Tallied.of_roster hc (h.accept hS _ _)
  | close hk hc => exact Tallied.of_roster hc (h.close hS hk)
  | @enter k r token c' he hc =>
      refine Tallied.of_roster hc (h.enter hS r token ?_ ?_)
      · refine hj k ?_
        unfold Core.entering at he
        split at he
        · rename_i hh
          rw [hh]
          rfl
        · cases he
      · simpa [Sys.entersOpen, he] using hl
  | welcome hh hp hc => exact Tallied.of_roster hc (h.updConn rfl rfl rfl)
  | switch hl hnext hr hn hc => exact Tallied.of_roster hc (h.updSrv rfl rfl rfl rfl)
  | settleRollover hp hs hc => exact Tallied.of_roster hc (h.updConn rfl rfl rfl)
  | rollover hp hprev hm => exact h.rolloverMove hm
  | settleReset hp hs hc => exact Tallied.of_roster hc (h.setReset _ _)
  | reset hp hm => exact h.resetMove hm
  | stop hc => exact Tallied.of_roster hc (h.updSrv rfl rfl rfl rfl)

theorem tallied_of_reaches {env : Env} {s : Sys}
    (h : (system env).Reaches (fun s l => s.entersOpen l = true) s) : Tallied s.toCore := by
  refine Machine.Reaches.invariant_of (J := fun s => Seats s.toCore ∧ JoinsOnce s.toCore)
    (I := fun s => Tallied s.toCore)
    (fun s hs => ⟨seats_of_reaches hs, joinsOnce_of_reaches hs⟩) ?_ ?_ h
  · rintro s ⟨t, rfl⟩ i
    rfl
  · intro s l t hJ hI hl hs
    exact hI.step (Sys.coreStep hs) hJ.1 hJ.2 hl

/-- The two counters of a server are what they stand for. -/
def CountsRight (c : Core) (i : InstanceId) : Prop :=
  (c.srv i).joinedCount = c.joinedIn i ∧
    (∀ hash, (c.srv i).perNetwork hash = tally (c.networkIn i hash)) ∧
    ((∀ n, (c.conn ⟨i, n⟩).closed = true) → (c.srv i).joinedCount = 0)

/-- **Counts.** In every run in which no `join` takes up its session on a closed connection,
`joinedCount` is the number of joined connections in `conns`, `perNetwork` the number of
connections of each network, and `joinedCount` is zero once every connection is closed. -/
theorem counts_of_reaches {env : Env} {s : Sys}
    (h : (system env).Reaches (fun s l => s.entersOpen l = true) s) (i : InstanceId) :
    CountsRight s.toCore i := by
  have hS := seats_of_reaches h
  have hT := tallied_of_reaches h
  refine ⟨hT i, hS.network i, fun hc => ?_⟩
  have hnil : (s.srv i).conns = [] := by
    refine List.eq_nil_iff_forall_not_mem.mpr fun n hn => ?_
    have := (hS.members i n).mp hn
    rw [hc n] at this
    cases this
  rw [hT i, Core.joinedIn, hnil]
  rfl

/-- A run of the theorem: one client has joined and is counted. -/
theorem counts_oneJoined : ∃ s,
    (system (Demo.env none)).Reaches (fun s l => s.entersOpen l = true) s ∧
      (s.srv 0).joinedCount = 1 ∧ CountsRight s.toCore 0 := by
  obtain ⟨s, hs, hP⟩ := exists_reached (Demo.env none) Sys.entersOpen
    (fun s => (s.srv 0).joinedCount = 1) Demo.noon Demo.oneJoined (by decide +kernel)
  exact ⟨s, hs, by simpa using hP, counts_of_reaches hs 0⟩

/-- A client leaves while its `join` waits for the block lookup. -/
def leavesWhileJoining : List Label :=
  [.start 0] ++ Demo.request 0 "a" ++ Demo.handshake 0 ++ Demo.joinChecked (Demo.conn 1)
    ++ [.closeEvent (Demo.conn 1), .resume (.handler (Demo.conn 1))]
    ++ Demo.turns (Demo.conn 1) 1

/-- Without the condition the count leaks: nobody is connected and `joinedCount` is `1`. -/
theorem counts_leak : ∃ s, (system (Demo.env none)).Reaches Free s ∧
    (∀ k ∈ s.accepted, (s.conn k).closed = true ∧ (s.conn k).handler = none) ∧
    (s.srv 0).joinedCount = 1 ∧ ¬ CountsRight s.toCore 0 := by
  obtain ⟨s, hs, hP⟩ := exists_reached_free (Demo.env none)
    (fun s => s.accepted.all (fun k => (s.conn k).closed && (s.conn k).handler.isNone) &&
      decide ((s.srv 0).joinedCount = 1) && decide (s.toCore.joinedIn 0 = 0))
    Demo.noon leavesWhileJoining (by decide +kernel)
  simp only [Bool.and_eq_true, List.all_eq_true, decide_eq_true_eq, Option.isNone_iff_eq_none] at hP
  obtain ⟨⟨hall, hone⟩, hzero⟩ := hP
  refine ⟨s, hs, hall, hone, fun h => ?_⟩
  rw [h.1, hzero] at hone
  cases hone

end RoomBackend
