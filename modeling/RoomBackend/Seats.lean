import RoomBackend.Roster

/-! # The connections of a room server

`conns` lists the connections of a server that were not closed, each once, and `perNetwork`
counts them by network pseudonym. This holds in every reached state: `accept` and `onClosed`
are the only places that change either. -/

namespace RoomBackend

open Async Day Lts

/-! ### Counting -/

section counting

variable {α : Type*} [DecidableEq α] {l : List α} {p q : α → Bool} {a : α}

/-- Counting after one element has come to satisfy the predicate. -/
theorem countP_gain (hl : l.Nodup) (ha : a ∈ l) (hp : p a = false) (hq : q a = true)
    (h : ∀ b ∈ l, b ≠ a → q b = p b) : l.countP q = l.countP p + 1 := by
  have hperm := List.perm_cons_erase ha
  have hrest : (l.erase a).countP q = (l.erase a).countP p := by
    refine List.countP_congr fun b hb => ?_
    obtain ⟨hne, hb⟩ := (List.Nodup.mem_erase_iff hl).mp hb
    rw [h b hb hne]
  rw [hperm.countP_eq q, hperm.countP_eq p, List.countP_cons_of_pos hq,
    List.countP_cons_of_neg (by simp [hp]), hrest]

/-- Counting after one element has left. -/
theorem countP_leave (ha : a ∈ l) :
    l.countP p = (l.erase a).countP p + if p a then 1 else 0 := by
  rw [(List.perm_cons_erase ha).countP_eq p, List.countP_cons]

end counting

/-! ### Seats -/

/-- The entry of `perNetwork` for a network with `n` connections: absent means zero. -/
def tally (n : ℕ) : Option ℤ := if n = 0 then none else some n

theorem tally_succ (n : ℕ) : tally (n + 1) = some ((tally n).getD 0 + 1) := by
  cases n <;> simp [tally]

/-- The number of connections of an instance that were admitted under a pseudonym. -/
def Core.networkIn (c : Core) (i : InstanceId) (hash : String) : ℕ :=
  (c.srv i).conns.countP fun n => decide ((c.conn ⟨i, n⟩).info.net.dailyHash = hash)

/-- `conns` holds the connections that are not closed, each once, and `perNetwork` counts
them. -/
structure Seats (c : Core) : Prop where
  members : ∀ i n, n ∈ (c.srv i).conns ↔ (c.conn ⟨i, n⟩).closed = false
  nodup : ∀ i, (c.srv i).conns.Nodup
  fresh : ∀ i, ∀ n ∈ (c.srv i).conns, n ≤ (c.srv i).seq
  network : ∀ i hash, (c.srv i).perNetwork hash = tally (c.networkIn i hash)

/-- The seats depend on these fields only. -/
theorem Seats.congr {c c' : Core} (h : Seats c)
    (hx : ∀ k, (c'.conn k).closed = (c.conn k).closed ∧ (c'.conn k).info = (c.conn k).info)
    (hv : ∀ i, (c'.srv i).conns = (c.srv i).conns ∧ (c'.srv i).seq = (c.srv i).seq ∧
      (c'.srv i).perNetwork = (c.srv i).perNetwork) : Seats c' := by
  refine ⟨fun i n => ?_, fun i => ?_, fun i n => ?_, fun i hash => ?_⟩
  · rw [(hv i).1, (hx ⟨i, n⟩).1]
    exact h.members i n
  · rw [(hv i).1]
    exact h.nodup i
  · rw [(hv i).1, (hv i).2.1]
    exact h.fresh i n
  · simp only [Core.networkIn, (hv i).1, (hv i).2.2, (hx _).2]
    exact h.network i hash

theorem Seats.of_roster {c c' : Core} (hc : c'.roster = c.roster) (h : Seats c) : Seats c' := by
  refine h.congr (fun k => ?_) fun i => ?_
  · exact ⟨congrArg (fun d => (d.conn k).closed) hc, congrArg (fun d => (d.conn k).info) hc⟩
  · exact ⟨congrArg (fun d => (d.srv i).conns) hc, congrArg (fun d => (d.srv i).seq) hc,
      congrArg (fun d => (d.srv i).perNetwork) hc⟩

/-- A change of one connection that neither closes it nor admits it anew. -/
theorem Seats.updConn {c d : Core} {k : ConnKey} {x : Conn} (h : Seats c)
    (hc : d.conn = Function.update c.conn k x) (hs : d.srv = c.srv)
    (hcl : x.closed = (c.conn k).closed) (hi : x.info = (c.conn k).info) : Seats d := by
  refine h.congr (fun j => ?_) fun i => by rw [hs]; exact ⟨rfl, rfl, rfl⟩
  rw [hc]
  by_cases hjk : j = k
  · subst hjk
    rw [Function.update_self]
    exact ⟨hcl, hi⟩
  · rw [Function.update_of_ne hjk]
    exact ⟨rfl, rfl⟩

/-- A change of a server that leaves its connections alone. -/
theorem Seats.updSrv {c c' : Core} {i : InstanceId} {v : Srv} (h : Seats c)
    (hc : c'.conn = c.conn) (hv : c'.srv = Function.update c.srv i v)
    (hn : v.conns = (c.srv i).conns) (hs : v.seq = (c.srv i).seq)
    (hp : v.perNetwork = (c.srv i).perNetwork) : Seats c' := by
  refine h.congr (fun k => by rw [hc]; exact ⟨rfl, rfl⟩) fun j => ?_
  rw [hv]
  by_cases hji : j = i
  · subst hji
    rw [Function.update_self]
    exact ⟨hn, hs, hp⟩
  · rw [Function.update_of_ne hji]
    exact ⟨rfl, rfl, rfl⟩

/-! ### `accept` and `onClosed` -/

section accept

variable {c : Core} (i : InstanceId) (info : AdmitInfo)

/-- The connection `accept` makes. -/
theorem Core.accept_conn :
    (c.accept i info).conn = Function.update c.conn ⟨i, (c.srv i).seq + 1⟩ (Conn.new info) := rfl

theorem Core.accept_srv : (c.accept i info).srv i =
    { c.srv i with
      seq := (c.srv i).seq + 1
      conns := (c.srv i).conns ++ [(c.srv i).seq + 1]
      perNetwork := Function.update (c.srv i).perNetwork info.net.dailyHash
        (some (((c.srv i).perNetwork info.net.dailyHash).getD 0 + 1)) } :=
  Function.update_self ..

theorem Core.accept_srv_ne {j : InstanceId} (h : j ≠ i) : (c.accept i info).srv j = c.srv j :=
  Function.update_of_ne h _ _

theorem Core.accept_conn_self : (c.accept i info).conn ⟨i, (c.srv i).seq + 1⟩ = Conn.new info :=
  Function.update_self ..

/-- The connections of other instances are not the new one. -/
theorem Core.accept_conn_ne {j : InstanceId} (h : j ≠ i) (n : ℕ) :
    (c.accept i info).conn ⟨j, n⟩ = c.conn ⟨j, n⟩ :=
  Function.update_of_ne (fun he => h (congrArg ConnKey.inst he)) _ _

variable {i} in
/-- The listed connections are not the new one. -/
theorem Seats.accept_conn (h : Seats c) {n : ℕ} (hn : n ∈ (c.srv i).conns) :
    (c.accept i info).conn ⟨i, n⟩ = c.conn ⟨i, n⟩ := by
  refine Function.update_of_ne (fun he => ?_) _ _
  have := h.fresh i n hn
  have := congrArg ConnKey.seq he
  dsimp only at this
  omega

/-- Counting the connections of the instance after `accept`. -/
theorem Seats.countP_accept (h : Seats c) (p : Conn → Bool) :
    ((c.accept i info).srv i).conns.countP (fun n => p ((c.accept i info).conn ⟨i, n⟩)) =
      (c.srv i).conns.countP (fun n => p (c.conn ⟨i, n⟩)) +
        if p (Conn.new info) then 1 else 0 := by
  rw [Core.accept_srv, List.countP_append, List.countP_singleton, Core.accept_conn_self]
  congr 1
  exact List.countP_congr fun n hn => by rw [h.accept_conn info hn]

/-- `accept` seats the new connection. -/
theorem Seats.accept (h : Seats c) : Seats (c.accept i info) := by
  have hnew : (c.srv i).seq + 1 ∉ (c.srv i).conns := by
    intro hm
    have := h.fresh i _ hm
    omega
  refine ⟨fun j n => ?_, fun j => ?_, fun j n => ?_, fun j hash => ?_⟩
  · by_cases hj : j = i
    · subst hj
      rw [Core.accept_srv]
      by_cases hn : n = (c.srv j).seq + 1
      · subst hn
        simp [Core.accept_conn_self, Conn.new]
      · have : (c.accept j info).conn ⟨j, n⟩ = c.conn ⟨j, n⟩ :=
          Function.update_of_ne (by simpa using hn) _ _
        rw [this]
        simp [hn, h.members]
    · rw [Core.accept_srv_ne i info hj, Core.accept_conn_ne i info hj]
      exact h.members j n
  · by_cases hj : j = i
    · subst hj
      rw [Core.accept_srv]
      exact List.nodup_append.mpr ⟨h.nodup j, by simp, by
        intro a ha b hb
        rw [List.mem_singleton.mp hb]
        rintro rfl
        exact hnew ha⟩
    · rw [Core.accept_srv_ne i info hj]
      exact h.nodup j
  · by_cases hj : j = i
    · subst hj
      rw [Core.accept_srv]
      intro hn
      rcases List.mem_append.mp hn with hn | hn
      · exact (h.fresh j n hn).trans (Nat.le_succ _)
      · exact (List.mem_singleton.mp hn).le
    · rw [Core.accept_srv_ne i info hj]
      exact h.fresh j n
  · by_cases hj : j = i
    · subst hj
      have hc := h.countP_accept j info fun x => decide (x.info.net.dailyHash = hash)
      rw [Core.networkIn, hc, Core.accept_srv]
      by_cases hh : info.net.dailyHash = hash
      · subst hh
        simp [Conn.new, h.network, tally_succ, Core.networkIn]
      · have hh' : hash ≠ info.net.dailyHash := fun h => hh h.symm
        simp [Conn.new, hh, hh', h.network, Core.networkIn]
    · rw [Core.networkIn, Core.accept_srv_ne i info hj]
      simp only [Core.accept_conn_ne i info hj]
      exact h.network j hash

end accept

section close

variable {c : Core} {k : ConnKey}

theorem Core.onClosed_conn : ((c.shut k).onClosed k).conn = (c.shut k).conn := rfl

theorem Core.shut_conn (j : ConnKey) : ((c.shut k).conn j).joined = (c.conn j).joined ∧
    ((c.shut k).conn j).info = (c.conn j).info := by
  by_cases hj : j = k
  · subst hj
    rw [Core.shut, Core.updConn_conn]
    exact ⟨rfl, rfl⟩
  · rw [Core.shut, Core.updConn_conn_ne c hj]
    exact ⟨rfl, rfl⟩

theorem Core.onClosed_srv (hk : k.seq ∈ (c.srv k.inst).conns) :
    ((c.shut k).onClosed k).srv k.inst =
      { c.srv k.inst with
        conns := (c.srv k.inst).conns.erase k.seq
        joinedCount := if (c.conn k).joined then (c.srv k.inst).joinedCount - 1
          else (c.srv k.inst).joinedCount
        perNetwork := Function.update (c.srv k.inst).perNetwork (c.conn k).info.net.dailyHash
          (if ((c.srv k.inst).perNetwork (c.conn k).info.net.dailyHash).getD 1 - 1 ≤ 0 then none
            else
              some (((c.srv k.inst).perNetwork (c.conn k).info.net.dailyHash).getD 1 - 1)) } := by
  rw [Core.onClosed, Core.updSrv_srv, Core.shut, Core.updConn_conn]
  exact if_pos hk

theorem Core.onClosed_srv_ne {i : InstanceId} (h : i ≠ k.inst) :
    ((c.shut k).onClosed k).srv i = c.srv i := Function.update_of_ne h _ _

/-- `onClosed` gives the seat of a connection back. -/
theorem Seats.close (h : Seats c) (hc : (c.conn k).closed = false) :
    Seats ((c.shut k).onClosed k) := by
  have hk : k.seq ∈ (c.srv k.inst).conns := (h.members k.inst k.seq).mpr hc
  have hself : (c.shut k).conn k = { c.conn k with closed := true } := Core.updConn_conn ..
  have hne : ∀ j, j ≠ k → (c.shut k).conn j = c.conn j :=
    fun j hj => Core.updConn_conn_ne c hj _
  refine ⟨fun i n => ?_, fun i => ?_, fun i n => ?_, fun i hash => ?_⟩
  · rw [Core.onClosed_conn]
    by_cases hi : i = k.inst
    · subst hi
      rw [Core.onClosed_srv hk, List.Nodup.mem_erase_iff (h.nodup _)]
      by_cases hn : n = k.seq
      · subst hn
        simp [hself]
      · rw [hne ⟨k.inst, n⟩ fun he => hn (congrArg ConnKey.seq he), ← h.members]
        simp [hn]
    · rw [Core.onClosed_srv_ne hi, hne ⟨i, n⟩ fun he => hi (congrArg ConnKey.inst he)]
      exact h.members i n
  · by_cases hi : i = k.inst
    · subst hi
      rw [Core.onClosed_srv hk]
      exact (h.nodup _).erase _
    · rw [Core.onClosed_srv_ne hi]
      exact h.nodup i
  · by_cases hi : i = k.inst
    · subst hi
      rw [Core.onClosed_srv hk]
      exact fun hn => h.fresh _ n (List.mem_of_mem_erase hn)
    · rw [Core.onClosed_srv_ne hi]
      exact h.fresh i n
  · rw [Core.networkIn, Core.onClosed_conn]
    simp only [(Core.shut_conn _).2]
    by_cases hi : i = k.inst
    · subst hi
      have hl := countP_leave
        (p := fun n => decide ((c.conn ⟨k.inst, n⟩).info.net.dailyHash = hash)) hk
      have hn := h.network k.inst hash
      rw [Core.networkIn, hl] at hn
      rw [Core.onClosed_srv hk]
      dsimp only
      by_cases hh : hash = (c.conn k).info.net.dailyHash
      · subst hh
        rw [Function.update_self, hn]
        simp [tally]
      · rw [Function.update_of_ne hh, hn]
        have hh' : (c.conn k).info.net.dailyHash ≠ hash := fun h => hh h.symm
        simp [hh']
    · rw [Core.onClosed_srv_ne hi]
      exact h.network i hash

end close

/-! ### Connections that do not exist yet -/

/-- The accepted connections have the numbers given out so far, and their server has started;
the others are as they were at the start. -/
structure Born (c : Core) : Prop where
  asked : ∀ n u, c.upgrade n = some u → (c.srv u.inst).started = true
  running : ∀ k ∈ c.accepted, (c.srv k.inst).started = true
  numbered : ∀ k ∈ c.accepted, k.seq ≤ (c.srv k.inst).seq
  unborn : ∀ k, k ∉ c.accepted → c.conn k = Conn.unborn

/-- The next connection of a server does not exist yet. -/
theorem Born.next {c : Core} (h : Born c) (i : InstanceId) :
    c.conn ⟨i, (c.srv i).seq + 1⟩ = Conn.unborn := by
  refine h.unborn _ fun hm => ?_
  have := h.numbered _ hm
  dsimp only at this
  omega

theorem SrvStep.seq_le {env : Env} {c : Core} {l : Label} {i : InstanceId} {v : Srv}
    (h : SrvStep env c l i v) : (c.srv i).seq ≤ v.seq := by
  cases h with
  | accept => exact Nat.le_succ _
  | close hl hc hi =>
      subst hi
      unfold Core.onClosed
      rw [Core.updSrv_srv]
      split <;> exact le_refl _
  | _ => exact le_refl _

theorem SrvStep.started {env : Env} {c : Core} {l : Label} {i : InstanceId} {v : Srv}
    (h : SrvStep env c l i v) (hs : (c.srv i).started = true) : v.started = true := by
  cases h with
  | start => rfl
  | close hl hc hi =>
      subst hi
      unfold Core.onClosed
      rw [Core.updSrv_srv]
      split <;> exact hs
  | _ => exact hs

/-- The connections of a server that has not started are as they were at the start. -/
theorem Born.unstarted {c : Core} (h : Born c) {k : ConnKey}
    (hs : (c.srv k.inst).started = false) : c.conn k = Conn.unborn :=
  h.unborn k fun hk => by rw [h.running k hk] at hs; cases hs

theorem Born.step {env : Env} {up : ConnKey → Bool} {c c' : Core} {l : Label}
    (hs : CoreStep env up c l c') (h : Born c) : Born c' := by
  have numbered : ∀ k ∈ c.accepted, k.seq ≤ (c'.srv k.inst).seq :=
    fun k hk => (h.numbered k hk).trans (hs.srv k.inst).seq_le
  have started : ∀ i, (c.srv i).started = true → (c'.srv i).started = true :=
    fun i => (hs.srv i).started
  have running : ∀ k ∈ c.accepted, (c'.srv k.inst).started = true :=
    fun k hk => started k.inst (h.running k hk)
  have asked : ∀ n u, c'.upgrade n = some u → (c'.srv u.inst).started = true := by
    intro n u hu
    by_cases hreq : ∃ i req, l = .upgrade i req
    · obtain ⟨i, req, rfl⟩ := hreq
      cases hs with
      | same => exact h.asked n u hu
      | upgrade hst =>
          by_cases hn : n = c.upgrades
          · subst hn
            rw [show (c.onUpgrade env i req).upgrade c.upgrades = _ from
              Function.update_self ..] at hu
            rw [← Option.some.inj hu]
            exact hst
          · rw [show (c.onUpgrade env i req).upgrade n = _ from
              Function.update_of_ne hn _ _] at hu
            exact h.asked n u hu
    · refine started u.inst ?_
      rcases (hs.requests fun i req he => hreq ⟨i, req, he⟩).2 with
        he | ⟨m, v, v', hv, hi, -, -, he⟩
      · rw [he] at hu
        exact h.asked n u hu
      · rw [he] at hu
        by_cases hn : n = m
        · subst hn
          rw [Function.update_self] at hu
          rw [← Option.some.inj hu, hi]
          exact h.asked n v hv
        · rw [Function.update_of_ne hn] at hu
          exact h.asked n u hu
  by_cases hl : ∃ n, l = .resume (.upgrade n)
  · obtain ⟨n, rfl⟩ := hl
    cases hs with
    | same => exact h
    | admitting hu hpc hne => exact ⟨asked, h.running, h.numbered, h.unborn⟩
    | @accept n u hu hpc hd =>
        have hseq : ((c.accept u.inst u.info).srv u.inst).seq = (c.srv u.inst).seq + 1 := by
          rw [Core.accept_srv]
        refine ⟨asked, fun k hk => ?_, fun k hk => ?_, fun k hk => ?_⟩
        · rcases List.mem_append.mp hk with hk | hk
          · exact running k hk
          · rw [List.mem_singleton.mp hk]
            exact started u.inst (h.asked n u hu)
        · rcases List.mem_append.mp hk with hk | hk
          · exact numbered k hk
          · rw [List.mem_singleton.mp hk]
            exact hseq.ge
        · have hne : k ≠ ⟨u.inst, (c.srv u.inst).seq + 1⟩ := by
            rintro rfl
            exact hk (List.mem_append_right _ (List.mem_singleton_self _))
          exact (Function.update_of_ne hne _ _).trans
            (h.unborn k fun hm => hk (List.mem_append_left _ hm))
  · have hacc : c'.accepted = c.accepted := by
      rcases hs.accepted with he | ⟨n, u, he, -⟩
      · exact he
      · exact absurd ⟨n, he⟩ hl
    refine ⟨asked, fun k hk => running k (hacc ▸ hk), fun k hk => numbered k (hacc ▸ hk),
      fun k hk => ?_⟩
    rw [hacc] at hk
    have hu := h.unborn k hk
    have hx := hs.conn k
    generalize c'.conn k = x at hx ⊢
    cases hx with
    | same => exact hu
    | act hl' hh ha => rw [hu] at hh; cases hh
    | handle hl' hk' => exact absurd hk' hk
    | settled hl' hh => rw [hu] at hh; cases hh
    | accepted hl' => exact absurd ⟨_, hl'⟩ hl
    | shut hl hc => rw [hu] at hc; cases hc
    | muted hl' hn hr => rw [hu] at hr; cases hr
    | begins hd hj hc => rw [hu] at hj; cases hj
    | rolling hl' hp => rw [hu] at hp; cases hp
    | creating hp => rw [hu] at hp; cases hp
    | rolled hp => rw [hu] at hp; cases hp
    | renewed hl' hp => rw [hu] at hp; cases hp

theorem born_of_reaches {env : Env} {C : Sys → Label → Prop} {s : Sys}
    (h : (system env).Reaches C s) : Born s.toCore := by
  refine Machine.Reaches.invariant (I := fun s => Born s.toCore) ?_ ?_ h
  · rintro s ⟨t, rfl⟩
    exact ⟨fun n u hu => (Option.some_ne_none u hu.symm).elim,
      fun k hk => absurd hk List.not_mem_nil, fun k hk => absurd hk List.not_mem_nil,
      fun k _ => rfl⟩
  · intro s l t hI _ hs
    exact hI.step (Sys.coreStep hs)

/-! ### Runs -/

theorem Seats.setReset {c : Core} (h : Seats c) (i : InstanceId) (p : Option RollingPc) :
    Seats (c.setReset i p) := h.updSrv rfl rfl rfl rfl rfl

theorem Seats.begins {env : Env} {i : InstanceId} {next : DailyRoom} {c c' : Core} {ns : List ℕ}
    (hb : Begins env i next c ns c') (h : Seats c) : Seats c' := by
  refine h.congr (fun k => ?_) fun j => by rw [hb.srv]; exact ⟨rfl, rfl, rfl⟩
  rcases hb.conn k with hk | ⟨-, -, -, -, d, input, -, hk⟩
  · rw [hk]
    exact ⟨rfl, rfl⟩
  · rw [hk]
    exact ⟨rfl, rfl⟩

theorem Seats.batches {env : Env} {i : InstanceId} {prev next : DailyRoom} {c c' : Core}
    {rest : List ℕ} (hb : Batches env i prev next c rest c') (h : Seats c) : Seats c' := by
  cases hb with
  | ended => exact h.setReset _ _
  | batch hr hb => exact (h.begins hb).setReset _ _

theorem Seats.resetMove {env : Env} {i : InstanceId} {c c' : Core} {p : RollingPc}
    (hm : ResetMove env i c p c') (h : Seats c) : Seats c' := by
  cases hm with
  | acquired => exact h.setReset _ _
  | cleaned => exact h.setReset _ _
  | listed hp hb => exact h.batches hb
  | batched hd => exact h.setReset _ _
  | next hb => exact h.batches hb

theorem Seats.rolloverMove {env : Env} {k : ConnKey} {up : Bool} {prev : DailyRoom} {c c' : Core}
    {p : RolloverPc} (hm : RolloverMove env k up prev c p c') (h : Seats c) : Seats c' := by
  cases hm with
  | wait hp => exact h.updConn rfl rfl rfl rfl
  | closed hp hc => exact h.updConn rfl rfl rfl rfl
  | threw hp => exact h.updConn rfl rfl rfl rfl
  | enter hp hc => exact h.updConn (Core.rolloverEnter_conn ..) rfl rfl rfl

theorem Seats.enter {c : Core} (h : Seats c) (k : ConnKey) (r : SessionRecord) (token : Token) :
    Seats (c.enter k r token) :=
  (h.updConn (d := c.updConn k _) rfl rfl rfl rfl).updSrv rfl rfl rfl rfl rfl

theorem Seats.step {env : Env} {up : ConnKey → Bool} {c c' : Core} {l : Label}
    (hs : CoreStep env up c l c') (h : Seats c) : Seats c' := by
  cases hs.roster with
  | same hc => exact h.of_roster hc
  | start hs hc => exact Seats.of_roster hc (h.updSrv rfl rfl rfl rfl rfl)
  | accept hu hpc hd hc => exact Seats.of_roster hc (h.accept _ _)
  | close hk hc => exact Seats.of_roster hc (h.close hk)
  | enter he hc => exact Seats.of_roster hc (h.enter _ _ _)
  | welcome hh hp hc => exact Seats.of_roster hc (h.updConn rfl rfl rfl rfl)
  | switch hl hnext hr hn hc => exact Seats.of_roster hc (h.updSrv rfl rfl rfl rfl rfl)
  | settleRollover hp hs hc => exact Seats.of_roster hc (h.updConn rfl rfl rfl rfl)
  | rollover hp hprev hm => exact h.rolloverMove hm
  | settleReset hp hs hc => exact Seats.of_roster hc (h.setReset _ _)
  | reset hp hm => exact h.resetMove hm
  | stop hc => exact Seats.of_roster hc (h.updSrv rfl rfl rfl rfl rfl)

theorem seats_initial (t : ℤ) : Seats (Sys.initial t).toCore := by
  refine ⟨fun i n => ?_, fun i => List.nodup_nil, fun i n hn => ?_, fun i hash => rfl⟩
  · simp [Sys.initial, Conn.unborn]
  · cases hn

theorem seats_of_reaches {env : Env} {C : Sys → Label → Prop} {s : Sys}
    (h : (system env).Reaches C s) : Seats s.toCore := by
  refine Machine.Reaches.invariant (I := fun s => Seats s.toCore) ?_ ?_ h
  · rintro s ⟨t, rfl⟩
    exact seats_initial t
  · intro s l t hI _ hs
    exact hI.step (Sys.coreStep hs)

end RoomBackend
