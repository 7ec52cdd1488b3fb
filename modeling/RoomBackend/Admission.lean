import RoomBackend.Pseudonyms

/-! # The caps on open connections

`admit` checks the caps against the open connections, and `accept` makes the connection several
awaits later. The checks keep a cap as long as nobody else it concerns is on the way between them
and `accept`, or there is a place for those who are. Connections of a network are counted under the
pseudonym of the room they were admitted in. -/

namespace RoomBackend

open Async Day Lts

/-! ### Requests in flight -/

namespace Core

variable (c : Core) (i : InstanceId) (p : AdmitInfo → Bool)

/-- The request `n` is in flight on the instance, and its information satisfies `p`. -/
def waits (n : ℕ) : Bool :=
  (c.upgrade n).any fun u => decide (u.inst = i) && (u.pc.inFlight && p u.info)

/-- The number of requests in flight. -/
def waiting : ℕ := (List.range c.upgrades).countP (c.waits i p)

/-- The number of open connections. -/
def openIn : ℕ := (c.srv i).conns.countP fun n => p (c.conn ⟨i, n⟩).info

/-- The open connections were admitted in the room of the server. -/
def current : Bool := (c.srv i).conns.all fun n =>
  !p (c.conn ⟨i, n⟩).info || decide ((c.conn ⟨i, n⟩).info.roomId = (c.srv i).room.roomId)

end Core

/-- The caps: on the connections of a server, and on those from one client network. -/
inductive Cap (env : Env) : (AdmitInfo → Bool) → ℕ → Prop
  | total : Cap env (fun _ => true) env.config.maxConnections
  | network (net : String) :
      Cap env (fun a => decide (a.network = net)) env.config.maxConnectionsPerIp

/-- Nobody could be let in beyond a cap, or after `stop`. -/
structure Admission (env : Env) (c : Core) : Prop where
  unused : ∀ n, c.upgrades ≤ n → c.upgrade n = none
  below : ∀ i p m, Cap env p m → c.openIn i p + c.waiting i p ≤ m
  closing : ∀ i, (c.srv i).shuttingDown = true → c.waiting i (fun _ => true) = 0

/-! ### Steps that let nobody in -/

section quiet

variable {env : Env} {up : ConnKey → Bool} {c c' : Core} {l : Label}

/-- No step but a handshake adds a connection. -/
theorem CoreStep.openIn_le (h : CoreStep env up c l c') (hl : ∀ n, l ≠ .resume (.upgrade n))
    (hS : Seats c) (i : InstanceId) (p : AdmitInfo → Bool) : c'.openIn i p ≤ c.openIn i p := by
  have hinfo : ∀ k, (c'.conn k).info = (c.conn k).info := by
    intro k
    have hx := h.conn k
    generalize c'.conn k = x at hx ⊢
    cases hx with
    | same => rfl
    | act hl' hh ha => exact ha.kept.info
    | handle hl' hk hh ha =>
        exact ha.kept.info.trans (by rw [Core.take_conn])
    | accepted hl' => exact absurd hl' (hl _)
    | _ => rfl
  have hconns : ((c'.srv i).conns).Sublist (c.srv i).conns := by
    have hv := h.srv i
    generalize c'.srv i = v at hv ⊢
    cases hv with
    | accept hl' => exact absurd hl' (hl _)
    | close hl' hc hi =>
        subst hi
        rw [Core.onClosed_srv ((hS.members _ _).mpr hc)]
        exact List.erase_sublist
    | _ => exact List.Sublist.refl _
  unfold Core.openIn
  simp only [hinfo]
  exact hconns.countP_le

theorem CoreStep.shuttingDown (h : CoreStep env up c l c') (i : InstanceId) (hl : l ≠ .stop i) :
    (c'.srv i).shuttingDown = (c.srv i).shuttingDown := by
  have hv := h.srv i
  generalize c'.srv i = v at hv ⊢
  cases hv with
  | stop hl' => exact absurd hl' hl
  | close hl' hc hi =>
      subst hi
      unfold Core.onClosed
      rw [Core.updSrv_srv]
      split <;> rfl
  | _ => rfl

/-- No step but a new request adds one in flight. -/
theorem CoreStep.waits_of_waits (h : CoreStep env up c l c') (hl : ∀ i req, l ≠ .upgrade i req)
    {i : InstanceId} {p : AdmitInfo → Bool} {n : ℕ} (hn : c'.waits i p n = true) :
    c.waits i p n = true := by
  rcases (h.requests hl).2 with hu | ⟨m, u, u', hu, hi, hinfo, hpc, hu'⟩
  · rwa [Core.waits, hu] at hn
  · rw [Core.waits, hu'] at hn
    by_cases hnm : n = m
    · subst hnm
      rw [Function.update_self] at hn
      simp only [Option.any_some, Bool.and_eq_true, decide_eq_true_eq, hi, hinfo] at hn
      simp [Core.waits, hu, hn.1, hpc hn.2.1, hn.2.2]
    · rwa [Function.update_of_ne hnm] at hn

theorem CoreStep.waiting_le (h : CoreStep env up c l c') (hl : ∀ i req, l ≠ .upgrade i req)
    (i : InstanceId) (p : AdmitInfo → Bool) : c'.waiting i p ≤ c.waiting i p := by
  rw [Core.waiting, Core.waiting, (h.requests hl).1]
  exact List.countP_mono_left fun n _ hn => h.waits_of_waits hl hn

end quiet

/-! ### A request and its acceptance -/

section request

variable {env : Env} {c : Core}

/-- A new request is one more in flight, if the local checks let it pass. -/
theorem Core.waiting_onUpgrade (i j : InstanceId) (req : UpgradeReq) (p : AdmitInfo → Bool) :
    (c.onUpgrade env i req).waiting j p = c.waiting j p +
      if (c.onUpgrade env i req).waits j p c.upgrades then 1 else 0 := by
  rw [waiting, waiting]
  show (List.range (c.upgrades + 1)).countP _ = _
  rw [List.range_succ, List.countP_append, List.countP_singleton]
  congr 1
  refine List.countP_congr fun n hn => ?_
  have hn' : n ≠ c.upgrades := (List.mem_range.mp hn).ne
  simp [waits, onUpgrade, hn']

/-- `accept` turns a request in flight into an open connection. -/
theorem Core.waiting_accept (hu0 : ∀ n, c.upgrades ≤ n → c.upgrade n = none) {n : ℕ}
    {u : Upgrade} (hu : c.upgrade n = some u) (j : InstanceId) (p : AdmitInfo → Bool) :
    (c.setUpgrade n { u with pc := .accepted }).waiting j p + (if c.waits j p n then 1 else 0) =
      c.waiting j p := by
  have hn : n ∈ List.range c.upgrades := by
    refine List.mem_range.mpr (lt_of_not_ge fun hle => ?_)
    rw [hu0 n hle] at hu
    cases hu
  have hself : (c.setUpgrade n { u with pc := .accepted }).waits j p n = false := by
    simp [waits, setUpgrade, UpgradePc.inFlight]
  have hother : ∀ m, m ≠ n →
      (c.setUpgrade n { u with pc := .accepted }).waits j p m = c.waits j p m := by
    intro m hm
    simp [waits, setUpgrade, hm]
  rw [waiting, waiting]
  show (List.range c.upgrades).countP _ + _ = _
  cases hw : c.waits j p n with
  | true =>
      have := countP_gain List.nodup_range hn hself hw fun m _ hm => (hother m hm).symm
      simp [this]
  | false =>
      simp only [Bool.false_eq_true, if_false, Nat.add_zero]
      refine List.countP_congr fun m _ => ?_
      by_cases hm : m = n
      · rw [hm, hself, hw]
      · rw [hother m hm]

theorem Core.openIn_accept (hS : Seats c) (i j : InstanceId) (info : AdmitInfo)
    (p : AdmitInfo → Bool) : (c.accept i info).openIn j p =
      c.openIn j p + if j = i ∧ p info = true then 1 else 0 := by
  unfold openIn
  by_cases hj : j = i
  · subst hj
    rw [hS.countP_accept j info fun x => p x.info]
    cases hp : p info <;> simp [Conn.new, hp]
  · rw [Core.accept_srv_ne i info hj]
    simp [Core.accept_conn_ne i info hj, hj]

theorem Core.accept_shuttingDown (i j : InstanceId) (info : AdmitInfo) :
    ((c.accept i info).srv j).shuttingDown = (c.srv j).shuttingDown := by
  by_cases hj : j = i
  · subst hj
    rw [Core.accept_srv]
  · rw [Core.accept_srv_ne i info hj]

end request

/-! ### Runs -/

/-- When a request passes the local checks, no other one is in flight on the server, or the open
connections and those in flight leave a place. The same holds of its network, and if no other of
its network is in flight then its connections were admitted in the room of the server. No request
is in flight when the server is stopped. -/
def Sys.placesLeft (env : Env) (s : Sys) : Label → Bool
  | .upgrade i req =>
      let all : AdmitInfo → Bool := fun _ => true
      let same : AdmitInfo → Bool := fun a => decide (a.network = env.networkKey req.ip)
      decide (req.path ≠ "/ws") || decide (s.admitRequest env i req ≠ .netBlock .pending) ||
        (decide (s.toCore.waiting i all = 0) ||
          decide (s.openIn i all + s.toCore.waiting i all < env.config.maxConnections)) &&
        (decide (s.toCore.waiting i same = 0) && s.current i same ||
          decide (s.openIn i same + s.toCore.waiting i same < env.config.maxConnectionsPerIp))
  | .stop i => decide (s.toCore.waiting i (fun _ => true) = 0)
  | _ => true

/-- The local checks that a request has passed. -/
structure Core.Passes (env : Env) (c : Core) (i : InstanceId) (req : UpgradeReq) : Prop where
  running : (c.srv i).shuttingDown = false
  capacity : (c.srv i).conns.length < env.config.maxConnections
  perNetwork : ((c.srv i).perNetwork (c.admitInfo env i req).net.dailyHash).getD 0 <
    env.config.maxConnectionsPerIp

/-- A request that does not pass the local checks is refused. -/
theorem Core.admitRequest_cases (env : Env) (c : Core) (i : InstanceId) (req : UpgradeReq) :
    (∃ status reason, c.admitRequest env i req = .refused status reason) ∨
      c.admitRequest env i req = .netBlock .pending ∧ c.Passes env i req := by
  unfold admitRequest
  dsimp only
  split
  · exact Or.inl ⟨_, _, rfl⟩
  · rename_i hs
    split
    · exact Or.inl ⟨_, _, rfl⟩
    · split
      · exact Or.inl ⟨_, _, rfl⟩
      · rename_i hc
        split
        · exact Or.inl ⟨_, _, rfl⟩
        · rename_i hn
          exact Or.inr ⟨rfl, by simpa using hs, not_le.mp hc, not_le.mp hn⟩

/-- The check of the capacity is about the open connections. -/
theorem Core.Passes.openIn_lt {env : Env} {c : Core} {i : InstanceId} {req : UpgradeReq}
    (h : c.Passes env i req) : c.openIn i (fun _ => true) < env.config.maxConnections :=
  lt_of_le_of_lt List.countP_le_length h.capacity

/-- The check of the network finds those of its connections that were admitted in this room. -/
theorem Core.Passes.openIn_same_lt {env : Env} {c : Core} {i : InstanceId} {req : UpgradeReq}
    (h : c.Passes env i req) (hS : Seats c) (hB : Born c) (hH : Hashed env c)
    (hcur : c.current i (fun a => decide (a.network = env.networkKey req.ip)) = true) :
    c.openIn i (fun a => decide (a.network = env.networkKey req.ip)) <
      env.config.maxConnectionsPerIp := by
  have hle : c.openIn i (fun a => decide (a.network = env.networkKey req.ip)) ≤
      c.networkIn i (c.admitInfo env i req).net.dailyHash := by
    refine List.countP_mono_left fun n hn hnet => ?_
    have hacc : (⟨i, n⟩ : ConnKey) ∈ c.accepted := by
      by_contra hna
      have hopen := (hS.members i n).mp hn
      rw [hB.unborn _ hna] at hopen
      cases hopen
    have hroom := List.all_eq_true.mp hcur n hn
    rw [hnet, Bool.not_true, Bool.false_or] at hroom
    have hderived : (c.conn ⟨i, n⟩).info.net = env.networkIdentity (c.conn ⟨i, n⟩).info.roomId
        (c.conn ⟨i, n⟩).info.network := hH.conn _ hacc
    refine decide_eq_true ?_
    rw [hderived, of_decide_eq_true hroom, of_decide_eq_true hnet]
    rfl
  have htally : (c.networkIn i (c.admitInfo env i req).net.dailyHash : ℤ) <
      env.config.maxConnectionsPerIp := by
    have hlt := h.perNetwork
    rw [hS.network] at hlt
    refine lt_of_le_of_lt (le_of_eq ?_) hlt
    unfold tally
    split
    · rename_i hz
      rw [hz]
      rfl
    · rfl
  omega

/-- A new request that is in flight has passed the local checks. -/
theorem Core.waits_onUpgrade {env : Env} {c : Core} {i j : InstanceId} {req : UpgradeReq}
    {p : AdmitInfo → Bool} (h : (c.onUpgrade env i req).waits j p c.upgrades = true) :
    j = i ∧ p (c.admitInfo env i req) = true ∧ req.path = "/ws" ∧
      c.admitRequest env i req = .netBlock .pending ∧ c.Passes env i req := by
  simp only [waits, onUpgrade, Function.update_self, Option.any_some, Bool.and_eq_true,
    decide_eq_true_eq] at h
  obtain ⟨rfl, hpc, hp⟩ := h
  split at hpc
  · rename_i hpath
    rcases c.admitRequest_cases env i req with ⟨status, reason, hr⟩ | ⟨ha, hs⟩
    · rw [hr] at hpc
      cases hpc
    · exact ⟨rfl, hp, hpath, ha, hs⟩
  · cases hpc

theorem Admission.request {env : Env} {s : Sys} {i : InstanceId} {req : UpgradeReq}
    (hl : s.placesLeft env (.upgrade i req) = true) (hS : Seats s.toCore) (hB : Born s.toCore)
    (hH : Hashed env s.toCore) (h : Admission env s.toCore) :
    Admission env (s.toCore.onUpgrade env i req) := by
  refine ⟨fun n hn => ?_, fun j p m hm => ?_, fun j hj => ?_⟩
  · have hn' : n ≠ s.upgrades := Nat.ne_of_gt hn
    simp only [Core.onUpgrade, Function.update_of_ne hn']
    exact h.unused n ((Nat.le_succ _).trans hn)
  · rw [Core.waiting_onUpgrade]
    show s.openIn j p + _ ≤ m
    split
    · rename_i hw
      obtain ⟨rfl, hp, hpath, ha, hpass⟩ := Core.waits_onUpgrade hw
      simp only [Sys.placesLeft, hpath, ha, ne_eq, not_true_eq_false, decide_false, Bool.false_or,
        Bool.and_eq_true, Bool.or_eq_true, decide_eq_true_eq] at hl
      obtain ⟨htotal, hnet⟩ := hl
      cases hm with
      | total =>
          rcases htotal with hz | hlt
          · have hfree := hpass.openIn_lt
            rw [hz]
            omega
          · omega
      | network net =>
          obtain rfl : env.networkKey req.ip = net := by simpa [Core.admitInfo] using hp
          rcases hnet with ⟨hz, hcur⟩ | hlt
          · have hfree := hpass.openIn_same_lt hS hB hH hcur
            rw [hz]
            omega
          · omega
    · exact h.below j p m hm
  · rw [Core.waiting_onUpgrade, h.closing j hj]
    split
    · rename_i hw
      obtain ⟨rfl, -, -, -, hpass⟩ := Core.waits_onUpgrade hw
      have hj' : (s.srv j).shuttingDown = true := hj
      rw [hpass.running] at hj'
      cases hj'
    · rfl

theorem Admission.accept {env : Env} {c : Core} (h : Admission env c) (hS : Seats c) {n : ℕ}
    {u : Upgrade} (hu : c.upgrade n = some u) (hpc : u.pc = .handshake) :
    Admission env ((c.setUpgrade n { u with pc := .accepted }).accept u.inst u.info) := by
  have hwaits : ∀ j p, c.waits j p n = true ↔ j = u.inst ∧ p u.info = true := by
    intro j p
    rw [Core.waits, hu, Option.any_some, hpc]
    simp only [UpgradePc.inFlight, Bool.true_and, Bool.and_eq_true, decide_eq_true_eq]
    exact and_congr_left' eq_comm
  have hS' : Seats (c.setUpgrade n { u with pc := .accepted }) :=
    hS.congr (fun k => ⟨rfl, rfl⟩) fun i => ⟨rfl, rfl, rfl⟩
  refine ⟨fun m hm => ?_, fun j p m hm => ?_, fun j hj => ?_⟩
  · have hmn : m ≠ n := by
      rintro rfl
      rw [h.unused m hm] at hu
      cases hu
    show Function.update c.upgrade n _ m = none
    rw [Function.update_of_ne hmn]
    exact h.unused m hm
  · have hw := Core.waiting_accept h.unused hu j p
    have ho := Core.openIn_accept hS' u.inst j u.info p
    have hb := h.below j p m hm
    simp only [hwaits] at hw
    show Core.openIn _ j p + (c.setUpgrade n { u with pc := .accepted }).waiting j p ≤ m
    rw [ho]
    show c.openIn j p + _ + _ ≤ m
    omega
  · rw [Core.accept_shuttingDown] at hj
    have hw := Core.waiting_accept h.unused hu j fun _ => true
    have hz := h.closing j hj
    show (c.setUpgrade n { u with pc := .accepted }).waiting j (fun _ => true) = 0
    omega

theorem Admission.step {env : Env} {s : Sys} {l : Label} {c' : Core}
    (hs : CoreStep env s.up s.toCore l c') (hS : Seats s.toCore) (hB : Born s.toCore)
    (hH : Hashed env s.toCore) (hl : s.placesLeft env l = true)
    (h : Admission env s.toCore) : Admission env c' := by
  by_cases hreq : ∃ i req, l = .upgrade i req
  · obtain ⟨i, req, rfl⟩ := hreq
    cases hs with
    | same => exact h
    | upgrade hst => exact h.request hl hS hB hH
  have hreq' : ∀ i req, l ≠ .upgrade i req := fun i req he => hreq ⟨i, req, he⟩
  have hunused : ∀ n, c'.upgrades ≤ n → c'.upgrade n = none := by
    intro n hn
    obtain ⟨hup, hu⟩ := hs.requests hreq'
    rw [hup] at hn
    rcases hu with hu | ⟨m, u, u', hm, -, -, -, hu⟩
    · rw [hu]
      exact h.unused n hn
    · have hnm : n ≠ m := by
        rintro rfl
        rw [h.unused n hn] at hm
        cases hm
      rw [hu, Function.update_of_ne hnm]
      exact h.unused n hn
  by_cases hhand : ∃ n, l = .resume (.upgrade n)
  · obtain ⟨n, rfl⟩ := hhand
    have hw := hs.waiting_le hreq'
    cases hs with
    | same => exact h
    | admitting hu hpc hne =>
        exact ⟨hunused, fun i p m hm => (Nat.add_le_add_left (hw i p) _).trans (h.below i p m hm),
          fun i hi => Nat.le_zero.mp ((hw i _).trans (h.closing i hi).le)⟩
    | accept hu hpc hd => exact h.accept hS hu hpc
  have hhand' : ∀ n, l ≠ .resume (.upgrade n) := fun n he => hhand ⟨n, he⟩
  refine ⟨hunused, fun i p m hm => ?_, fun i hi => ?_⟩
  · exact (Nat.add_le_add (hs.openIn_le hhand' hS i p) (hs.waiting_le hreq' i p)).trans
      (h.below i p m hm)
  · refine Nat.le_zero.mp ((hs.waiting_le hreq' i _).trans ?_)
    by_cases hstop : l = .stop i
    · subst hstop
      simpa [Sys.placesLeft] using hl
    · rw [hs.shuttingDown i hstop] at hi
      exact (h.closing i hi).le

theorem admission_of_reaches {env : Env} {s : Sys}
    (h : (system env).Reaches (fun s l => s.placesLeft env l = true) s) :
    Admission env s.toCore := by
  refine Machine.Reaches.invariant_of
    (J := fun s => Seats s.toCore ∧ Born s.toCore ∧ Hashed env s.toCore)
    (I := fun s => Admission env s.toCore)
    (fun s hs => ⟨seats_of_reaches hs, born_of_reaches hs, hashed_of_reaches hs⟩) ?_ ?_ h
  · rintro s ⟨t, rfl⟩
    exact ⟨fun n _ => rfl, fun i p m _ => Nat.zero_le _, fun i _ => rfl⟩
  · rintro s l t ⟨hS, hB, hH⟩ hI hl hs
    exact hI.step (Sys.coreStep hs) hS hB hH hl

/-- What holds of the step that makes the connection `k`: the server is not shutting down, and
both caps leave room for one more. -/
structure LetsIn (env : Env) (s t : Sys) (k : ConnKey) : Prop where
  running : (s.srv k.inst).shuttingDown = false
  total : s.openIn k.inst (fun _ => true) < env.config.maxConnections
  network : s.openIn k.inst (fun a => decide (a.network = (t.conn k).info.network)) <
    env.config.maxConnectionsPerIp

/-- Both caps are kept. -/
def CapsKept (env : Env) (s : Sys) : Prop :=
  ∀ i, s.openIn i (fun _ => true) ≤ env.config.maxConnections ∧
    ∀ net, s.openIn i (fun a => decide (a.network = net)) ≤ env.config.maxConnectionsPerIp

/-- **Caps.** In every run in which each request that passes the local checks is alone on the way,
or finds a place that no other request in flight may still take, and in which no request is in
flight when a server is stopped, the caps are kept, and a connection is only made while its server
is running and has a place for it. -/
theorem caps_of_reaches {env : Env} {s : Sys}
    (h : (system env).Reaches (fun s l => s.placesLeft env l = true) s) :
    CapsKept env s ∧ ∀ l t k, s.step env l = some t → t.accepted = s.accepted ++ [k] →
      LetsIn env s t k := by
  have hI := admission_of_reaches h
  refine ⟨fun i => ⟨?_, fun net => ?_⟩, fun l t k hs hk => ?_⟩
  · exact (Nat.le_add_right _ _).trans (hI.below i _ _ Cap.total)
  · exact (Nat.le_add_right _ _).trans (hI.below i _ _ (Cap.network net))
  · rcases (Sys.coreStep hs).accepted with he | ⟨n, u, rfl, hu, hpc, hd, he⟩
    · rw [he] at hk
      simp at hk
    · have hkey : k = ⟨u.inst, (s.srv u.inst).seq + 1⟩ := by
        rw [he] at hk
        exact (List.singleton_inj.mp (List.append_cancel_left hk)).symm
      subst hkey
      have hinfo : (t.conn ⟨u.inst, (s.srv u.inst).seq + 1⟩).info = u.info := by
        rw [show t.conn = _ from congrArg Core.conn he]
        exact congrArg Conn.info (Core.accept_conn_self (c := s.toCore.setUpgrade n _) _ _)
      have hone : ∀ p : AdmitInfo → Bool, p u.info = true → s.toCore.waiting u.inst p ≠ 0 := by
        intro p hp hz
        have hw := Core.waiting_accept hI.unused hu u.inst p
        have : s.toCore.waits u.inst p n = true := by
          rw [Core.waits, hu, Option.any_some, hpc]
          simp [UpgradePc.inFlight, hp]
        rw [this, hz] at hw
        simp at hw
      refine ⟨?_, ?_, ?_⟩
      · by_contra hsd
        exact hone _ rfl (hI.closing u.inst (by simpa using hsd))
      · have := hone (fun _ => true) rfl
        have := hI.below u.inst _ _ Cap.total
        show s.openIn u.inst _ < _
        omega
      · rw [hinfo]
        have := hone (fun a => decide (a.network = u.info.network)) (by simp)
        have := hI.below u.inst _ _ (Cap.network u.info.network)
        show s.openIn u.inst _ < _
        omega

/-- Two clients are let in, one after the other, and a third asks. -/
def asksInTurn : List Label :=
  [.start 0] ++ Demo.request 0 "a" ++ Demo.handshake 0 ++ Demo.request 1 "a" ++ Demo.handshake 1
    ++ [.upgrade 0 { path := "/ws", origin := some "https://room", ip := "b", automatedUA := false
                     ipCountry := none }]

/-- A run of the theorem: two clients have been let in, and the check refuses the third. -/
theorem caps_inTurn : ∃ s,
    (system (Demo.env none)).Reaches (fun s l => s.placesLeft (Demo.env none) l = true) s ∧
      (s.srv 0).conns = [1, 2] ∧ (s.upgrade 2).map (·.pc) = some (.refused 503 "capacity") ∧
      CapsKept (Demo.env none) s := by
  obtain ⟨s, hs, hP⟩ := exists_reached (Demo.env none) (Sys.placesLeft (Demo.env none))
    (fun s => decide ((s.srv 0).conns = [1, 2]) &&
      decide ((s.upgrade 2).map (·.pc) = some (.refused 503 "capacity"))) Demo.noon asksInTurn
    (by decide +kernel)
  simp only [Bool.and_eq_true, decide_eq_true_eq] at hP
  exact ⟨s, hs, hP.1, hP.2, (caps_of_reaches hs).1⟩

/-- Three clients of one network ask at the same time. Two of them are let in, the server is
stopped, and the handshake of the third is under way. -/
def asksTogether : List Label :=
  [.start 0] ++ Demo.request 0 "a" ++ Demo.request 1 "a" ++ Demo.request 2 "a"
    ++ Demo.handshake 0 ++ Demo.handshake 1 ++ [.stop 0, .resume (.upgrade 2)]

/-- Without the condition a connection is made although the server is shutting down and both
caps are reached. -/
theorem caps_exceeded : ∃ s t, (system (Demo.env none)).Reaches Free s ∧
    s.step (Demo.env none) (.resume (.upgrade 2)) = some t ∧
    t.accepted = s.accepted ++ [Demo.conn 3] ∧ (s.srv 0).shuttingDown = true ∧
    s.openIn 0 (fun _ => true) = (Demo.env none).config.maxConnections ∧
    s.openIn 0 (fun a => decide (a.network = "a")) = (Demo.env none).config.maxConnectionsPerIp ∧
    ¬ CapsKept (Demo.env none) t ∧ ¬ LetsIn (Demo.env none) s t (Demo.conn 3) := by
  obtain ⟨s, hs, hP⟩ := exists_reached_free (Demo.env none)
    (fun s => (s.srv 0).shuttingDown && decide (s.openIn 0 (fun _ => true) = 2) &&
      decide (s.openIn 0 (fun a => decide (a.network = "a")) = 2) &&
      (s.step (Demo.env none) (.resume (.upgrade 2))).any fun t : Sys =>
        decide (t.accepted = s.accepted ++ [Demo.conn 3]) &&
          decide (t.openIn 0 (fun _ => true) = 3))
    Demo.noon asksTogether (by decide +kernel)
  simp only [Bool.and_eq_true, decide_eq_true_eq, Option.any_eq_true] at hP
  obtain ⟨⟨⟨hsd, htotal⟩, hnet⟩, t, ht, hacc, hthree⟩ := hP
  refine ⟨s, t, hs, ht, hacc, hsd, htotal, hnet, fun h => ?_, fun h => ?_⟩
  · have := (h 0).1
    rw [hthree] at this
    exact absurd this (by decide)
  · have := h.running
    rw [show (Demo.conn 3).inst = 0 from rfl, hsd] at this
    cases this

end RoomBackend
