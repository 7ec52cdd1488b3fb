import RoomBackend.Boundary
import RoomBackend.Provenance

/-! # What a client is told about its session

The welcome of a `join` and the reset of a rollover name a session, its resume token and its
room. The last of them that was sent names the session its connection holds (`Conn.Named`),
and a welcome is of one room, as long as the `join` takes up a session of the room in force, no
rollover of the connection ends while its `join` waits for the history, and the socket takes
the frames. -/

namespace RoomBackend

open Async Day Lts

/-! ### Frames and the session they name -/

/-- The frame names this session, with this resume token, and the room of the session. -/
def Announcement.Names (r : SessionIdent) (token : Option Token) : Announcement → Prop
  | welcome r' token' room _ | reset r' token' room =>
      r' = r ∧ token = some token' ∧ room.roomId = r.roomId

/-- The last identity-bearing frame names the session the connection holds; there is none
before the first session. -/
def Conn.Named (x : Conn) : Prop :=
  match x.record with
  | none => x.announced = []
  | some r => ∃ a, x.announced.getLast? = some a ∧ a.Names r x.resumeToken

/-- A frame that names the session has just been sent. -/
theorem Conn.named_of_sent {x : Conn} {r : SessionIdent} {as : List Announcement}
    {a : Announcement} (hr : x.record = some r) (ha : x.announced = as ++ [a])
    (hn : a.Names r x.resumeToken) : x.Named := by
  unfold Named
  rw [hr, ha]
  exact ⟨a, List.getLast?_concat, hn⟩

/-- The operation a handler waits for does not change which history it waits for. -/
theorem Handler.settle_history {env : Env} {now : ℤ} {v : Bool} {k : ConnKey} {n : ℕ}
    {info : AdmitInfo} {o : Outcome} {w w' : World} {h h' : Handler}
    (hs : h.settle env now v k n info o w = some (h', w')) :
    awaitsHistory (some h') = awaitsHistory (some h) ∧
      ∀ j r token room p', h' = .join (.history j r token room p') →
        ∃ p, h = .join (.history j r token room p) := by
  cases h with
  | join p =>
      obtain ⟨⟨q, w₁⟩, hr, he⟩ := Option.map_eq_some_iff.mp hs
      rw [← (Prod.mk.inj he).1]
      cases p with
      | history j r token room p =>
          obtain ⟨s, -, hq⟩ := Option.map_eq_some_iff.mp hr
          rw [← (Prod.mk.inj hq).1]
          refine ⟨rfl, fun j' r' token' room' p' hp => ?_⟩
          cases hp
          exact ⟨p, rfl⟩
      | _ =>
          obtain ⟨s, -, hq⟩ := Option.map_eq_some_iff.mp hr
          rw [← (Prod.mk.inj hq).1]
          refine ⟨rfl, fun j' r' token' room' p' hp => ?_⟩
          cases hp
  | _ =>
      obtain ⟨q, -, he⟩ := Option.map_eq_some_iff.mp hs
      rw [← (Prod.mk.inj he).1]
      refine ⟨rfl, fun j r token room p' hp => ?_⟩
      cases hp

/-! ### The condition -/

/-- The last write of `create` has been answered: the session is made. -/
def CreatePc.made : CreatePc → Bool
  | .link _ _ _ true (.fulfilled _) => true
  | _ => false

theorem CreatePc.made_of_done {env : Env} {d d' : ℕ} {p : CreatePc} {r : SessionRecord}
    {token : Token} (h : p.resume env d = some (.done r token, d')) : p.made = true := by
  unfold CreatePc.resume at h
  split at h
  · split at h
    · cases h
    · cases h
    · cases h
    · split at h <;> cases h
  · split at h <;> cases h
  · split at h
    · cases h
    · cases h
    · split at h
      · rename_i hs
        rw [hs]
        rfl
      · cases h

/-- The `join` of `k` takes up a session of the room in force; a welcome or a reset of `k` is
sent to a socket that takes it; and no rollover of `k` ends while its `join` waits for the
history. -/
def Sys.announcesRight (k : ConnKey) (s : Sys) : Label → Bool
  | .resume (.handler j) =>
      j ≠ k || (s.entering k).all (fun r => r.roomId = (s.roomOf k).roomId) &&
        (!awaitsHistory (s.conn k).handler || s.up k)
  | .resume (.rollover j) =>
      j ≠ k || (s.conn k).closed || !(s.conn k).rolling.any (fun p => p.create.made) ||
        !awaitsHistory (s.conn k).handler && s.up k
  | _ => true

theorem Sys.announcesRight_handler {s : Sys} {k : ConnKey}
    (h : s.announcesRight k (.resume (.handler k)) = true) :
    (∀ r, s.entering k = some r → r.roomId = (s.roomOf k).roomId) ∧
      (awaitsHistory (s.conn k).handler = true → s.up k = true) := by
  have h : ((s.entering k).all (fun r => decide (r.roomId = (s.roomOf k).roomId)) &&
      (!awaitsHistory (s.conn k).handler || s.up k)) = true := by
    simpa [announcesRight] using h
  obtain ⟨hr, hu⟩ := Bool.and_eq_true_iff.mp h
  refine ⟨fun r he => ?_, fun ha => ?_⟩
  · rw [he] at hr
    exact of_decide_eq_true hr
  · rwa [ha] at hu

theorem Sys.announcesRight_rollover {s : Sys} {k : ConnKey} {p : RolloverPc}
    (h : s.announcesRight k (.resume (.rollover k)) = true) (hp : (s.conn k).rolling = some p)
    (hm : p.create.made = true) (hc : (s.conn k).closed = false) :
    awaitsHistory (s.conn k).handler = false ∧ s.up k = true := by
  simpa [announcesRight, hp, hm, hc] using h

/-! ### The invariant -/

/-- A `join` that waits for the history is about to announce the session held; otherwise it has
been announced. Welcomes are of the room of the session they name. -/
structure Conn.Greeted (x : Conn) : Prop where
  waiting : ∀ j r token room p, x.handler = some (.join (.history j r token room p)) →
    x.record = some r ∧ x.resumeToken = some token ∧ room.roomId = r.roomId
  named : awaitsHistory x.handler = false → x.Named
  welcomes : ∀ r token room history, .welcome r token room history ∈ x.announced →
    r.roomId = room.roomId

/-- Both connections hold the same session and token and were sent the same frames. -/
structure Conn.Alike (x y : Conn) : Prop where
  record : y.record = x.record
  token : y.resumeToken = x.resumeToken
  announced : y.announced = x.announced

theorem Core.alike_of_roster {c d : Core} (h : d.roster = c.roster) (k : ConnKey) :
    (c.conn k).Alike (d.conn k) := by
  have hk : ∀ {α : Type} (f : Conn → α), f (d.roster.conn k) = f (c.roster.conn k) :=
    fun f => by rw [h]
  exact ⟨hk Conn.record, hk Conn.resumeToken, hk Conn.announced⟩

theorem Conn.Named.of_alike {x y : Conn} (h : x.Named) (ha : x.Alike y) : y.Named := by
  unfold Named at h ⊢
  rwa [ha.record, ha.token, ha.announced]

theorem Conn.Greeted.of_alike {x y : Conn} (h : x.Greeted) (ha : x.Alike y)
    (hh : y.handler = x.handler) : y.Greeted := by
  refine ⟨fun j r token room p hp => ?_, fun hw => ?_, ?_⟩
  · rw [ha.record, ha.token]
    exact h.waiting j r token room p (hh ▸ hp)
  · rw [hh] at hw
    exact (h.named hw).of_alike ha
  · rw [ha.announced]
    exact h.welcomes

/-- No handler waits for the history, before and after. -/
theorem Conn.Greeted.quiet {x y : Conn} {h' : Option Handler} (h : x.Greeted) (ha : x.Alike y)
    (hx : awaitsHistory x.handler = false) (hy : awaitsHistory h' = false) :
    ({ y with handler := h' } : Conn).Greeted := by
  refine ⟨fun j r token room p hp => ?_, fun _ => (h.named hx).of_alike ⟨ha.record, ha.token,
    ha.announced⟩, ?_⟩
  · rw [show h' = _ from hp] at hy
    cases hy
  · show ∀ r token room history,
      .welcome r token room history ∈ y.announced → r.roomId = room.roomId
    rw [ha.announced]
    exact h.welcomes

theorem Conn.greeted_unheld {x : Conn} (hr : x.record = none) (ha : x.announced = [])
    (hh : x.handler = none) : x.Greeted := by
  refine ⟨fun j r token room p hp => ?_, fun _ => ?_, fun r token room history hm => ?_⟩
  · rw [hh] at hp
    cases hp
  · unfold Named
    rw [hr]
    exact ha
  · rw [ha] at hm
    cases hm

theorem ConnStep.greeted {env : Env} {s : Sys} {l : Label} {k : ConnKey} {x : Conn}
    (hx : ConnStep env s.up s.toCore l k x) (hR : (s.toCore.berth k).Fits k.seq)
    (hl : s.announcesRight k l = true) (h : (s.conn k).Greeted) : x.Greeted := by
  cases hx with
  | same => exact h
  | @act h₀ c₁ h' hl' hh ha =>
      subst hl'
      obtain ⟨henter, hup⟩ := Sys.announcesRight_handler hl
      cases ha.roster with
      | same hc hw hw' => exact h.quiet (Core.alike_of_roster hc k) (hh ▸ hw) hw'
      | @enter j r token p ttl hp ht =>
          have hroom := henter r (Core.entering_eq hh hp ht)
          rw [Core.enter_conn]
          refine ⟨fun j' r' token' room' p' hp' => ?_, fun hw => ?_, h.welcomes⟩
          · cases hp'
            exact ⟨rfl, rfl, hroom.symm⟩
          · cases hw
      | @welcome j r token room p history hp =>
          obtain ⟨hr, ht, hroom⟩ := h.waiting _ _ _ _ _ hh
          have hup : s.up k = true := hup (by rw [hh]; rfl)
          rw [Core.announce_conn, hup]
          refine ⟨fun j' r' token' room' p' hp' => ?_, fun _ => ?_, fun r' t' room' hs hm => ?_⟩
          · cases hp'
          · exact Conn.named_of_sent hr rfl ⟨rfl, ht, hroom⟩
          · rcases List.mem_append.mp hm with hm | hm
            · exact h.welcomes _ _ _ _ hm
            · cases List.mem_singleton.mp hm
              exact hroom.symm
  | @handle c₁ h' hl' hk hh ha =>
      have hw : awaitsHistory (s.conn k).handler = false := by
        rw [hh]
        rfl
      cases ha.roster with
      | same hc _ hw' =>
          exact h.quiet (Core.alike_of_roster (hc.trans (Core.roster_take _ k)) k) hw hw'
      | switch _ _ _ _ hc hw' =>
          have hk : (s.conn k).Alike (c₁.conn k) := by
            have hs := Core.alike_of_roster hc k
            rw [Core.switchRoom, Core.updSrv, Core.take_conn] at hs
            exact ⟨hs.record, hs.token, hs.announced⟩
          exact h.quiet hk hw hw'
  | settled hl' hh hs =>
      obtain ⟨hw, hback⟩ := Handler.settle_history hs
      refine ⟨fun j r token room p' hp => ?_, fun hw' => ?_, h.welcomes⟩
      · obtain ⟨p, rfl⟩ := hback j r token room p' (Option.some.inj hp)
        exact h.waiting _ _ _ _ _ hh
      · refine (h.named ?_).of_alike ⟨rfl, rfl, rfl⟩
        rw [hh, ← hw]
        exact hw'
  | accepted => exact Conn.greeted_unheld rfl rfl rfl
  | @renewed p r token d hl' hp hr hc =>
      subst hl'
      obtain ⟨hw, hup⟩ := Sys.announcesRight_rollover hl hp (CreatePc.made_of_done hr) hc
      have hroom : r.roomId = p.next.roomId :=
        CreatePc.targets_done hr (hR.renewing p hp).2.1
      rw [if_pos hup]
      refine ⟨fun j' r' token' room' p' hp' => ?_, fun _ => ?_, fun r' t' room' hs hm => ?_⟩
      · rw [show (s.conn k).handler = _ from hp'] at hw
        cases hw
      · exact Conn.named_of_sent rfl rfl ⟨rfl, rfl, hroom.symm⟩
      · rcases List.mem_append.mp hm with hm | hm
        · exact h.welcomes _ _ _ _ hm
        · cases List.mem_singleton.mp hm
  | _ => exact h.of_alike ⟨rfl, rfl, rfl⟩ rfl

theorem greeted_of_reaches {env : Env} {k : ConnKey} {s : Sys}
    (h : (system env).Reaches (fun s l => s.announcesRight k l = true) s) :
    (s.conn k).Greeted := by
  refine Machine.Reaches.invariant_of (J := fun s => Renewals s.toCore)
    (I := fun s => (s.conn k).Greeted) (fun s hs => renewals_of_reaches hs) ?_ ?_ h
  · rintro s ⟨t, rfl⟩
    exact Conn.greeted_unheld rfl rfl rfl
  · intro s l t hR hI hl hs
    exact ((Sys.coreStep hs).conn k).greeted (hR.fits k) hl hI

/-! ### Runs -/

/-- **Announcements.** In every run in which the `join` of a connection takes up a session of
the room in force, its welcomes and resets are sent, and no rollover of it ends while its
`join` waits for the history: whenever no handler is in progress, the last welcome or reset
names the session it holds, its resume token and its room; and the session, the token and the
history of every welcome are of the room that the welcome names. -/
theorem announced_of_reaches {env : Env} {k : ConnKey} {s : Sys}
    (h : (system env).Reaches (fun s l => s.announcesRight k l = true) s) :
    ((s.conn k).handler = none → (s.conn k).Named) ∧
    ∀ r token room history, .welcome r token room history ∈ (s.conn k).announced →
      r.roomId = room.roomId ∧ s.world.Links token r.sid ∧
        ∀ m ∈ history, s.world.Posted room.roomId m := by
  have hG := greeted_of_reaches h
  refine ⟨fun hh => hG.named (by rw [hh]; rfl), fun r token room history hm => ?_⟩
  obtain ⟨hlink, hposted⟩ := (sourced_of_reaches h).told k _ hm
  exact ⟨hG.welcomes r token room history hm, hlink, hposted⟩

/-- The last frame names another session than the one held. -/
def Conn.misnamed (x : Conn) : Bool :=
  match x.record, x.announced.getLast? with
  | some r, some (.welcome r' _ _ _) => r' ≠ r
  | some r, some (.reset r' _ _) => r' ≠ r
  | _, _ => false

theorem Conn.not_named_of_misnamed {x : Conn} (h : x.misnamed = true) : ¬ x.Named := by
  intro hn
  unfold misnamed at h
  unfold Named at hn
  split at h
  · rename_i r r' _ _ _ hr ha
    rw [hr] at hn
    obtain ⟨a, ha', hnames⟩ := hn
    rw [ha] at ha'
    cases ha'
    exact of_decide_eq_true h hnames.1
  · rename_i r r' _ _ hr ha
    rw [hr] at hn
    obtain ⟨a, ha', hnames⟩ := hn
    rw [ha] at ha'
    cases ha'
    exact of_decide_eq_true h hnames.1
  · cases h

/-- A quiet connection: neither a handler nor a rollover of it is in progress. -/
def Conn.quiet (x : Conn) : Bool := decide (x.handler = none) && decide (x.rolling = none)

theorem Conn.quiet_spec {x : Conn} (h : x.quiet = true) : x.handler = none ∧ x.rolling = none := by
  simpa [quiet] using h

/-- A run of the theorem: a client is welcomed at noon and told its new session at midnight. -/
theorem announced_oneJoined : ∃ s,
    (system (Demo.env none)).Reaches (fun s l => s.announcesRight (Demo.conn 1) l = true) s ∧
      (s.conn (Demo.conn 1)).announced.length = 2 ∧ (s.conn (Demo.conn 1)).Named := by
  obtain ⟨s, hs, hP⟩ := exists_reached (Demo.env none) (Sys.announcesRight (Demo.conn 1))
    (fun s => (s.conn (Demo.conn 1)).quiet &&
      decide ((s.conn (Demo.conn 1)).announced.length = 2)) Demo.noon
    (Demo.oneJoined ++ switchesRoom ++ cleansUp ++ renews (Demo.conn 1)) (by decide +kernel)
  obtain ⟨hq, htwo⟩ := Bool.and_eq_true_iff.mp hP
  exact ⟨s, hs, of_decide_eq_true htwo, (announced_of_reaches hs).1 (Conn.quiet_spec hq).1⟩

/-- Midnight passes while a `join` waits for the history; the connection is renewed before the
history is read. -/
def welcomesLate : List Label :=
  [.start 0] ++ Demo.request 0 "a" ++ Demo.handshake 0 ++ Demo.joinChecked (Demo.conn 1)
    ++ [.resume (.handler (Demo.conn 1))] ++ switchesRoom ++ cleansUp ++ renews (Demo.conn 1)
    ++ Demo.turns (Demo.conn 1) 1

/-- A welcome names a session of another room than its own. -/
def Announcement.mixed : Announcement → Bool
  | .welcome r _ room _ => r.roomId ≠ room.roomId
  | .reset _ _ _ => false

/-- Without the condition the last frame is a welcome with the session of yesterday, sent after
the reset; and a `join` across midnight is welcomed with a session of yesterday and the room of
today. -/
theorem announced_stale :
    (∃ s, (system (Demo.env none)).Reaches Free s ∧ (s.conn (Demo.conn 1)).handler = none ∧
      (s.conn (Demo.conn 1)).rolling = none ∧ ¬ (s.conn (Demo.conn 1)).Named) ∧
    ∃ s, (system (Demo.env none)).Reaches Free s ∧ ∃ r token room history,
      .welcome r token room history ∈ (s.conn (Demo.conn 1)).announced ∧
        r.roomId ≠ room.roomId := by
  constructor
  · obtain ⟨s, hs, hP⟩ := exists_reached_free (Demo.env none)
      (fun s => (s.conn (Demo.conn 1)).quiet && (s.conn (Demo.conn 1)).misnamed) Demo.noon
      welcomesLate (by decide +kernel)
    obtain ⟨hq, hmis⟩ := Bool.and_eq_true_iff.mp hP
    obtain ⟨hh, hr⟩ := Conn.quiet_spec hq
    exact ⟨s, hs, hh, hr, Conn.not_named_of_misnamed hmis⟩
  · obtain ⟨s, hs, hP⟩ := exists_reached_free (Demo.env none)
      (fun s => (s.conn (Demo.conn 1)).announced.any Announcement.mixed) Demo.noon joinsLate
      (by decide +kernel)
    obtain ⟨a, ha, hmix⟩ := List.any_eq_true.mp hP
    cases a with
    | reset => cases hmix
    | welcome r token room history =>
        exact ⟨s, hs, r, token, room, history, ha, of_decide_eq_true hmix⟩

end RoomBackend
