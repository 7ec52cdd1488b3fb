import RoomBackend.Seats
import RoomBackend.Sockets

/-! # Coalesced fan-out

Plain fan-out would send every bus event of the room to every connection at once, except to its
own sender. The server collects events in its outbox and flushes it later, as one frame for each
connection. Over any stretch in which a connection attends the room, what it was sent live and
what the outbox still owes it is what plain fan-out would have sent, in order. -/

namespace RoomBackend

open Async Day Lts

/-! ### Frames of a flush -/

/-- An event is for connection `k`: it is of the room, and not its own. -/
def BusMessage.isFor (roomId : String) (k : ConnKey) (m : BusMessage) : Bool :=
  decide (m.roomId = roomId) && decide (m.exclude ≠ some k)

theorem encode_live (ms : List ChatMessage) : (encode ms).live = ms := by
  unfold encode
  split <;> rfl

/-- The frame of a flush delivers the messages of the batch that are not the receiver's own. -/
theorem flushFrame_live (batch : List BusMessage) (k : ConnKey) :
    ((flushFrame batch k).map ServerEvent.live).getD [] =
      (batch.filter fun m => decide (m.exclude ≠ some k)).map BusMessage.message := by
  unfold flushFrame
  split
  · dsimp only
    split
    · rename_i hrest
      exact hrest.symm
    · exact encode_live _
  · rename_i hany
    have hall : ∀ m ∈ batch, decide (m.exclude ≠ some k) = true := by
      intro m hm
      refine decide_eq_true fun he => hany ?_
      exact List.any_eq_true.mpr ⟨m, hm, decide_eq_true he⟩
    rw [List.filter_eq_self.mpr hall]
    exact encode_live _

/-- A batch makes no empty frame. -/
theorem flushFrame_ne_empty {batch : List BusMessage} (hb : batch ≠ []) (k : ConnKey) :
    flushFrame batch k ≠ some (.messages []) := by
  have hne : ∀ ms : List ChatMessage, ms ≠ [] → encode ms ≠ .messages [] := by
    intro ms hms he
    have hl := encode_live ms
    rw [he] at hl
    exact hms hl.symm
  unfold flushFrame
  split
  · dsimp only
    split
    · intro h
      cases h
    · rename_i hrest
      exact fun h => hne _ hrest (Option.some.inj h)
  · exact fun h => hne _ (by simpa using hb) (Option.some.inj h)

namespace Sys

variable {env : Env} {s t u : Sys} {l : Label}

/-! ### What a flush does -/

/-- A loop over distinct connections in which each turn changes the side of its own connection
alone. -/
theorem forConns_side {i : InstanceId} {f : ConnKey → Sys → Sys} {g : ConnKey → Core → Side → Side}
    (hcore : ∀ k u, (f k u).toCore = u.toCore)
    (hside : ∀ k u, (f k u).side = Function.update u.side k (g k u.toCore (u.side k))) (n : ℕ) :
    ∀ (ns : List ℕ) (s : Sys), ns.Nodup → (s.forConns i f ns).side ⟨i, n⟩ =
      if n ∈ ns then g ⟨i, n⟩ s.toCore (s.side ⟨i, n⟩) else s.side ⟨i, n⟩
  | [], s, _ => by simp [forConns]
  | m :: ns, s, hnd => by
      obtain ⟨hm, hns⟩ := List.nodup_cons.mp hnd
      have ih := forConns_side (i := i) hcore hside n ns (f ⟨i, m⟩ s) hns
      rw [show s.forConns i f (m :: ns) = (f ⟨i, m⟩ s).forConns i f ns from rfl, ih, hcore, hside]
      by_cases hn : n = m
      · subst hn
        rw [if_neg hm, if_pos (List.mem_cons_self ..), Function.update_self]
      · have hk : (⟨i, n⟩ : ConnKey) ≠ ⟨i, m⟩ := fun he => hn (congrArg ConnKey.seq he)
        rw [Function.update_of_ne hk]
        simp [hn]

/-- What a flush does to the side of a connection that is listed. -/
def fanSide (batch : List BusMessage) (i : InstanceId) (k : ConnKey) (c : Core) (d : Side) :
    Side :=
  if c.receives i k then
    match flushFrame batch k with
    | none => d
    | some e => { d with socket := d.socket.sendRaw e }
  else d

theorem flush_side {k : ConnKey} (hn : ((s.srv k.inst).conns).Nodup)
    (hk : k.seq ∈ (s.srv k.inst).conns) (hb : s.batch k.inst ≠ []) :
    (s.flushOutbox k.inst).side k = fanSide (s.batch k.inst) k.inst k s.toCore (s.side k) := by
  have hloop := forConns_side (i := k.inst)
    (f := fun j u =>
      if u.receives k.inst j then
        match flushFrame (s.batch k.inst) j with
        | none => u
        | some e => u.send j e
      else u)
    (g := fanSide (s.batch k.inst) k.inst) ?_ ?_ k.seq (s.srv k.inst).conns
    (s.onCore (·.flushOutbox k.inst)) hn
  · unfold flushOutbox
    dsimp only
    rw [if_neg hb]
    have hconns : (((s.onCore (·.flushOutbox k.inst))).srv k.inst).conns =
        (s.srv k.inst).conns := by
      unfold onCore Core.flushOutbox Core.updSrv
      dsimp only
      rw [Function.update_self]
    rw [hconns]
    refine hloop.trans ?_
    rw [if_pos hk]
    unfold fanSide
    rw [show (s.onCore (·.flushOutbox k.inst)).toCore.receives k.inst k = s.receives k.inst k from
      s.toCore.receives_flushOutbox k.inst k]
    rfl
  · intro j u
    split
    · split <;> rfl
    · rfl
  · intro j u
    unfold fanSide
    split
    · split
      · exact (Function.update_eq_self _ _).symm
      · rfl
    · exact (Function.update_eq_self _ _).symm

/-! ### What is owed -/

/-- The messages of the outbox that a flush would send to connection `k`. -/
def owed (s : Sys) (k : ConnKey) : List ChatMessage :=
  ((s.srv k.inst).outbox.filter (BusMessage.isFor (s.srv k.inst).room.roomId k)).map
    BusMessage.message

/-- The bus events a step hands to the server of instance `i`. -/
def arrivals (s : Sys) (i : InstanceId) : Label → List BusMessage
  | .deliver n =>
      match s.world.inFlight[n]? with
      | some (j, .message m) => if j = i then [m] else []
      | _ => []
  | _ => []

/-- The connection is joined in the room of its server, and its socket takes frames. -/
def Attends (s : Sys) (k : ConnKey) : Prop := s.receives k.inst k = true ∧ s.up k = true

instance (s : Sys) (k : ConnKey) : Decidable (s.Attends k) :=
  inferInstanceAs (Decidable (_ ∧ _))

/-- The connections that are listed as open are those whose socket may be open. -/
def Manned (s : Sys) : Prop := ∀ k, (s.conn k).closed = true → ¬ s.Opened k

theorem closeEvent_not_opened (s : Sys) (k : ConnKey) : ¬ (s.closeEvent env k).Opened k := by
  intro ho
  have hT : Talks (fun _ _ => True) (fun _ _ _ => True)
      (s.updSocket k fun x => { x with state := .closed }) (s.closeEvent env k) :=
    (Talks.refl (fun _ _ _ => trivial) _).quiet Quiet.refl.onClose
  have h := hT.shrinks k ho
  unfold Opened updSocket updSide at h
  dsimp only at h
  rw [Function.update_self] at h
  cases h

theorem Manned.step (hI : s.Manned) (hs : s.Polite) (h : s.step env l = some t) : t.Manned := by
  intro k hcl ho
  rcases step_sides hs h k with hm | ⟨n, u, -, -, hc, -⟩
  · have hc := (coreStep h).conn k
    generalize hx : t.conn k = x at hc hcl
    cases hc with
    | act hl hh ha =>
        have hk := ha.kept.closed
        exact hI k (hk.symm.trans hcl) (hm.opened ho)
    | handle hl hacc hh ha =>
        have hk := ha.kept.closed
        rw [Core.take_conn] at hk
        exact hI k (hk.symm.trans hcl) (hm.opened ho)
    | accepted => cases hcl
    | shut hl hc =>
        subst hl
        have ht := (Option.ite_none_left_eq_some.mp h).2
        cases ht
        exact closeEvent_not_opened s k ho
    | _ => exact hI k hcl (hm.opened ho)
  · rw [hc] at hcl
    cases hcl

theorem manned_of_reaches {C : Sys → Label → Prop} (h : (system env).Reaches C s) : s.Manned := by
  refine h.invariant_of (J := Polite) (I := Manned) (fun _ => polite_of_reaches) ?_
    fun _ _ _ hs hI _ he => hI.step hs he
  rintro s ⟨t, rfl⟩ k - ho
  cases ho

/-- A connection with an open socket is listed. -/
theorem listed_of_opened {k : ConnKey} (hS : Seats s.toCore) (hM : s.Manned) (ho : s.Opened k) :
    k.seq ∈ (s.srv k.inst).conns := by
  refine (hS.members k.inst k.seq).mpr ?_
  by_contra hc
  exact hM k (by simpa using hc) ho

/-! ### One step -/

/-- A flush owes each connection the messages of its batch. -/
theorem owed_eq (s : Sys) (k : ConnKey) : s.owed k =
    ((s.batch k.inst).filter fun m => decide (m.exclude ≠ some k)).map BusMessage.message := by
  unfold owed Core.batch
  rw [List.filter_filter]
  congr 1
  refine List.filter_congr fun m _ => ?_
  unfold BusMessage.isFor
  rw [Bool.and_comm]

/-- A server's outbox grows by an arriving event of its room and is emptied by a flush. -/
theorem outbox_kept {c : Core} {i : InstanceId} {v : Srv}
    (h : SrvStep env c l i v) (hl : l ≠ .flush i)
    (hn : ∀ n m, l = .deliver n → c.world.inFlight[n]? ≠ some (i, .message m)) :
    v.outbox = (c.srv i).outbox ∧ v.flushScheduled = (c.srv i).flushScheduled := by
  cases h with
  | close hl' hc hi =>
      subst hi
      unfold Core.onClosed
      rw [Core.updSrv_srv]
      split <;> exact ⟨rfl, rfl⟩
  | message hl' hn' => exact absurd hn' (hn _ _ hl')
  | flush hl' => exact absurd hl' hl
  | _ => exact ⟨rfl, rfl⟩

theorem onMessage_outbox (c : Core) (i j : InstanceId) (m : BusMessage) :
    ((c.onMessage i m).srv j).room = (c.srv j).room ∧
    ((c.onMessage i m).srv j).outbox =
      if i = j ∧ m.roomId = (c.srv j).room.roomId then (c.srv j).outbox ++ [m]
      else (c.srv j).outbox := by
  unfold Core.onMessage
  split
  · rename_i hm
    refine ⟨rfl, ?_⟩
    rw [if_neg]
    · rfl
    · rintro ⟨rfl, h⟩
      exact hm h
  · rename_i hm
    by_cases hj : j = i
    · subst hj
      rw [Core.updSrv_srv, if_pos ⟨rfl, not_not.mp hm⟩]
      exact ⟨rfl, rfl⟩
    · rw [Core.updSrv_srv_ne c hj, if_neg fun h => hj h.1.symm]
      exact ⟨rfl, rfl⟩

/-- What a step other than a flush makes of what is owed. -/
theorem owed_step (h : s.step env l = some t) {k : ConnKey} (hl : l ≠ .flush k.inst)
    (hroom : (t.srv k.inst).room = (s.srv k.inst).room) :
    t.owed k = s.owed k ++ ((s.arrivals k.inst l).filter
      (BusMessage.isFor (s.srv k.inst).room.roomId k)).map BusMessage.message := by
  have hsrv := (coreStep h).srv k.inst
  -- a step that hands the server no message of the room
  have quiet : (∀ n m, l = .deliver n →
      s.world.inFlight[n]? ≠ some (k.inst, BusEvent.message m)) → s.arrivals k.inst l = [] →
      t.owed k = s.owed k ++ ((s.arrivals k.inst l).filter
        (BusMessage.isFor (s.srv k.inst).room.roomId k)).map BusMessage.message := by
    intro hn harr
    rw [harr]
    unfold owed
    rw [hroom, (outbox_kept hsrv hl hn).1]
    simp
  by_cases hd : ∃ n j m, l = .deliver n ∧ s.world.inFlight[n]? = some (j, BusEvent.message m)
  · obtain ⟨n, j, m, rfl, hn⟩ := hd
    obtain ⟨e, he, rfl⟩ := Option.map_eq_some_iff.mp h
    obtain rfl : e = (j, .message m) := Option.some.inj (he.symm.trans hn)
    obtain ⟨hr, hout⟩ := onMessage_outbox (s.toCore.receive n) j k.inst m
    have harr : s.arrivals k.inst (.deliver n) = if j = k.inst then [m] else [] := by
      simp only [arrivals, hn]
    have hout' : ((((s.onCore fun c => { c with world := { c.world with
        inFlight := c.world.inFlight.eraseIdx n } }).onBus j (.message m)).srv k.inst).outbox) =
        if j = k.inst ∧ m.roomId = (s.srv k.inst).room.roomId then (s.srv k.inst).outbox ++ [m]
        else (s.srv k.inst).outbox := hout
    rw [harr]
    unfold owed
    rw [hroom, hout']
    by_cases hj : j = k.inst
    · by_cases hm : m.roomId = (s.srv k.inst).room.roomId
      · rw [if_pos ⟨hj, hm⟩, if_pos hj]
        simp
      · rw [if_neg fun h => hm h.2, if_pos hj]
        simp [BusMessage.isFor, hm]
    · rw [if_neg fun h => hj h.1, if_neg hj]
      simp
  · refine quiet (fun n m hl' hn => hd ⟨n, _, m, hl', hn⟩) ?_
    cases l with
    | deliver n =>
        cases hn : s.world.inFlight[n]? with
        | none => simp only [arrivals, hn]
        | some e =>
            obtain ⟨j, e⟩ := e
            cases e with
            | message m => exact absurd ⟨n, j, m, rfl, hn⟩ hd
            | kick => simp only [arrivals, hn]
    | _ => rfl

/-- A step other than a flush sends no message live. -/
theorem lives_step (hP : s.Polite) (h : s.step env l = some t) {k : ConnKey}
    (hl : l ≠ .flush k.inst) :
    (t.side k).lives = (s.side k).lives ∨ (t.conn k).joined = false := by
  rcases step_sides hP h k with hm | ⟨n, u, -, -, hc, -⟩
  · refine Or.inl (hm.lives fun e he => ?_)
    cases he with
    | own he => exact ServerEvent.live_of_private he
    | welcome hl' hh hq he =>
        subst he
        rfl
    | reset hl' hp he =>
        subst he
        rfl
    | presence hl' hj he =>
        subst he
        rfl
    | flush hl' => exact absurd hl' hl
  · rw [hc]
    exact Or.inr rfl

theorem sendRaw_of_up {d : Side} {e : ServerEvent} (h : d.socket.sends = true) :
    ({ d with socket := d.socket.sendRaw e } : Side).lives = d.lives ++ e.live := by
  obtain ⟨ho, hs⟩ : d.socket.state = .opened ∧ d.socket.slow = false := by
    simpa [Socket.sends] using h
  simp [Side.lives, Socket.sendRaw, ho, hs]

/-- A flush sends an attending connection what it is owed. -/
theorem lives_flush (hS : Seats s.toCore) (hM : s.Manned) {k : ConnKey}
    (h : s.step env (.flush k.inst) = some t) (hA : s.Attends k) :
    (t.side k).lives = (s.side k).lives ++ s.owed k ∧ t.owed k = [] := by
  obtain ⟨hr, hup⟩ := hA
  have ho : s.Opened k := by
    simp only [up, Socket.sends, Bool.and_eq_true, decide_eq_true_eq] at hup
    exact hup.1
  have ht := (Option.ite_none_right_eq_some.mp h).2
  obtain rfl := Option.some.inj ht
  constructor
  · rw [owed_eq, ← flushFrame_live]
    by_cases hb : s.batch k.inst = []
    · have hside : (s.flushOutbox k.inst).side k = s.side k := by
        unfold flushOutbox
        dsimp only
        rw [if_pos hb]
        rfl
      rw [hside, flushFrame_live, hb]
      simp
    · rw [flush_side (hS.nodup _) (listed_of_opened hS hM ho) hb, fanSide,
        if_pos (show s.toCore.receives k.inst k = true from hr)]
      cases hf : flushFrame (s.batch k.inst) k with
      | none => simp
      | some e => exact sendRaw_of_up hup
  · have hout : ((s.flushOutbox k.inst).srv k.inst).outbox = [] := by
      have hcore := s.toCore_flushOutbox k.inst
      rw [show (s.flushOutbox k.inst).srv = (s.flushOutbox k.inst).toCore.srv from rfl, hcore]
      unfold Core.flushOutbox Core.updSrv
      dsimp only
      rw [Function.update_self]
    unfold owed
    rw [hout]
    rfl

/-- What an attending connection was sent and is owed grows by the events that are for it. -/
theorem fanout_step (hP : s.Polite) (hS : Seats s.toCore) (hM : s.Manned)
    (h : s.step env l = some t) {k : ConnKey} (hs : s.Attends k) (ht : t.Attends k)
    (hroom : (t.srv k.inst).room = (s.srv k.inst).room) :
    (t.side k).lives ++ t.owed k = (s.side k).lives ++ s.owed k ++
      ((s.arrivals k.inst l).filter
        (BusMessage.isFor (s.srv k.inst).room.roomId k)).map BusMessage.message := by
  by_cases hl : l = .flush k.inst
  · subst hl
    obtain ⟨hlv, how⟩ := lives_flush hS hM h hs
    rw [hlv, how]
    simp [arrivals]
  · rcases lives_step hP h hl with hlv | hj
    · rw [hlv, owed_step h hl hroom, List.append_assoc]
    · have hr := ht.1
      unfold Core.receives at hr
      rw [hj] at hr
      cases hr

/-! ### Stretches of a run -/

/-- A stretch of a run in which the server of instance `i` stays in its room and every listed
connection attends it; `ms` are the bus events the server was handed. -/
inductive Stretch (env : Env) (i : InstanceId) (ns : List ℕ) : Sys → List BusMessage → Sys → Prop
  | nil {s : Sys} (hs : ∀ n ∈ ns, s.Attends ⟨i, n⟩) : Stretch env i ns s [] s
  | cons {s t u : Sys} {l : Label} {ms : List BusMessage} (hs : ∀ n ∈ ns, s.Attends ⟨i, n⟩)
      (h : s.step env l = some t) (hroom : (t.srv i).room = (s.srv i).room)
      (hu : Stretch env i ns t ms u) : Stretch env i ns s (s.arrivals i l ++ ms) u

theorem Stretch.attends {i : InstanceId} {ns : List ℕ} {ms : List BusMessage}
    (h : Stretch env i ns s ms u) : ∀ n ∈ ns, s.Attends ⟨i, n⟩ := by
  cases h with
  | nil hs => exact hs
  | cons hs => exact hs

theorem Stretch.fanout {i : InstanceId} {ns : List ℕ} {ms : List BusMessage}
    (h : Stretch env i ns s ms u) (hr : (system env).Reaches Free s) {n : ℕ} (hn : n ∈ ns) :
    (u.side ⟨i, n⟩).lives ++ u.owed ⟨i, n⟩ = (s.side ⟨i, n⟩).lives ++ s.owed ⟨i, n⟩ ++
      (ms.filter (BusMessage.isFor (s.srv i).room.roomId ⟨i, n⟩)).map BusMessage.message ∧
      (system env).Reaches Free u := by
  induction h with
  | nil => exact ⟨by simp, hr⟩
  | cons hs hstep hroom hu ih =>
      obtain ⟨ihe, hru⟩ := ih (hr.step trivial hstep)
      refine ⟨?_, hru⟩
      have hone := fanout_step (k := ⟨i, n⟩) (polite_of_reaches hr) (seats_of_reaches hr)
        (manned_of_reaches hr) hstep (hs n hn) (hu.attends n hn) hroom
      rw [ihe, hone, hroom]
      simp

/-- An outbox that is not empty is about to be flushed. -/
def Scheduled (s : Sys) : Prop :=
  ∀ i, (s.srv i).flushScheduled = false → (s.srv i).outbox = []

theorem scheduled_of_reaches {C : Sys → Label → Prop} (h : (system env).Reaches C s) :
    s.Scheduled := by
  refine h.invariant (I := Scheduled) ?_ ?_
  · rintro s ⟨t, rfl⟩ i -
    rfl
  · rintro s l t hI - hs i hf
    have hc := (coreStep hs).srv i
    generalize hv : t.srv i = v at hc hf
    cases hc with
    | @close k hl hcl hi =>
        subst hi
        have hclose : SrvStep env s.toCore l k.inst (((s.toCore.shut k).onClosed k).srv k.inst) :=
          .close hl hcl rfl
        have hkeep : (((s.toCore.shut k).onClosed k).srv k.inst).outbox =
              (s.srv k.inst).outbox ∧
            (((s.toCore.shut k).onClosed k).srv k.inst).flushScheduled =
              (s.srv k.inst).flushScheduled :=
          outbox_kept hclose (fun h => by cases hl.symm.trans h)
            fun n m h => by cases hl.symm.trans h
        rw [hkeep.2] at hf
        rw [hkeep.1]
        exact hI _ hf
    | message => cases hf
    | flush => rfl
    | _ => exact hI i hf

/-- No frame is empty. -/
def Filled (s : Sys) : Prop := ∀ k, ∀ e ∈ (s.side k).socket.sent, e ≠ .messages []

theorem filled_of_reaches {C : Sys → Label → Prop} (h : (system env).Reaches C s) : s.Filled := by
  refine h.invariant_of (J := Polite) (I := Filled) (fun _ => polite_of_reaches) ?_ ?_
  · rintro s ⟨t, rfl⟩ k e he
    cases he
  · rintro s l t hP hI - hs k e he
    rcases step_sides hP hs k with hm | ⟨n, u, -, -, -, hm⟩
    · obtain ⟨es, hes, hH⟩ := hm.sent
      rw [hes] at he
      rcases List.mem_append.mp he with he | he
      · exact hI k e he
      · rintro rfl
        cases hH _ he with
        | own h => cases h
        | welcome hl hh hq h => cases h
        | reset hl hp h => cases h
        | presence hl hj h => cases h
        | flush hl hb hr h => exact flushFrame_ne_empty hb k h
    · obtain ⟨es, hes, hH⟩ := hm.sent
      rw [hes] at he
      rintro rfl
      rcases List.mem_append.mp he with he | he
      · cases he
      · cases hH _ he

end Sys

/-- **Fan-out**: over a stretch in which a connection attends its room, what it was sent live and
is still owed grows by exactly the bus events of the room that are not its own, in the order
they arrived; nothing is owed unless a flush is pending, a flush leaves nothing owed, and no
frame is empty. So two such connections of a server, owed nothing at either end, are sent the
events that are for both in one order. -/
theorem fanout_of_reaches {env : Env} {s u : Sys} {i : InstanceId} {ns : List ℕ}
    {ms : List BusMessage} (h : (system env).Reaches Free s) (hst : Sys.Stretch env i ns s ms u) :
    (∀ n ∈ ns, (u.side ⟨i, n⟩).lives ++ u.owed ⟨i, n⟩ = (s.side ⟨i, n⟩).lives ++ s.owed ⟨i, n⟩ ++
      (ms.filter (BusMessage.isFor (s.srv i).room.roomId ⟨i, n⟩)).map BusMessage.message) ∧
    ((u.srv i).flushScheduled = false → (u.srv i).outbox = []) ∧
    (∀ t, u.step env (.flush i) = some t → ∀ n ∈ ns,
      (t.side ⟨i, n⟩).lives = (u.side ⟨i, n⟩).lives ++ u.owed ⟨i, n⟩ ∧ t.owed ⟨i, n⟩ = []) ∧
    (∀ n, ∀ e ∈ (u.side ⟨i, n⟩).socket.sent, e ≠ .messages []) ∧
    (∀ n ∈ ns, ∀ n' ∈ ns, s.owed ⟨i, n⟩ = [] → s.owed ⟨i, n'⟩ = [] → u.owed ⟨i, n⟩ = [] →
      u.owed ⟨i, n'⟩ = [] →
        (u.side ⟨i, n⟩).lives = (s.side ⟨i, n⟩).lives ++
          (ms.filter (BusMessage.isFor (s.srv i).room.roomId ⟨i, n⟩)).map BusMessage.message ∧
        (u.side ⟨i, n'⟩).lives = (s.side ⟨i, n'⟩).lives ++
          (ms.filter (BusMessage.isFor (s.srv i).room.roomId ⟨i, n'⟩)).map BusMessage.message ∧
        (ms.filter (BusMessage.isFor (s.srv i).room.roomId ⟨i, n⟩)).filter
            (BusMessage.isFor (s.srv i).room.roomId ⟨i, n'⟩) =
          (ms.filter (BusMessage.isFor (s.srv i).room.roomId ⟨i, n'⟩)).filter
            (BusMessage.isFor (s.srv i).room.roomId ⟨i, n⟩)) := by
  have main : ∀ n ∈ ns, (u.side ⟨i, n⟩).lives ++ u.owed ⟨i, n⟩ =
      (s.side ⟨i, n⟩).lives ++ s.owed ⟨i, n⟩ ++
        (ms.filter (BusMessage.isFor (s.srv i).room.roomId ⟨i, n⟩)).map BusMessage.message :=
    fun n hn => (hst.fanout h hn).1
  have hend : ∀ n ∈ ns, (system env).Reaches Free u := fun n hn => (hst.fanout h hn).2
  have hu : (system env).Reaches Free u := by
    clear main hend
    induction hst with
    | nil => exact h
    | cons hs hstep hroom hu ih => exact ih (h.step trivial hstep)
  have hatt : ∀ n ∈ ns, u.Attends ⟨i, n⟩ := by
    clear main hend hu h
    induction hst with
    | nil hs => exact hs
    | cons hs hstep hroom hu ih => exact ih
  refine ⟨main, Sys.scheduled_of_reaches hu i, ?_, fun n => Sys.filled_of_reaches hu ⟨i, n⟩, ?_⟩
  · intro t ht n hn
    exact Sys.lives_flush (k := ⟨i, n⟩) (seats_of_reaches hu) (Sys.manned_of_reaches hu) ht
      (hatt n hn)
  · intro n hn n' hn' h₁ h₁' h₂ h₂'
    have hm := main n hn
    have hm' := main n' hn'
    rw [h₁, h₂, List.append_nil, List.append_nil] at hm
    rw [h₁', h₂', List.append_nil, List.append_nil] at hm'
    refine ⟨hm, hm', ?_⟩
    rw [List.filter_filter, List.filter_filter]
    exact List.filter_congr fun m _ => Bool.and_comm _ _

namespace Demo

/-- Two joined connections of a server, and a message of the first on its way to the second. -/
def twoAttending : List Label :=
  oneJoined ++ request 1 "b" ++ handshake 1 ++ joined (conn 2) ++ sent (conn 1) "hello"

/-- Both attend, in the given room. -/
def attended (room : DailyRoom) (s : Sys) : Bool :=
  decide ((s.srv 0).room = room) && decide (∀ n ∈ ([1, 2] : List ℕ), s.Attends ⟨0, n⟩)

/-- The message is delivered to the server, and flushed. -/
def fansOut (s : Sys) : Bool :=
  attended (s.srv 0).room s && (s.step (env none) (.deliver 0)).any fun t : Sys =>
    attended (s.srv 0).room t && (t.step (env none) (.flush 0)).any fun u : Sys =>
      attended (s.srv 0).room u &&
        (decide ((u.side (conn 2)).lives.map ChatMessage.text = ["hello"]) &&
          decide (((s.arrivals 0 (.deliver 0) ++ (t.arrivals 0 (.flush 0) ++ [])).filter
            (BusMessage.isFor (s.srv 0).room.roomId (conn 2))) = s.arrivals 0 (.deliver 0)))

end Demo

/-- The message arrives and is flushed: the second connection is sent it. -/
theorem fanout_hello : ∃ s u : Sys, (system (Demo.env none)).Reaches Free s ∧
    (u.side (Demo.conn 2)).lives.map ChatMessage.text = ["hello"] ∧
    (u.side (Demo.conn 2)).lives ++ u.owed (Demo.conn 2) = (s.side (Demo.conn 2)).lives ++
      s.owed (Demo.conn 2) ++ (s.arrivals 0 (.deliver 0)).map BusMessage.message := by
  obtain ⟨s, hs, hP⟩ := exists_reached_free (Demo.env none) Demo.fansOut Demo.noon
    Demo.twoAttending (by decide +kernel)
  simp only [Demo.fansOut, Demo.attended, Bool.and_eq_true, Option.any_eq_true,
    decide_eq_true_eq] at hP
  obtain ⟨⟨-, hs'⟩, t, ht, ⟨hrt, ht'⟩, u, hu, ⟨hru, hu'⟩, htext, harr⟩ := hP
  have hst : Sys.Stretch (Demo.env none) 0 [1, 2] s _ u :=
    .cons hs' ht hrt (.cons ht' hu (hru.trans hrt.symm) (.nil hu'))
  have hmain := (fanout_of_reaches hs hst).1 2 (by decide)
  have harr' := congrArg (List.map BusMessage.message) harr
  exact ⟨s, u, hs, htext, hmain.trans (congrArg (_ ++ ·) harr')⟩

end RoomBackend
