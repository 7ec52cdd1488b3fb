import RoomBackend.Authorship

/-! # One order for everyone

Messages come to the sockets of an instance through its outbox: a flush sends the batch to every
connection of the room, in the order of the outbox. So whatever the bus does, what the connections
of an instance are sent live are parts of one sequence (`ordered_of_reaches`). If the bus delivers
to each instance in the order of publication, they are parts of the sequence that was published, on
every instance (`ordered_in_turn`). -/

namespace RoomBackend

open Async Day Lts

/-! ### The way of a message -/

/-- The message that is published. -/
def Obs.publishes : Obs → Option BusMessage
  | .published _ _ _ m _ => some m
  | _ => none

/-- The messages that instance `i` hands to its connections. -/
def Obs.flushes (i : InstanceId) : Obs → List BusMessage
  | .flushed j batch => if j = i then batch else []
  | _ => []

/-- The messages published so far, in order. -/
def World.publications (w : World) : List BusMessage := w.journal.filterMap Obs.publishes

/-- The messages instance `i` has flushed so far, in order. -/
def World.flushes (w : World) (i : InstanceId) : List BusMessage := w.journal.flatMap (Obs.flushes i)

/-- The message of an event for instance `i`. -/
def messageTo (i : InstanceId) (x : InstanceId × BusEvent) : Option BusMessage :=
  match x.2 with
  | .message m => if x.1 = i then some m else none
  | .kick _ _ _ => none

theorem messageTo_message (i j : InstanceId) (m : BusMessage) :
    messageTo i (j, .message m) = if j = i then some m else none := rfl

/-- The messages that were flushed, then those in the outbox, then those in flight. -/
def Core.way (c : Core) (i : InstanceId) : List BusMessage :=
  c.world.flushes i ++ ((c.srv i).outbox ++ c.world.inFlight.filterMap (messageTo i))

/-- An event is delivered in turn: no earlier one for its instance is still in flight. -/
def Sys.inTurn (s : Sys) (l : Label) : Bool :=
  match l with
  | .deliver n => s.world.inFlight[n]?.all fun x =>
      (s.world.inFlight.take n).all fun y => decide (y.1 ≠ x.1)
  | _ => true

/-! ### The journal -/

/-- The entry says nothing of messages on their way. -/
def Obs.Aside (o : Obs) : Prop := o.publishes = none ∧ ∀ i, o.flushes i = []

theorem Obs.Aside.forall_mem {o : Obs} (ho : o.Aside) : ∀ o' ∈ [o], o'.Aside :=
  List.forall_mem_singleton.mpr ho

theorem World.note_aside {w : World} {log : List Obs} (h : ∀ o ∈ log, o.Aside) :
    (w.note log).publications = w.publications ∧ ∀ i, (w.note log).flushes i = w.flushes i := by
  unfold publications flushes note
  refine ⟨?_, fun i => ?_⟩
  · rw [List.filterMap_append, List.filterMap_eq_nil_iff.mpr fun o ho => (h o ho).1,
      List.append_nil]
  · rw [List.flatMap_append, List.flatMap_eq_nil_iff.mpr fun o ho => (h o ho).2 i, List.append_nil]

theorem ActLog.aside {k : ConnKey} {up : Bool} {c : Core} {h : Option Handler} {log : List Obs}
    (hl : ActLog k up c h log) : ∀ o ∈ log, o.Aside := by
  intro o ho
  cases hl with
  | none => cases ho
  | limited hh hj hr =>
      simp only [List.mem_cons, List.not_mem_nil, or_false] at ho
      obtain rfl | rfl := ho <;> exact ⟨rfl, fun i => rfl⟩
  | _ => exact Obs.Aside.forall_mem ⟨rfl, fun i => rfl⟩ o ho

/-! ### Taking an element out -/

section eraseIdx

variable {α β : Type*} {f : α → Option β} {xs : List α} {n : ℕ} {x : α} {y : β}

theorem perm_filterMap_eraseIdx (hn : xs[n]? = some x) (hy : f x = some y) :
    (xs.filterMap f).Perm (y :: (xs.eraseIdx n).filterMap f) := by
  obtain ⟨hlt, rfl⟩ := List.getElem?_eq_some_iff.mp hn
  have hp := (List.getElem_cons_eraseIdx_perm hlt).filterMap f
  rw [List.filterMap_cons_some hy] at hp
  exact hp.symm

/-- The first element that `f` keeps is taken out. -/
theorem filterMap_eraseIdx_of_first (hn : xs[n]? = some x) (hy : f x = some y)
    (hfirst : ∀ z ∈ xs.take n, f z = none) :
    xs.filterMap f = y :: (xs.eraseIdx n).filterMap f := by
  obtain ⟨hlt, rfl⟩ := List.getElem?_eq_some_iff.mp hn
  have hsplit : xs = xs.take n ++ xs[n] :: xs.drop (n + 1) := by simp
  have hnil : (xs.take n).filterMap f = [] := List.filterMap_eq_nil_iff.mpr hfirst
  rw [List.eraseIdx_eq_take_drop_succ, List.filterMap_append, hnil, List.nil_append]
  conv_lhs => rw [hsplit, List.filterMap_append, hnil, List.nil_append, List.filterMap_cons_some hy]

end eraseIdx

/-- An instance is told of an event once. -/
theorem filterMap_subscribers {subs : List InstanceId} (hn : subs.Nodup) (i : InstanceId)
    (m : BusMessage) :
    ((subs.map fun j => (j, BusEvent.message m)).filterMap (messageTo i)).Sublist [m] := by
  induction subs with
  | nil => exact List.nil_sublist _
  | cons j subs ih =>
      obtain ⟨hj, hn⟩ := List.nodup_cons.mp hn
      by_cases hi : j = i
      · subst hi
        have hnone : (subs.map fun i => (i, BusEvent.message m)).filterMap (messageTo j) = [] := by
          refine List.filterMap_eq_nil_iff.mpr fun x hx => ?_
          obtain ⟨i, hi, rfl⟩ := List.mem_map.mp hx
          rw [messageTo_message, if_neg]
          rintro rfl
          exact hj hi
        rw [List.map_cons, List.filterMap_cons, messageTo_message, if_pos rfl, hnone]
      · rw [List.map_cons, List.filterMap_cons, messageTo_message, if_neg hi]
        exact ih hn

/-! ### Steps -/

/-- A step takes messages along on their way to instance `i`, or publishes one. -/
inductive Sys.Conveys (s : Sys) (l : Label) (i : InstanceId) (t : Sys) : Prop
  | along (hp : t.world.publications = s.world.publications) (hw : (t.way i).Subperm (s.way i))
      (ht : s.inTurn l = true → (t.way i).Sublist (s.way i))
  | published {m : BusMessage} (hm : Publishes s.toCore l t.toCore m.message.id)
      (hp : t.world.publications = s.world.publications ++ [m])
      (hw : (t.way i).Sublist (s.way i ++ [m]))

section steps

variable {env : Env} {s t : Sys} {l : Label} {i : InstanceId}

theorem Sys.Conveys.of_sublist (hp : t.world.publications = s.world.publications)
    (hw : (t.way i).Sublist (s.way i)) : s.Conveys l i t :=
  .along hp hw.subperm fun _ => hw

/-- A flush writes the batch to the journal. -/
theorem Sys.flushes_flush (s : Sys) (i : InstanceId) :
    (s.flushOutbox i).world.publications = s.world.publications ∧
      (s.flushOutbox i).world.flushes i = s.world.flushes i ++ s.batch i := by
  have hdropped : ∀ o ∈ (s.stale i).map (fun m => Obs.dropped i m (s.srv i).room.roomId),
      o.Aside := by
    intro o ho
    obtain ⟨m, -, rfl⟩ := List.mem_map.mp ho
    exact ⟨rfl, fun i => rfl⟩
  obtain ⟨hpub, hflush⟩ := World.note_aside (w := s.world) hdropped
  have hw : (s.flushOutbox i).world = (s.world.note ((s.stale i).map
      fun m => Obs.dropped i m (s.srv i).room.roomId)).note [.flushed i (s.batch i)] := by
    rw [World.note_note]
    exact congrArg Core.world (s.toCore_flushOutbox i)
  constructor
  · rw [hw, World.publications, World.note, List.filterMap_append, ← World.publications, hpub]
    simp [Obs.publishes]
  · rw [hw, World.flushes, World.note, List.flatMap_append, ← World.flushes, hflush]
    simp [Obs.flushes]

/-- A flush takes the batch from the outbox to the connections. -/
theorem Sys.conveys_flush (h : s.step env (.flush i) = some t) : s.Conveys (.flush i) i t := by
  obtain rfl := Option.some.inj (Option.ite_none_right_eq_some.mp h).2
  obtain ⟨hpub, hnew⟩ := s.flushes_flush i
  have hout : ((s.flushOutbox i).srv i).outbox = [] := by
    rw [congrArg Core.srv (s.toCore_flushOutbox i), Core.flushOutbox]
    dsimp only
    rw [Core.updSrv_srv]
  have hflight : (s.flushOutbox i).world.inFlight = s.world.inFlight :=
    congrArg (fun c => c.world.inFlight) (s.toCore_flushOutbox i)
  refine .of_sublist hpub ?_
  unfold Core.way
  rw [hout, hnew, hflight, List.nil_append, List.append_assoc]
  exact (List.filter_sublist.append (List.Sublist.refl _)).append_left _

/-- A message that is delivered goes to the outbox, or is dropped. -/
theorem Sys.conveys_message {n : ℕ} {m : BusMessage} (h : s.step env (.deliver n) = some t)
    (hn : s.world.inFlight[n]? = some (i, .message m)) : s.Conveys (.deliver n) i t := by
  obtain ⟨e, he, rfl⟩ := Option.map_eq_some_iff.mp h
  obtain rfl : e = (i, .message m) := Option.some.inj (he.symm.trans hn)
  obtain ⟨-, hout⟩ := onMessage_outbox (s.toCore.receive n) i i m
  have hto : messageTo i (i, .message m) = some m := by rw [messageTo_message, if_pos rfl]
  have hw : ((s.toCore.receive n).onMessage i m).world.publications = s.world.publications ∧
      ((s.toCore.receive n).onMessage i m).world.flushes i = s.world.flushes i ∧
      ((s.toCore.receive n).onMessage i m).world.inFlight = s.world.inFlight.eraseIdx n := by
    unfold Core.onMessage
    split
    · have hdropped : (Obs.dropped i m ((s.toCore.receive n).srv i).room.roomId).Aside :=
        ⟨rfl, fun i => rfl⟩
      obtain ⟨hpub, hflush⟩ :=
        World.note_aside (w := (s.toCore.receive n).world) hdropped.forall_mem
      exact ⟨hpub, hflush i, rfl⟩
    · exact ⟨rfl, rfl, rfl⟩
  have hbox : ∀ ms, ((((s.toCore.receive n).onMessage i m).srv i).outbox ++ ms).Sublist
      ((s.srv i).outbox ++ m :: ms) := by
    intro ms
    rw [hout]
    split
    · rw [List.append_assoc]
      exact List.Sublist.refl _
    · exact (List.sublist_cons_self m ms).append_left _
  have hle : (Core.way ((s.toCore.receive n).onMessage i m) i).Sublist (s.world.flushes i ++
      ((s.srv i).outbox ++ m :: (s.world.inFlight.eraseIdx n).filterMap (messageTo i))) := by
    unfold Core.way
    rw [hw.2.1, hw.2.2]
    exact (hbox _).append_left _
  refine .along hw.1 (hle.subperm.trans (List.Perm.subperm ?_)) fun hin => ?_
  · exact ((perm_filterMap_eraseIdx hn hto).symm.append_left _).append_left _
  · unfold Sys.inTurn at hin
    dsimp only at hin
    rw [hn, Option.all_some] at hin
    have hfirst : ∀ z ∈ s.world.inFlight.take n, messageTo i z = none := by
      intro z hz
      have hne : z.1 ≠ i := of_decide_eq_true (List.all_eq_true.mp hin z hz)
      unfold messageTo
      split
      · exact if_neg hne
      · rfl
    have hs : s.way i = s.world.flushes i ++
        ((s.srv i).outbox ++ m :: (s.world.inFlight.eraseIdx n).filterMap (messageTo i)) := by
      rw [Core.way, filterMap_eraseIdx_of_first hn hto hfirst]
    rw [hs]
    exact hle

/-- No message is delivered to the instance, and it flushes none. -/
theorem Sys.conveys_other (hS : Subscribed s.toCore) (h : s.step env l = some t)
    (hl : l ≠ .flush i) (hn : ∀ n m, l = .deliver n → s.world.inFlight[n]? ≠ some (i, .message m)) :
    s.Conveys l i t := by
  have hc := Sys.coreStep h
  have hout := (outbox_kept (hc.srv i) hl hn).1
  have along : ∀ {w : World}, t.world = w → w.publications = s.world.publications →
      w.flushes i = s.world.flushes i →
      (w.inFlight.filterMap (messageTo i)).Sublist (s.world.inFlight.filterMap (messageTo i)) →
      s.Conveys l i t := by
    rintro w rfl hp hf hi
    refine .of_sublist hp ?_
    unfold Core.way
    rw [hf, hout]
    exact (hi.append_left _).append_left _
  have aside : ∀ {log : List Obs}, t.world = s.world.note log → (∀ o ∈ log, o.Aside) →
      s.Conveys l i t := fun ht hlog =>
    along ht (World.note_aside hlog).1 ((World.note_aside hlog).2 i) (List.Sublist.refl _)
  have recorded : ∀ {o : Obs} {w : World}, t.world = w → o.Aside →
      w.journal = s.world.journal ++ [o] ∧ w.inFlight = s.world.inFlight → s.Conveys l i t := by
    rintro o w rfl ho ⟨hj, hi⟩
    have hnote := World.note_aside (w := s.world) ho.forall_mem
    refine along rfl ?_ ?_ ?_
    · rw [World.publications, hj]
      exact hnote.1
    · rw [World.flushes, hj]
      exact hnote.2 i
    · rw [hi]
  have hw := hc.world
  generalize ht : t.world = w at hw
  cases hw with
  | same => exact along ht rfl rfl (List.Sublist.refl _)
  | act hl hh hlog => exact aside ht hlog.aside
  | handle hl hk hh hlog => exact aside ht hlog.aside
  | settled hl ho he =>
      cases he with
      | @publish k l' room m hth hh =>
          subst hl hth
          obtain ⟨c, hset, rfl⟩ := Option.map_eq_some_iff.mp h
          have hworld : c.world = _ := ht
          have hflush : c.world.flushes i = s.world.flushes i := by
            rw [hworld]
            exact List.flatMap_append.trans (List.append_nil _)
          have hflight : c.world.inFlight = s.world.inFlight ++
              s.world.subscribers.map fun j => (j, BusEvent.message (busMessage k room m)) := by
            rw [hworld]
            rfl
          refine .published (m := busMessage k room m) (Core.publishes hset hh) ?_ ?_
          · show c.world.publications = _
            rw [hworld]
            exact List.filterMap_append
          · show (c.way i).Sublist _
            unfold Core.way
            rw [hflush, hflight, show (c.srv i).outbox = _ from hout, List.filterMap_append,
              ← List.append_assoc _ _ (List.filterMap _ (List.map _ _)),
              ← List.append_assoc _ _ (List.filterMap _ (List.map _ _))]
            exact (filterMap_subscribers hS.nodup i _).append_left _
      | kick j sid reason =>
          refine along ht rfl rfl ?_
          show ((s.world.inFlight ++ s.world.subscribers.map _).filterMap _).Sublist _
          rw [List.filterMap_append, List.filterMap_map,
            List.filterMap_eq_nil_iff (f := messageTo i ∘ _) |>.mpr fun _ _ => rfl, List.append_nil]
      | save => exact recorded ht ⟨rfl, fun i => rfl⟩ ⟨rfl, rfl⟩
      | append => exact recorded ht ⟨rfl, fun i => rfl⟩ ⟨rfl, rfl⟩
      | link => exact recorded ht ⟨rfl, fun i => rfl⟩ ⟨rfl, rfl⟩
      | _ => exact along ht rfl rfl (List.Sublist.refl _)
  | rolled => exact aside ht (Obs.Aside.forall_mem ⟨rfl, fun i => rfl⟩)
  | @received n j e log hl hn hlog =>
      have hlog : ∀ o ∈ log, o.Aside := by
        rcases hlog with rfl | ⟨m, -, -, rfl⟩
        · exact fun o ho => absurd ho List.not_mem_nil
        · exact Obs.Aside.forall_mem ⟨rfl, fun i => rfl⟩
      have hnote := World.note_aside (w := (s.toCore.receive n).world) hlog
      exact along ht hnote.1 (hnote.2 i) ((List.eraseIdx_sublist _ n).filterMap _)
  | @flushed j hl' =>
      have hne : j ≠ i := fun he => hl (he ▸ hl')
      refine along ht ?_ ?_ (List.Sublist.refl _)
      · simp [World.publications, World.note, Obs.publishes]
      · simp [World.flushes, World.note, Obs.flushes, hne]
  | subscribers => exact along ht rfl rfl (List.Sublist.refl _)

theorem Sys.conveys (hS : Subscribed s.toCore) (h : s.step env l = some t) (i : InstanceId) :
    s.Conveys l i t := by
  by_cases hl : l = .flush i
  · subst hl
    exact Sys.conveys_flush h
  by_cases hn : ∀ n m, l = .deliver n → s.world.inFlight[n]? ≠ some (i, .message m)
  · exact Sys.conveys_other hS h hl hn
  · push Not at hn
    obtain ⟨n, m, rfl, hn⟩ := hn
    exact Sys.conveys_message h hn

end steps

/-! ### Every message is published once -/

/-- What was published is not borne by a handler any more, and was published once. -/
structure Sys.Printed (env : Env) (s : Sys) : Prop where
  drawn : ∀ m ∈ s.world.publications, s.Drawn env m.message.id
  apart : ∀ m ∈ s.world.publications, ∀ k, s.bears k ≠ some m.message.id
  once : (s.world.publications.map fun m => m.message.id).Nodup

theorem Sys.Printed.step {env : Env} {s t : Sys} {l : Label} (hI : s.Printed env)
    (hL : s.Ledger env) (hS : Subscribed s.toCore) (h : s.step env l = some t) :
    t.Printed env := by
  have hc := Sys.coreStep h
  have mono : ∀ {x}, s.Drawn env x → t.Drawn env x := fun ⟨d, hd, hx⟩ =>
    ⟨d, hd.trans_le hc.draws_le, hx⟩
  -- a message that was drawn is borne only by a handler that bore it
  have borne : ∀ {k x}, s.Drawn env x → t.bears k = some x → s.bears k = some x := by
    intro k x hd hk
    rcases hc.bears hk with hk | ⟨-, rfl, -⟩
    · exact hk
    · exact absurd hd.new (lt_irrefl _)
  cases Sys.conveys hS h 0 with
  | along hp =>
      refine ⟨fun m hm => ?_, fun m hm k hk => ?_, ?_⟩
      · rw [hp] at hm
        exact mono (hI.drawn m hm)
      · rw [hp] at hm
        exact hI.apart m hm k (borne (hI.drawn m hm) hk)
      · rw [hp]
        exact hI.once
  | @published m₁ hm₁ hp =>
      obtain ⟨j, o, v, -, hj, hj'⟩ := hm₁
      have hnew := hL.borne j _ hj
      refine ⟨fun m hm => ?_, fun m hm k hk => ?_, ?_⟩
      · rw [hp] at hm
        rcases List.mem_append.mp hm with hm | hm
        · exact mono (hI.drawn m hm)
        · rw [List.mem_singleton.mp hm]
          exact mono hnew
      · rw [hp] at hm
        rcases List.mem_append.mp hm with hm | hm
        · exact hI.apart m hm k (borne (hI.drawn m hm) hk)
        · obtain rfl := List.mem_singleton.mp hm
          obtain rfl := hL.alone j k _ hj (borne hnew hk)
          rw [hj'] at hk
          cases hk
      · rw [hp, List.map_append, List.map_singleton]
        refine List.nodup_append.mpr ⟨hI.once, List.nodup_singleton _, ?_⟩
        rintro x hx y hy rfl
        obtain ⟨m, hm, he⟩ := List.mem_map.mp hx
        exact hI.apart m hm j (by rw [hj, he, List.mem_singleton.mp hy])

theorem Sys.printed_of_reaches {env : Env} {C : Sys → Label → Prop} {s : Sys}
    (h : (system env).Reaches C s) : s.Printed env := by
  refine h.invariant_of (J := fun s => s.Ledger env ∧ Subscribed s.toCore) (I := Printed env)
    (fun s hs => ⟨ledger_of_reaches hs, subscribed_of_reaches hs⟩) ?_ ?_
  · rintro s ⟨t, rfl⟩
    exact ⟨fun m hm => absurd hm List.not_mem_nil, fun m hm => absurd hm List.not_mem_nil,
      List.nodup_nil⟩
  · rintro s l t ⟨hL, hS⟩ hI - hs
    exact hI.step hL hS hs

/-! ### The sockets -/

section sockets

variable {env : Env} {s t : Sys} {l : Label} {k : ConnKey}

/-- A flush sends a connection a part of the batch, in its order. -/
theorem Sys.fanSide_sublist (s : Sys) (k : ConnKey) :
    ((fanSide (s.batch k.inst) k.inst k s.toCore (s.side k)).lives).Sublist
      ((s.side k).lives ++ (s.batch k.inst).map BusMessage.message) := by
  unfold fanSide
  split
  · cases he : flushFrame (s.batch k.inst) k with
    | none => exact List.sublist_append_left _ _
    | some e =>
        have hlive := flushFrame_live (s.batch k.inst) k
        rw [he] at hlive
        have hpart : e.live.Sublist ((s.batch k.inst).map BusMessage.message) := by
          rw [show e.live = _ from hlive]
          exact List.filter_sublist.map _
        unfold Side.lives
        dsimp only
        unfold Socket.sendRaw
        split
        · exact List.sublist_append_left _ _
        · split
          · rw [Socket.terminate_sent]
            exact List.sublist_append_left _ _
          · dsimp only
            rw [List.flatMap_append]
            simpa using hpart
  · exact List.sublist_append_left _ _

/-- What a connection was sent live is a part of what its instance has flushed. -/
def Sys.InStep (s : Sys) : Prop :=
  ∀ k, (s.side k).lives.Sublist ((s.world.flushes k.inst).map BusMessage.message)

theorem Sys.InStep.step (hI : s.InStep) (hP : s.Polite) (hS : Seats s.toCore) (hM : s.Manned)
    (h : s.step env l = some t) : t.InStep := by
  intro k
  have hflushes : (s.world.flushes k.inst).Sublist (t.world.flushes k.inst) := by
    obtain ⟨log, -, hj⟩ := (Sys.coreStep h).world.log
    unfold World.flushes
    rw [hj, List.flatMap_append]
    exact List.sublist_append_left _ _
  have kept : (t.side k).lives = (s.side k).lives → (t.side k).lives.Sublist
      ((t.world.flushes k.inst).map BusMessage.message) := fun he =>
    he ▸ (hI k).trans (hflushes.map _)
  by_cases hl : l = .flush k.inst
  · subst hl
    by_cases ho : s.Opened k
    · obtain rfl := Option.some.inj (Option.ite_none_right_eq_some.mp h).2
      by_cases hb : s.batch k.inst = []
      · refine kept ?_
        unfold flushOutbox
        dsimp only
        rw [if_pos hb]
        rfl
      · rw [flush_side (hS.nodup _) (listed_of_opened hS hM ho) hb, (s.flushes_flush k.inst).2,
          List.map_append]
        exact (s.fanSide_sublist k).trans ((hI k).append_right _)
    · rcases step_sides hP h k with hmv | ⟨n, u, hl, -⟩
      · refine kept ?_
        unfold Side.lives
        rw [hmv.sent_of_not_opened ho]
      · cases hl
  · rcases step_sides hP h k with hmv | ⟨n, u, -, -, -, hmv⟩
    · refine kept (hmv.lives fun e he => ?_)
      cases he with
      | own he => exact ServerEvent.live_of_private he
      | welcome hl' hh hq he =>
          subst he
          rfl
      | reset hl' hp he =>
          subst he
          rfl
      | presence hl' hj he =>
          subst he
          rfl
      | flush hl' => exact absurd hl' hl
    · rw [hmv.lives fun e he => ServerEvent.live_of_private he]
      exact List.nil_sublist _

theorem Sys.inStep_of_reaches {C : Sys → Label → Prop} (h : (system env).Reaches C s) :
    s.InStep := by
  refine h.invariant_of (J := fun s => s.Polite ∧ Seats s.toCore ∧ s.Manned) (I := InStep)
    (fun s hs => ⟨polite_of_reaches hs, seats_of_reaches hs, manned_of_reaches hs⟩) ?_ ?_
  · rintro s ⟨t, rfl⟩ k
    exact List.nil_sublist _
  · rintro s l t ⟨hP, hS, hM⟩ hI - hs
    exact hI.step hP hS hM hs

end sockets

/-! ### Runs -/

section runs

variable {env : Env} {s : Sys}

/-- Whatever is on its way to an instance was published. -/
theorem Sys.way_subperm {C : Sys → Label → Prop} (h : (system env).Reaches C s) (i : InstanceId) :
    (s.way i).Subperm s.world.publications := by
  refine h.invariant_of (J := fun s => Subscribed s.toCore)
    (I := fun s => (s.way i).Subperm s.world.publications)
    (fun s hs => subscribed_of_reaches hs) ?_ ?_
  · rintro s ⟨t, rfl⟩
    exact List.Subperm.refl _
  · rintro s l t hS hI - hs
    cases Sys.conveys hS hs i with
    | along hp hw =>
        rw [hp]
        exact hw.trans hI
    | published hm hp hw =>
        rw [hp]
        exact hw.subperm.trans ((List.subperm_append_right _).mpr hI)

/-- If events are delivered in turn, it is on its way in the order of publication. -/
theorem Sys.way_sublist (h : (system env).Reaches (fun s l => s.inTurn l = true) s)
    (i : InstanceId) : (s.way i).Sublist s.world.publications := by
  refine h.invariant_of (J := fun s => Subscribed s.toCore)
    (I := fun s => (s.way i).Sublist s.world.publications)
    (fun s hs => subscribed_of_reaches hs) ?_ ?_
  · rintro s ⟨t, rfl⟩
    exact List.Sublist.refl _
  · rintro s l t hS hI hl hs
    cases Sys.conveys hS hs i with
    | along hp hw ht =>
        rw [hp]
        exact (ht hl).trans hI
    | published hm hp hw =>
        rw [hp]
        exact hw.trans (hI.append_right _)

/-- **One order for each instance.** Whatever the order is in which the bus delivers, an instance
flushes a message that was published at most once, and what its connections are sent live are parts
of the sequence it has flushed: no two of them are sent two messages in opposite orders. -/
theorem ordered_of_reaches (h : (system env).Reaches Free s) (i : InstanceId) :
    ((s.world.flushes i).map fun m => m.message.id).Nodup ∧
      (∀ m ∈ s.world.flushes i, m ∈ s.world.publications) ∧
      ∀ k, k.inst = i →
        (s.side k).lives.Sublist ((s.world.flushes i).map BusMessage.message) := by
  have hsub : (s.world.flushes i).Subperm s.world.publications :=
    (List.sublist_append_left _ _).subperm.trans (Sys.way_subperm h i)
  refine ⟨?_, hsub.subset, ?_⟩
  · obtain ⟨ms, hperm, hpart⟩ := hsub
    exact (hperm.map _).nodup_iff.mp ((Sys.printed_of_reaches h).once.sublist (hpart.map _))
  · rintro k rfl
    exact Sys.inStep_of_reaches h k

/-- **One order for the cluster.** If events are delivered to each instance in the order of
publication, what any connection on any instance is sent live is a part of the sequence that was
published. -/
theorem ordered_in_turn (h : (system env).Reaches (fun s l => s.inTurn l = true) s) :
    (s.world.publications.map fun m => m.message.id).Nodup ∧
      ∀ k, (s.side k).lives.Sublist (s.world.publications.map BusMessage.message) := by
  refine ⟨(Sys.printed_of_reaches h).once, fun k => ?_⟩
  have hflushed : (s.world.flushes k.inst).Sublist s.world.publications :=
    (List.sublist_append_left _ _).trans (Sys.way_sublist h k.inst)
  exact (Sys.inStep_of_reaches h k).trans (hflushed.map _)

end runs

namespace Demo

/-- The first of two clients sends two messages. -/
def twoSent : List Label :=
  twoAttending ++ receive (conn 1) (.send { clientId := "d", text := "hi", day := none }) ++
    turns (conn 1) 1 ++ [.resume (.handler (conn 1))] ++ turns (conn 1) 2 ++
    [.resume (.handler (conn 1))]

/-- The texts a client was sent live. -/
def textsOf (k : ConnKey) (s : Sys) : List String := (s.side k).lives.map ChatMessage.text

end Demo

/-- A run of the theorem: the bus delivers the second message first, and the second client is
sent it first, as its instance flushed it. -/
theorem ordered_overtaken : ∃ s : Sys, (system (Demo.env none)).Reaches Free s ∧
    Demo.textsOf (Demo.conn 2) s = ["hi", "hello"] ∧
    (s.side (Demo.conn 2)).lives.Sublist ((s.world.flushes 0).map BusMessage.message) := by
  obtain ⟨s, hs, hP⟩ := exists_reached_free (Demo.env none)
    (fun s => decide (Demo.textsOf (Demo.conn 2) s = ["hi", "hello"])) Demo.noon
    (Demo.twoSent ++ [.deliver 1, .deliver 0, .flush 0]) (by decide +kernel)
  exact ⟨s, hs, of_decide_eq_true hP, (ordered_of_reaches hs 0).2.2 (Demo.conn 2) rfl⟩

/-- A run of the theorem in which the bus delivers in turn. -/
theorem ordered_in_turn_flushed : ∃ s : Sys,
    (system (Demo.env none)).Reaches (fun s l => s.inTurn l = true) s ∧
    Demo.textsOf (Demo.conn 2) s = ["hello", "hi"] ∧
    (s.side (Demo.conn 2)).lives.Sublist (s.world.publications.map BusMessage.message) := by
  obtain ⟨s, hs, hP⟩ := exists_reached (Demo.env none) Sys.inTurn
    (fun s => decide (Demo.textsOf (Demo.conn 2) s = ["hello", "hi"])) Demo.noon
    (Demo.twoSent ++ [.deliver 0, .deliver 0, .flush 0]) (by decide +kernel)
  exact ⟨s, hs, of_decide_eq_true hP, (ordered_in_turn hs).2 (Demo.conn 2)⟩

end RoomBackend
