import RoomBackend.Deliveries

/-! # No message is lost at a join

A `join` lets the flushes reach its connection before it reads the history, and a message is
appended to the history before it is published. So within a day the messages appended before the
read are in the history it returns, as far as the history reaches back, and the messages appended
after it are delivered to the connection, or are still on their way to it. -/

namespace RoomBackend

open Async Day Lts Expiring

/-! ### The messages appended to a room -/

/-- The message an entry of the journal appends to a room, and its sender. -/
def Obs.posting (roomId : String) : Obs → Option (ConnKey × StoredMessage)
  | .appended k _ _ roomId' m => if roomId' = roomId then some (k, m) else none
  | _ => none

/-- The messages appended to a room, in order, with their senders. -/
def World.postings (w : World) (roomId : String) : List (ConnKey × StoredMessage) :=
  w.journal.filterMap (Obs.posting roomId)

theorem World.postings_note {w : World} {log : List Obs} {roomId : String}
    (h : ∀ o ∈ log, o.posting roomId = none) :
    (w.note log).postings roomId = w.postings roomId := by
  unfold postings note
  rw [List.filterMap_append, List.filterMap_eq_nil_iff.mpr h, List.append_nil]

theorem ActLog.posting {k : ConnKey} {up : Bool} {c : Core} {h : Option Handler} {log : List Obs}
    (hl : ActLog k up c h log) (roomId : String) : ∀ o ∈ log, o.posting roomId = Option.none := by
  intro o ho
  cases hl with
  | none => cases ho
  | limited hh hj hr =>
      simp only [List.mem_cons, List.not_mem_nil, or_false] at ho
      obtain rfl | rfl := ho <;> rfl
  | _ =>
      rw [List.mem_singleton.mp ho]
      rfl

/-- What a step does to the history of a room. -/
inductive Posts (env : Env) (c : Core) (l : Label) (roomId : String) (w : World) : Prop
  | same (hp : w.postings roomId = c.world.postings roomId)
      (hl : w.store.lists roomId = c.world.store.lists roomId)
  | appended {k : ConnKey} {o : Outcome} {v : Bool} {l' : SendLocals} {room : DailyRoom}
      {m : StoredMessage} (hl : l = .settle (.handler k) o v)
      (hh : (c.conn k).handler = some (.send (.append l' room m .pending)))
      (hr : room.roomId = roomId)
      (hw : w = (World.append c.clock env.config.historyLimit k (c.conn k).handled l' room m
        c.world).2)
  | deleted {i : InstanceId} {o : Outcome} {v : Bool} {prev next : DailyRoom} {p : Promise Unit}
      (hl : l = .settle (.reset i) o v) (hi : (c.srv i).rolling = some (.cleanup prev next p))
      (hr : prev.roomId = roomId) (hp : w.postings roomId = c.world.postings roomId)

theorem WorldStep.posts {env : Env} {up : ConnKey → Bool} {c : Core} {l : Label} {w : World}
    (h : WorldStep env up c l w) (roomId : String) : Posts env c l roomId w := by
  cases h with
  | same => exact .same rfl rfl
  | act hl hh hlog => exact .same (World.postings_note (hlog.posting roomId)) rfl
  | handle hl hk hh hlog => exact .same (World.postings_note (hlog.posting roomId)) rfl
  | settled hl ho he =>
      cases he with
      | save hs =>
          refine .same ?_ rfl
          unfold World.postings World.save World.record
          simp [Obs.posting]
      | @append k l' room m ht hh =>
          subst ht
          by_cases hr : room.roomId = roomId
          · exact .appended hl hh hr rfl
          · refine .same ?_ ?_
            · unfold World.postings World.append World.record
              simp [Obs.posting, World.onStore, hr]
            · exact Map.write_ne _ _ _ (Ne.symm hr)
      | publish ht hh =>
          refine .same ?_ rfl
          unfold World.postings World.publishSend World.record
          simp [Obs.posting, World.publish]
      | link hc =>
          refine .same ?_ rfl
          unfold World.postings World.link World.record
          simp [Obs.posting, World.onStore]
      | deleteRoom roomId' hd =>
          obtain ⟨i, prev, next, p, rfl, hi, rfl⟩ := hd
          by_cases hr : prev.roomId = roomId
          · exact .deleted hl hi hr rfl
          · exact .same rfl (Map.erase_ne _ (Ne.symm hr))
      | other hk => exact .same rfl (congrFun hk.lists roomId)
      | _ => exact .same rfl rfl
  | rolled => exact .same (World.postings_note (by simp [Obs.posting])) rfl
  | received hl hn hlog =>
      refine .same (World.postings_note ?_) rfl
      rcases hlog with rfl | ⟨m, -, -, rfl⟩
      · exact fun o ho => absurd ho List.not_mem_nil
      · simp [Obs.posting]
  | flushed hl =>
      refine .same (World.postings_note ?_) rfl
      intro o ho
      rcases List.mem_append.mp ho with ho | ho
      · obtain ⟨m, -, rfl⟩ := List.mem_map.mp ho
        rfl
      · rw [List.mem_singleton.mp ho]
        rfl
  | subscribers => exact .same rfl rfl

/-! ### What the history holds -/

/-- Of a list that is cut to its last elements, a later part is kept when one is appended. -/
theorem suffix_append_drop {α : Type*} {P L : List α} {n K : ℕ} (x : α)
    (h : P.drop (max n (P.length - K)) <:+ L) :
    (P ++ [x]).drop (max n ((P ++ [x]).length - K)) <:+
      (L ++ [x]).drop ((L ++ [x]).length - K) := by
  have hone : (P ++ [x]).drop (max n ((P ++ [x]).length - K)) <:+ L ++ [x] := by
    by_cases hn : P.length < n
    · rw [List.drop_eq_nil_of_le]
      · exact List.nil_suffix
      · rw [List.length_append, List.length_singleton]
        omega
    · have hb : (P ++ [x]).drop (max n (P.length - K)) =
          P.drop (max n (P.length - K)) ++ [x] :=
        List.drop_append_of_le_length (by omega)
      have hle : max n (P.length - K) ≤ max n ((P ++ [x]).length - K) := by
        rw [List.length_append]
        omega
      have hdrop : (P ++ [x]).drop (max n ((P ++ [x]).length - K)) <:+
          (P ++ [x]).drop (max n (P.length - K)) := by
        obtain ⟨d, hd⟩ := Nat.exists_eq_add_of_le hle
        rw [hd, ← List.drop_drop]
        exact List.drop_suffix _ _
      refine hdrop.trans ?_
      rw [hb]
      obtain ⟨pre, hpre⟩ := h
      exact ⟨pre, by rw [← List.append_assoc, hpre]⟩
  refine List.suffix_of_suffix_length_le hone (List.drop_suffix _ _) ?_
  have hlen := hone.length_le
  simp only [List.length_drop, List.length_append, List.length_singleton] at hlen ⊢
  omega

namespace Sys

variable {env : Env} {s t u : Sys} {l : Label} {k : ConnKey}

/-- Within the day of a room: it has not ended, and no rollover deletes its history. -/
def within (room : DailyRoom) (s : Sys) : Label → Bool
  | .clock t => decide (t < room.endsAt)
  | .settle (.reset i) _ _ => decide (s.clock < room.endsAt) &&
      (s.srv i).rolling.all fun p => decide (p.prev.roomId ≠ room.roomId)
  | _ => decide (s.clock < room.endsAt)

/-- The history holds the messages that were appended after the first `n`, as far as it reaches
back. -/
def Keeps (env : Env) (room : DailyRoom) (n : ℕ) (s : Sys) : Prop :=
  ((s.world.postings room.roomId).map Prod.snd).drop
    (max n ((s.world.postings room.roomId).length - env.config.historyLimit)) <:+
      (s.world.store.lists.lookup s.clock room.roomId).getD []

theorem lookup_lists {f : Sid → Option String} (hD : Dated env f s.toCore) {room : DailyRoom}
    (hroom : env.Daily room) {now : ℤ} (hnow : now < room.endsAt) :
    s.world.store.lists.lookup now room.roomId =
      (s.world.store.lists room.roomId).map Entry.v := by
  unfold Map.lookup
  cases he : s.world.store.lists room.roomId with
  | none => rfl
  | some e =>
      have hexp := (hD.world.lists room.roomId e he).eq hroom rfl
      dsimp only
      rw [if_neg (by omega)]
      rfl

/-- Only the clock moves the clock. -/
theorem clock_step (h : s.step env l = some t) (hl : ∀ t', l ≠ .clock t') : t.clock = s.clock := by
  have hc := coreStep h
  generalize t.toCore = c' at hc
  show c'.clock = s.clock
  cases hc with
  | clock => exact absurd rfl (hl _)
  | settle hs =>
      rw [Core.settle_frame hs]
  | act hh ha =>
      rw [ha.frame]
      rfl
  | handle hk hh ha =>
      rw [ha.frame]
      rfl
  | rollover hp hprev hm =>
      rw [hm.frame]
  | reset hp hm =>
      rw [hm.frame]
  | tick =>
      rw [Core.checkRoom_frame]
  | message =>
      rw [Core.onMessage_frame]
      rfl
  | _ => rfl

theorem clock_mono (h : s.step env l = some t) : s.clock ≤ t.clock := by
  by_cases hc : ∃ t', l = .clock t'
  · obtain ⟨t', rfl⟩ := hc
    obtain ⟨hle, he⟩ := Option.ite_none_right_eq_some.mp h
    obtain rfl := Option.some.inj he
    exact hle
  · exact (clock_step h fun t' he => hc ⟨t', he⟩).ge

theorem clock_of_within {room : DailyRoom} (h : s.step env l = some t)
    (hl : s.within room l = true) : s.clock < room.endsAt ∧ t.clock < room.endsAt := by
  by_cases hc : ∃ t', l = .clock t'
  · obtain ⟨t', rfl⟩ := hc
    obtain ⟨hle, ht⟩ := Option.ite_none_right_eq_some.mp h
    obtain rfl := Option.some.inj ht
    have hlt : t' < room.endsAt := of_decide_eq_true hl
    exact ⟨by omega, hlt⟩
  · have hs : s.clock < room.endsAt := by
      unfold within at hl
      split at hl
      · exact absurd ⟨_, rfl⟩ hc
      · exact of_decide_eq_true (Bool.and_eq_true _ _ ▸ hl).1
      · exact of_decide_eq_true hl
    rw [clock_step h fun t' he => hc ⟨t', he⟩]
    exact ⟨hs, hs⟩

theorem Keeps.step {f : Sid → Option String} {room : DailyRoom} {n : ℕ} (hI : s.Keeps env room n)
    (hD : Dated env f s.toCore) {g : Sid → Option String} (hD' : Dated env g t.toCore)
    (hroom : env.Daily room) (h : s.step env l = some t) (hl : s.within room l = true) :
    t.Keeps env room n := by
  obtain ⟨hs, ht⟩ := clock_of_within h hl
  unfold Keeps at hI ⊢
  rw [lookup_lists hD hroom hs] at hI
  rw [lookup_lists hD' hroom ht]
  rcases (coreStep h).world.posts room.roomId with
    ⟨hp, hlist⟩ | ⟨hl', hh, hr, hw⟩ | ⟨hl', hi, hr, -⟩
  · rw [hp, hlist]
    exact hI
  · rename_i k o v l' room' m
    have hpost : t.world.postings room.roomId = s.world.postings room.roomId ++ [(k, m)] := by
      rw [show t.world = _ from hw]
      unfold World.postings World.append World.record
      simp [Obs.posting, World.onStore, hr]
    have hlist : (t.world.store.lists room.roomId).map Entry.v =
        some ((((s.world.store.lists.lookup s.clock room.roomId).getD []) ++ [m]).drop
          ((((s.world.store.lists.lookup s.clock room.roomId).getD []) ++ [m]).length -
            env.config.historyLimit)) := by
      rw [show t.world = _ from hw, ← hr]
      unfold World.append World.record World.onStore Store.appendMessage
      dsimp only
      rw [Map.write_same]
      rfl
    rw [hpost, hlist, lookup_lists hD hroom hs, List.map_append, List.length_append]
    have hpart : ((s.world.postings room.roomId).map Prod.snd).drop (max n
        (((s.world.postings room.roomId).map Prod.snd).length - env.config.historyLimit)) <:+
        ((s.world.store.lists room.roomId).map Entry.v).getD [] := by
      rw [List.length_map]
      exact hI
    have happ := suffix_append_drop m hpart
    rw [List.length_append, List.length_map] at happ
    exact happ
  · rename_i i o v prev next p
    subst hl'
    have hroll : (s.srv i).rolling = some (.cleanup prev next p) := hi
    simp [within, hroll, RollingPc.prev, hr] at hl

/-- What a read of the history returns. -/
theorem Keeps.read {room : DailyRoom} {n : ℕ} (hI : s.Keeps env room n) :
    ∀ m ∈ ((s.world.postings room.roomId).map Prod.snd).drop
      (max n ((s.world.postings room.roomId).length - env.config.historyLimit)),
      m ∈ (s.world.store.recentMessages s.clock room.roomId env.config.historyLimit).1 := by
  intro m hm
  unfold Store.recentMessages
  dsimp only
  have hlen := List.length_pos_of_mem hm
  rw [List.length_drop, List.length_map] at hlen
  rw [if_neg (by omega)]
  refine (List.suffix_of_suffix_length_le hI (List.drop_suffix _ _) ?_).subset hm
  have hle := hI.length_le
  simp only [List.length_drop, List.length_map] at hle ⊢
  omega

/-! ### Messages on their way -/

/-- The store and the backplane succeed. -/
def succeeds : Label → Bool
  | .settle _ o _ => decide (o = .answered)
  | _ => true

/-- The store and the backplane succeed, the instance of connection `k` is subscribed, and the
connection attends the one room of its server. -/
def calm (env : Env) (k : ConnKey) (s : Sys) (l : Label) : Bool :=
  succeeds l && decide (k.inst ∈ s.world.subscribers) && decide (s.Attends k) &&
    (s.step env l).all fun t =>
      decide (t.Attends k) && decide ((t.srv k.inst).room = (s.srv k.inst).room)

/-- An appended message is on its way to connection `k`: its sender is about to publish it, or
its event is in flight, or a flush owes it. -/
inductive Coming (s : Sys) (k : ConnKey) (roomId : String) (x : ConnKey × StoredMessage) : Prop
  | appended {l : SendLocals} {room : DailyRoom} (hr : room.roomId = roomId)
      (hh : (s.conn x.1).handler = some (.send (.append l room x.2 (.fulfilled ()))))
  | publishing {l : SendLocals} {room : DailyRoom} (hr : room.roomId = roomId)
      (hh : (s.conn x.1).handler = some (.send (.publish l room x.2 .pending)))
  | flying {m : BusMessage} (hm : m.message = toPublic x.2) (hf : m.isFor roomId k = true)
      (h : (k.inst, BusEvent.message m) ∈ s.world.inFlight)
  | owed (h : toPublic x.2 ∈ s.owed k)

/-- The message was sent to connection `k` live, or is on its way to it. -/
def Reaching (s : Sys) (k : ConnKey) (roomId : String) (x : ConnKey × StoredMessage) : Prop :=
  toPublic x.2 ∈ (s.side k).lives ∨ s.Coming k roomId x

theorem Effect.inFlight {c : Core} {th : Thread} {w : World} (h : Effect env c th w)
    {e : InstanceId × BusEvent} (he : e ∈ c.world.inFlight) : e ∈ w.inFlight := by
  cases h with
  | publish => exact List.mem_append_left _ he
  | kick => exact List.mem_append_left _ he
  | _ => exact he

/-- An event stays in flight until it is delivered. -/
theorem inFlight_step (h : s.step env l = some t) {e : InstanceId × BusEvent}
    (he : e ∈ s.world.inFlight) :
    e ∈ t.world.inFlight ∨ ∃ n, l = .deliver n ∧ s.world.inFlight[n]? = some e := by
  have hw := (coreStep h).world
  generalize t.world = w at hw ⊢
  cases hw with
  | settled hl ho hE => exact Or.inl (Effect.inFlight hE he)
  | @received n i e' log hl hn hlog =>
      by_cases hee : e = (i, e')
      · exact Or.inr ⟨n, hl, hee ▸ hn⟩
      · refine Or.inl ?_
        obtain ⟨hlt, hget⟩ := List.getElem?_eq_some_iff.mp hn
        have hp := (List.getElem_cons_eraseIdx_perm hlt).mem_iff (a := e)
        rcases List.mem_cons.mp (hp.mpr he) with hc | hc
        · exact absurd (hc.trans hget) hee
        · exact hc
  | _ => exact Or.inl he

/-- A message that is about to be published is published, and is in flight then. -/
theorem publishing_step (hB : Born s.toCore) (h : s.step env l = some t)
    (hl : succeeds l = true) (hsub : k.inst ∈ s.world.subscribers) {roomId : String}
    {x : ConnKey × StoredMessage} (hx : x.1 ≠ k) (hc : (∃ l' room, room.roomId = roomId ∧
      ((s.conn x.1).handler = some (.send (.append l' room x.2 (.fulfilled ()))) ∨
        (s.conn x.1).handler = some (.send (.publish l' room x.2 .pending))))) :
    t.Coming k roomId x := by
  obtain ⟨l', room, hr, hh⟩ := hc
  have hs := coreStep h
  have hcs := hs.conn x.1
  -- the handler is left alone
  have stay : (t.conn x.1).handler = (s.conn x.1).handler → t.Coming k roomId x := by
    intro hst
    rcases hh with hh | hh
    · exact .appended hr (hst.trans hh)
    · exact .publishing hr (hst.trans hh)
  generalize hy : t.conn x.1 = y at hcs
  cases hcs with
  | act hl' hh' ha =>
      rcases hh with hh | hh
      · obtain rfl := Option.some.inj (hh.symm.trans hh')
        cases ha with
        | idle hns => exact absurd rfl (hns _)
        | sendEscalate hq =>
            obtain ⟨p, hp⟩ | ⟨p, hp⟩ := hq <;> cases hp
        | appendDone =>
            exact .publishing hr (by rw [hy])
      · obtain rfl := Option.some.inj (hh.symm.trans hh')
        cases ha with
        | idle hns => exact absurd rfl (hns _)
        | sendEscalate hq =>
            obtain ⟨p, hp⟩ | ⟨p, hp⟩ := hq <;> cases hp
  | handle hl' hk hh' ha =>
      rw [show (s.conn x.1).handler = none from hh'] at hh
      rcases hh with hh | hh <;> cases hh
  | @settled h₀ h₁ o v w hl' hh' hset =>
      subst hl'
      rcases hh with hh | hh
      · obtain rfl := Option.some.inj (hh.symm.trans hh')
        cases hset
      · obtain rfl := of_decide_eq_true hl
        obtain ⟨c', hc', rfl⟩ := Option.map_eq_some_iff.mp h
        obtain ⟨h₂, hh₂, hc'⟩ := Option.bind_eq_some_iff.mp hc'
        obtain rfl := Option.some.inj (hh.symm.trans hh₂)
        cases hc'
        refine .flying (m := busMessage x.1 room x.2) rfl ?_ ?_
        · simp [BusMessage.isFor, busMessage, hr, hx]
        · exact List.mem_append_right _ (List.mem_map.mpr ⟨_, hsub, rfl⟩)
  | accepted hl' hj =>
      rw [show s.conn x.1 = Conn.unborn from hj ▸ hB.next _] at hh
      rcases hh with hh | hh <;> cases hh
  | _ => exact stay (by rw [hy])

/-- A message that reaches an attending connection goes on to reach it. -/
theorem Reaching.step (hB : Born s.toCore) (hP : s.Polite) (hS : Seats s.toCore) (hM : s.Manned)
    (h : s.step env l = some t) (hl : s.calm env k l = true) {roomId : String}
    (hroom : (s.srv k.inst).room.roomId = roomId) {x : ConnKey × StoredMessage} (hx : x.1 ≠ k)
    (hr : s.Reaching k roomId x) : t.Reaching k roomId x := by
  unfold calm at hl
  rw [h] at hl
  simp only [Option.all_some, Bool.and_eq_true, decide_eq_true_eq] at hl
  obtain ⟨⟨⟨hok, hsub⟩, hA⟩, hA', hroom'⟩ := hl
  have hfan := fanout_step hP hS hM h hA hA' hroom'
  -- what was sent live or owed still is
  have live : toPublic x.2 ∈ (s.side k).lives ++ s.owed k ++
      ((s.arrivals k.inst l).filter
        (BusMessage.isFor (s.srv k.inst).room.roomId k)).map BusMessage.message →
      t.Reaching k roomId x := by
    intro hm
    rw [← hfan] at hm
    rcases List.mem_append.mp hm with hm | hm
    · exact Or.inl hm
    · exact Or.inr (.owed hm)
  rcases hr with hlv | hcom
  · exact live (List.mem_append_left _ (List.mem_append_left _ hlv))
  · cases hcom with
    | appended hr hh =>
        exact Or.inr (publishing_step hB h hok hsub hx ⟨_, _, hr, Or.inl hh⟩)
    | publishing hr hh =>
        exact Or.inr (publishing_step hB h hok hsub hx ⟨_, _, hr, Or.inr hh⟩)
    | @flying m hm hf hin =>
        rcases inFlight_step h hin with hin | ⟨n, rfl, hn⟩
        · exact Or.inr (.flying hm hf hin)
        · refine live (List.mem_append_right _ (List.mem_map.mpr ⟨m, ?_, hm⟩))
          have harr : s.arrivals k.inst (.deliver n) = [m] := by
            simp only [arrivals, hn, if_true]
          rw [harr, hroom]
          exact List.mem_filter.mpr ⟨List.mem_singleton_self _, hf⟩
    | owed hm => exact live (List.mem_append_left _ (List.mem_append_right _ hm))

/-- A step appends at most one message to a room; its sender is about to publish it then. -/
theorem postings_step (h : s.step env l = some t) (hl : succeeds l = true) (roomId : String) :
    t.world.postings roomId = s.world.postings roomId ∨
      ∃ (x : ConnKey × StoredMessage) (l' : SendLocals) (room : DailyRoom),
        t.world.postings roomId = s.world.postings roomId ++ [x] ∧ room.roomId = roomId ∧
        (t.conn x.1).handler = some (.send (.append l' room x.2 (.fulfilled ()))) := by
  rcases (coreStep h).world.posts roomId with ⟨hp, -⟩ | ⟨hl', hh, hr, hw⟩ | ⟨-, -, -, hp⟩
  · exact Or.inl hp
  · rename_i j o v l' room m
    subst hl'
    refine Or.inr ⟨(j, m), l', room, ?_, hr, ?_⟩
    · rw [show t.world = _ from hw]
      unfold World.postings World.append World.record
      simp [Obs.posting, World.onStore, hr]
    · obtain rfl := of_decide_eq_true hl
      obtain ⟨c', hc', rfl⟩ := Option.map_eq_some_iff.mp h
      obtain ⟨h₂, hh₂, hc'⟩ := Option.bind_eq_some_iff.mp hc'
      obtain rfl := Option.some.inj (hh.symm.trans hh₂)
      cases hc'
      show (Core.conn (Core.setHandler _ j _) j).handler = _
      rw [Core.setHandler_conn]
  · exact Or.inl hp

/-- The messages appended after the first `n` reach the connection, its own and those in `Q`
apart. -/
structure Follows (roomId : String) (k : ConnKey) (n : ℕ)
    (Q : ConnKey × StoredMessage → Prop) (s : Sys) : Prop where
  room : (s.srv k.inst).room.roomId = roomId
  follows : ∀ x ∈ (s.world.postings roomId).drop n, x.1 ≠ k → s.Reaching k roomId x ∨ Q x

theorem Follows.step (hB : Born s.toCore) (hP : s.Polite) (hS : Seats s.toCore) (hM : s.Manned)
    (h : s.step env l = some t) (hl : s.calm env k l = true) {roomId : String} {n : ℕ}
    {Q : ConnKey × StoredMessage → Prop} (hI : s.Follows roomId k n Q) :
    t.Follows roomId k n Q := by
  have hold : ∀ x ∈ (s.world.postings roomId).drop n, x.1 ≠ k → t.Reaching k roomId x ∨ Q x := by
    intro x hx hk
    rcases hI.follows x hx hk with hr | hq
    · exact Or.inl (hr.step hB hP hS hM h hl hI.room hk)
    · exact Or.inr hq
  unfold calm at hl
  rw [h] at hl
  simp only [Option.all_some, Bool.and_eq_true, decide_eq_true_eq] at hl
  obtain ⟨⟨⟨hok, -⟩, -⟩, -, hroom'⟩ := hl
  refine ⟨hroom' ▸ hI.room, ?_⟩
  rcases postings_step h hok roomId with hp | ⟨y, l', room, hp, hr, hh⟩
  · rw [hp]
    exact hold
  · intro x hx hk
    rw [hp, List.drop_append] at hx
    rcases List.mem_append.mp hx with hx | hx
    · exact hold x hx hk
    · obtain rfl := List.mem_singleton.mp (List.mem_of_mem_drop hx)
      exact Or.inl (Or.inr (.appended hr hh))

theorem Follows.run {roomId : String} {n : ℕ} {Q : ConnKey × StoredMessage → Prop}
    {ls : List Label} (h : (system env).Reaches Free s) (hI : s.Follows roomId k n Q)
    (hr : (system env).Run (fun s l => s.calm env k l = true) s ls t) : t.Follows roomId k n Q := by
  refine h.preserves (I := fun s : Sys => s.Follows roomId k n Q) hr (fun _ _ _ => trivial) ?_ hI
  intro s l t hs hI hC he
  exact hI.step (born_of_reaches hs) (polite_of_reaches hs) (seats_of_reaches hs)
    (manned_of_reaches hs) he hC

/-! ### The welcome -/

/-- The history that was read is about to be sent in a welcome, or was sent in one. -/
def Told (s : Sys) (k : ConnKey) (j : JoinCtx) (r : SessionIdent) (token : Token)
    (room : DailyRoom) (history : List StoredMessage) : Prop :=
  (s.conn k).handler = some (.join (.history j r token room (.fulfilled history))) ∨
    ∃ (identity : Identity) (day dayEndsAt serverTime online : ℤ) (resume : Token)
      (maxLength : ℕ), ServerEvent.welcome identity day dayEndsAt serverTime online
        (history.map toPublic) resume maxLength ∈ (s.side k).socket.sent

theorem joinWelcome_sent {j : JoinCtx} {r : SessionIdent} {token : Token} {room : DailyRoom}
    {history : List StoredMessage} (hup : s.up k = true) :
    s.announcementFrame env k (.welcome r token room history) ∈
      ((s.joinWelcome env k j r token room history).side k).socket.sent := by
  have hT : Talks (fun _ _ => True) (fun _ _ _ => True)
      (s.announce env k (.welcome r token room history))
      (s.joinWelcome env k j r token room history) :=
    (Talks.refl (fun _ _ _ => trivial) _).tuned (.joinWelcome j r token room history)
      fun _ _ _ => trivial
  obtain ⟨es, hes, -⟩ := (hT.moves k).sent
  rw [hes]
  refine List.mem_append_left _ ?_
  obtain ⟨ho, hs⟩ : (s.side k).socket.state = .opened ∧ (s.side k).socket.slow = false := by
    simpa [up, Socket.sends] using hup
  unfold announce send updSocket updSide
  dsimp only
  rw [Function.update_self]
  simp [Socket.sendRaw, ho, hs, onCore]

theorem Told.step (hB : Born s.toCore) (hP : s.Polite) (h : s.step env l = some t)
    (hl : s.calm env k l = true) {j : JoinCtx} {r : SessionIdent} {token : Token}
    {room : DailyRoom} {history : List StoredMessage} (hI : s.Told k j r token room history) :
    t.Told k j r token room history := by
  unfold calm at hl
  rw [h] at hl
  simp only [Option.all_some, Bool.and_eq_true, decide_eq_true_eq] at hl
  obtain ⟨⟨-, hA⟩, hA', -⟩ := hl
  rcases hI with hh | ⟨identity, day, dayEndsAt, serverTime, online, resume, maxLength, he⟩
  · by_cases hres : l = .resume (.handler k)
    · subst hres
      obtain ⟨x, hx, ht⟩ := Option.bind_eq_some_iff.mp h
      obtain rfl := Option.some.inj (hh.symm.trans hx)
      cases ht
      exact Or.inr ⟨_, _, _, _, _, _, _, joinWelcome_sent hA.2⟩
    · have hcs := (coreStep h).conn k
      generalize hy : t.conn k = y at hcs
      cases hcs with
      | act hl' => exact absurd hl' hres
      | handle hl' hk hh' => exact absurd (hh.symm.trans hh') (by simp)
      | settled hl' hh' hs =>
          obtain rfl := Option.some.inj (hh.symm.trans hh')
          cases hs
      | accepted hl' hj =>
          rw [show s.conn k = Conn.unborn from hj ▸ hB.next _] at hh
          cases hh
      | _ => exact Or.inl (by rw [hy]; exact hh)
  · refine Or.inr ⟨identity, day, dayEndsAt, serverTime, online, resume, maxLength, ?_⟩
    rcases step_sides hP h k with hm | ⟨n, u, -, -, hc, -⟩
    · obtain ⟨es, hes, -⟩ := hm.sent
      rw [hes]
      exact List.mem_append_left _ he
    · have hr := hA'.1
      unfold Core.receives at hr
      rw [show t.toCore.conn k = Conn.new u.info from hc] at hr
      cases hr

/-- What a read of the history does. -/
theorem read_history {j : JoinCtx} {r : SessionIdent} {token : Token} {room : DailyRoom} {v : Bool}
    (hh : (s.conn k).handler = some (.join (.history j r token room .pending)))
    (h : s.step env (.settle (.handler k) .answered v) = some t) :
    t.world = s.world ∧ t.srv = s.srv ∧ t.Told k j r token room
      (s.world.store.recentMessages s.clock room.roomId env.config.historyLimit).1 := by
  obtain ⟨c', hc', rfl⟩ := Option.map_eq_some_iff.mp h
  obtain ⟨x, hx, hc'⟩ := Option.bind_eq_some_iff.mp hc'
  obtain rfl := Option.some.inj (hh.symm.trans hx)
  cases hc'
  refine ⟨rfl, rfl, Or.inl ?_⟩
  show (Core.conn (Core.setHandler _ k _) k).handler = _
  rw [Core.setHandler_conn]
  rfl

theorem keeps_run {room : DailyRoom} {n : ℕ} {ls : List Label} (h : (system env).Reaches Free s)
    (hroom : env.Daily room) (hI : s.Keeps env room n)
    (hr : (system env).Run (fun s l => s.within room l = true) s ls t) :
    (system env).Reaches Free t ∧ t.Keeps env room n := by
  refine ⟨h.run (hr.mono fun _ _ _ => trivial), h.preserves (I := fun s : Sys =>
    s.Keeps env room n) hr (fun _ _ _ => trivial) ?_ hI⟩
  intro s l t hs hI hC he
  obtain ⟨f, hf⟩ := dated_of_reaches hs
  obtain ⟨g, hg⟩ := dated_of_reaches (hs.step trivial he)
  exact hI.step hf hg hroom he hC

theorem Told.run {j : JoinCtx} {r : SessionIdent} {token : Token} {room : DailyRoom}
    {history : List StoredMessage} {ls : List Label} (h : (system env).Reaches Free s)
    (hI : s.Told k j r token room history)
    (hr : (system env).Run (fun s l => s.calm env k l = true) s ls t) :
    t.Told k j r token room history := by
  refine h.preserves (I := fun s : Sys => s.Told k j r token room history) hr
    (fun _ _ _ => trivial) ?_ hI
  intro s l t hs hI hC he
  exact hI.step (born_of_reaches hs) (polite_of_reaches hs) he hC

end Sys

/-- **No message is lost at a join.** In a day of a room, let a connection that has joined read
the history and then attend the room, while the store and the backplane succeed. Then the
messages appended before the read are in the history, as far as it reaches back; those that others
append after it were sent to the connection live or are on their way to it; and the history is
about to be sent in its welcome, or was. -/
theorem welcomed_of_reaches {env : Env} {s₀ s₁ s₂ u : Sys} {ls ls' : List Label} {k : ConnKey}
    {j : JoinCtx} {r : SessionIdent} {token : Token} {room : DailyRoom} {v : Bool}
    (h : (system env).Reaches Free s₀)
    (hday : (system env).Run (fun s l => s.within room l = true) s₀ ls s₁)
    (hroom : (s₁.srv k.inst).room = room)
    (hh : (s₁.conn k).handler = some (.join (.history j r token room .pending)))
    (hread : s₁.step env (.settle (.handler k) .answered v) = some s₂)
    (hcalm : (system env).Run (fun s l => s.calm env k l = true) s₂ ls' u) :
    ∃ history : List StoredMessage,
      (∀ x ∈ (s₁.world.postings room.roomId).drop
        (max (s₀.world.postings room.roomId).length
          ((s₁.world.postings room.roomId).length - env.config.historyLimit)), x.2 ∈ history) ∧
      (∀ x ∈ (u.world.postings room.roomId).drop (s₁.world.postings room.roomId).length,
        x.1 ≠ k → toPublic x.2 ∈ (u.side k).lives ∨ u.Coming k room.roomId x) ∧
      u.Told k j r token room history := by
  have hreach : (system env).Reaches Free s₁ := h.run (hday.mono fun _ _ _ => trivial)
  have hdaily : env.Daily room := by
    obtain ⟨f, hf⟩ := dated_of_reaches hreach
    rw [← hroom]
    refine hf.rooms k.inst ?_
    cases hst : (s₁.srv k.inst).started with
    | true => rfl
    | false =>
        rw [show s₁.conn k = Conn.unborn from (born_of_reaches hreach).unstarted hst] at hh
        cases hh
  have h0 : s₀.Keeps env room (s₀.world.postings room.roomId).length := by
    unfold Sys.Keeps
    rw [List.drop_eq_nil_of_le]
    · exact List.nil_suffix
    · rw [List.length_map]
      exact le_max_left _ _
  obtain ⟨-, hkeeps⟩ := Sys.keeps_run h hdaily h0 hday
  obtain ⟨hw, hsrv, htold⟩ := Sys.read_history hh hread
  have hnow : (system env).Reaches Free s₂ := hreach.step trivial
    (show (system env).step s₁ (.settle (.handler k) .answered v) = some s₂ from hread)
  have hF : s₂.Follows room.roomId k (s₁.world.postings room.roomId).length fun _ => False := by
    refine ⟨by rw [hsrv, hroom], fun x hx => ?_⟩
    rw [hw, List.drop_length] at hx
    cases hx
  have hfol := hF.run hnow hcalm
  have hto := htold.run hnow hcalm
  refine ⟨_, fun x hx => hkeeps.read x.2 ?_,
    fun x hx hk => (hfol.follows x hx hk).resolve_right id, hto⟩
  rw [← List.map_drop]
  exact List.mem_map_of_mem hx

namespace Demo

/-- A second client waits for its history. -/
def reading : List Label :=
  oneJoined ++ request 1 "b" ++ handshake 1 ++ joinChecked (conn 2) ++ [.resume (.handler (conn 2))]

/-- A message is sent after the read, and both are flushed before the welcome is sent. -/
def sentMeanwhile : List Label :=
  receive (conn 1) (.send { clientId := "d", text := "late", day := none }) ++ turns (conn 1) 1 ++
    [.resume (.handler (conn 1))] ++ turns (conn 1) 2 ++ [.resume (.handler (conn 1))] ++
    [.deliver 0, .deliver 0, .flush 0, .resume (.handler (conn 2))]

/-- The room of the day. -/
def today : DailyRoom := (env none).roomAt noon

/-- The handler waits for the history of the room. -/
def awaitsToday : Option Handler → Bool
  | some (.join (.history _ _ _ room .pending)) => decide (room = today)
  | _ => false

/-- One message is sent before the read, another after it. -/
def readBetween (s₀ : Sys) : Bool :=
  ((system (env none)).execs (fun s l => s.within today l) s₀ (sent (conn 1) "early")).any
    fun s₁ : Sys => (decide ((s₁.srv 0).room = today) &&
        awaitsToday (s₁.conn (conn 2)).handler &&
        ((s₁.world.postings today.roomId).drop (max (s₀.world.postings today.roomId).length
          ((s₁.world.postings today.roomId).length - 50))).any fun x => x.2.text = "early") &&
      (s₁.step (env none) (.settle (.handler (conn 2)) .answered false)).any fun s₂ : Sys =>
        ((system (env none)).execs (fun s l => s.calm (env none) (conn 2) l) s₂
          sentMeanwhile).any fun u : Sys =>
            ((u.world.postings today.roomId).drop (s₁.world.postings today.roomId).length).any
              fun x => decide (x.1 ≠ conn 2) && decide (x.2.text = "late")

end Demo

/-- A message that is sent before the read is in the history, and one that is sent after it
reaches the new client. -/
theorem welcomed_early : ∃ (u : Sys) (history : List StoredMessage)
    (x y : ConnKey × StoredMessage), (system (Demo.env none)).Reaches Free u ∧
    x.2.text = "early" ∧ x.2 ∈ history ∧ y.2.text = "late" ∧
    u.Reaching (Demo.conn 2) Demo.today.roomId y := by
  obtain ⟨s₀, h₀, hP⟩ := exists_reached_free (Demo.env none) Demo.readBetween Demo.noon Demo.reading
    (by decide +kernel)
  simp only [Demo.readBetween, Bool.and_eq_true, Option.any_eq_true, List.any_eq_true,
    decide_eq_true_eq] at hP
  obtain ⟨s₁, hs₁, ⟨⟨hroom, hh⟩, x, hx, hxt⟩, s₂, hread, u, hu, y, hy, hyk, hyt⟩ := hP
  have hday := Machine.run_of_execs (C := fun (s : Sys) l => s.within Demo.today l = true)
    (fun _ _ hc => hc) hs₁
  have hcalm := Machine.run_of_execs
    (C := fun (s : Sys) l => s.calm (Demo.env none) (Demo.conn 2) l = true) (fun _ _ hc => hc) hu
  obtain ⟨j, r, token, hh⟩ : ∃ j r token, (s₁.conn (Demo.conn 2)).handler =
      some (.join (.history j r token Demo.today .pending)) := by
    unfold Demo.awaitsToday at hh
    split at hh
    · rename_i j r token room heq
      rw [of_decide_eq_true hh] at heq
      exact ⟨j, r, token, heq⟩
    · cases hh
  obtain ⟨history, hbefore, hafter, -⟩ :=
    welcomed_of_reaches h₀ hday hroom hh hread hcalm
  have hreach : (system (Demo.env none)).Reaches Free u := by
    have h₁ : (system (Demo.env none)).Reaches Free s₁ := h₀.run (hday.mono fun _ _ _ => trivial)
    have h₂ : (system (Demo.env none)).Reaches Free s₂ :=
      h₁.step (l := .settle (.handler (Demo.conn 2)) .answered false) trivial hread
    exact h₂.run (hcalm.mono fun _ _ _ => trivial)
  exact ⟨u, history, x, y, hreach, hxt, hbefore x hx, hyt, hafter y hy hyk⟩

end RoomBackend
