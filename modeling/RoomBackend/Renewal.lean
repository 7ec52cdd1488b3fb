import Mathlib.Data.List.Chain
import RoomBackend.Census
import RoomBackend.Effects

/-! # The renewal of sessions at midnight

`RoomServer.rollover` switches the room, waits for the store, lists the joined connections and
renews their sessions in batches. `Berth` is the part of a connection and of its server that
takes part in this, `Shift` says what one step makes of it, and the invariants that need no
condition follow: who is being renewed, from which list, and how often. -/

namespace RoomBackend

open Async Day Lts

/-! ### The parts of a rollover -/

namespace RollingPc

/-- The room left. -/
def prev : RollingPc → DailyRoom
  | acquire prev _ _ | cleanup prev _ _ | log prev _ _ | batch prev _ _ _ | breathe prev _ _ => prev

/-- The room entered. -/
def next : RollingPc → DailyRoom
  | acquire _ next _ | cleanup _ next _ | log _ next _ | batch _ next _ _ | breathe _ next _ => next

/-- The list of joined connections has been taken. -/
def listed : RollingPc → Bool
  | batch _ _ _ _ | breathe _ _ _ => true
  | _ => false

/-- The batch under way. -/
def current : RollingPc → List ℕ
  | batch _ _ current _ => current
  | _ => []

/-- The connections of later batches. -/
def rest : RollingPc → List ℕ
  | batch _ _ _ rest | breathe _ _ rest => rest
  | _ => []

end RollingPc

/-- `create` makes a session of this room. -/
def CreatePc.Targets (room : DailyRoom) : CreatePc → Prop
  | claim room' _ _ _ _ _ => room' = room
  | save room' record _ _ => room' = room ∧ record.roomId = room.roomId
  | link room' record _ _ _ => room' = room ∧ record.roomId = room.roomId

theorem CreatePc.targets_settle {now : ℤ} {k : ConnKey} {o : Outcome} {p p' : CreatePc}
    {w w' : World} {room : DailyRoom} (h : p.settle now k o w = some (p', w'))
    (ht : p.Targets room) : p'.Targets room := by
  cases p with
  | claim room' input sid i candidate p =>
      obtain ⟨r, hr, he⟩ := Option.map_eq_some_iff.mp h
      rw [← (Prod.mk.inj he).1]
      exact ht
  | save room' record token p =>
      obtain ⟨r, hr, he⟩ := Option.map_eq_some_iff.mp h
      rw [← (Prod.mk.inj he).1]
      exact ht
  | link room' record token saved p =>
      obtain ⟨r, hr, he⟩ := Option.map_eq_some_iff.mp h
      rw [← (Prod.mk.inj he).1]
      exact ht

theorem CreatePc.targets_wait {env : Env} {d d' : ℕ} {p p' : CreatePc} {room : DailyRoom}
    (h : p.resume env d = some (.wait p', d')) (ht : p.Targets room) : p'.Targets room := by
  unfold CreatePc.resume at h
  split at h
  · rename_i room' input sid i candidate p
    split at h
    · cases h
    · cases h
    · cases h
      exact ⟨ht, congrArg DailyRoom.roomId ht⟩
    · split at h
      · cases h
        exact ht
      · cases h
  · split at h
    · cases h
    · cases h
      exact ht
    · cases h
      exact ht
  · split at h
    · cases h
    · cases h
    · split at h <;> cases h

theorem CreatePc.targets_done {env : Env} {d d' : ℕ} {p : CreatePc} {r : SessionRecord}
    {token : Token} {room : DailyRoom} (h : p.resume env d = some (.done r token, d'))
    (ht : p.Targets room) : r.roomId = room.roomId := by
  unfold CreatePc.resume at h
  split at h
  · split at h
    · cases h
    · cases h
    · cases h
    · split at h <;> cases h
  · split at h <;> cases h
  · split at h
    · cases h
    · cases h
    · split at h
      · cases h
        exact ht.2
      · cases h

/-! ### Berths -/

/-- What a connection and its server hold that takes part in renewals. -/
structure Berth where
  record : Option SessionIdent
  joined : Bool
  closed : Bool
  renewing : Option RolloverPc
  held : List SessionIdent
  room : DailyRoom
  rolling : Option RollingPc
  resets : ℕ

namespace Core

variable (c : Core) (k : ConnKey)

def berth : Berth :=
  { record := (c.conn k).record
    joined := (c.conn k).joined
    closed := (c.conn k).closed
    renewing := (c.conn k).rolling
    held := (c.conn k).held
    room := (c.roomOf k)
    rolling := (c.srv k.inst).rolling
    resets := (c.srv k.inst).resets }

/-- `ns` is what `RoomServer.rollover` goes on to renew from `p`: the joined connections, or
those that are left. -/
def Lists (p : RollingPc) (ns : List ℕ) : Prop :=
  (p.listed = false ∧ (k.seq ∈ ns ↔ (c.conn k).joined = true ∧ (c.conn k).closed = false)) ∨
    p = .breathe p.prev p.next ns

end Core

/-- What a step makes of the berth of `k`. -/
inductive Shift (env : Env) (c : Core) (l : Label) (k : ConnKey) : Berth → Prop
  | same : Shift env c l k (c.berth k)
  | start (hs : (c.srv k.inst).started = false) :
      Shift env c l k { c.berth k with room := env.roomAt c.clock }
  | accept (hseq : k.seq = (c.srv k.inst).seq + 1) :
      Shift env c l k
        { c.berth k with
          record := none, joined := false, closed := false, renewing := none, held := [] }
  | close (hc : (c.conn k).closed = false) : Shift env c l k { c.berth k with closed := true }
  | enter {r : SessionRecord} (hl : l = .resume (.handler k)) (he : c.entering k = some r) :
      Shift env c l k
        { c.berth k with
          record := some r.toSessionIdent
          joined := true
          held := (c.conn k).held ++ [r.toSessionIdent] }
  | switch {next : DailyRoom} (hl : Switches c l k.inst) (hnext : next = env.roomAt c.clock)
      (hr : (c.srv k.inst).rolling = none) (hn : next.roomId ≠ (c.roomOf k).roomId) :
      Shift env c l k
        { c.berth k with
          room := next
          rolling := some (.acquire (c.roomOf k) next .pending)
          resets := (c.srv k.inst).resets + 1 }
  | creating {p p' : RolloverPc} (hp : (c.conn k).rolling = some p) (hnext : p'.next = p.next)
      (ht : ∀ room, p.create.Targets room → p'.create.Targets room) :
      Shift env c l k { c.berth k with renewing := some p' }
  | dropped {p : RolloverPc} (hl : l = .resume (.rollover k)) (hp : (c.conn k).rolling = some p)
      (hd : (c.conn k).closed = true ∨ ∃ d, p.create.resume env c.draws = some (.threw, d)) :
      Shift env c l k { c.berth k with renewing := none }
  | renewed {p : RolloverPc} {r : SessionRecord} {token : Token} {d : ℕ}
      (hl : l = .resume (.rollover k)) (hp : (c.conn k).rolling = some p)
      (hr : p.create.resume env c.draws = some (.done r token, d))
      (hc : (c.conn k).closed = false) :
      Shift env c l k
        { c.berth k with
          record := some r.toSessionIdent
          held := (c.conn k).held ++ [r.toSessionIdent]
          renewing := none }
  | waits {p p' : RollingPc} (hp : (c.srv k.inst).rolling = some p) (hu : p.listed = false)
      (hu' : p'.listed = false) (hprev : p'.prev = p.prev) (hnext : p'.next = p.next) :
      Shift env c l k { c.berth k with rolling := some p' }
  | ended {p : RollingPc} (hp : (c.srv k.inst).rolling = some p) (hk : c.Lists k p []) :
      Shift env c l k { c.berth k with rolling := none }
  | batch {p : RollingPc} {current rest : List ℕ} (hp : (c.srv k.inst).rolling = some p)
      (hk : c.Lists k p (current ++ rest))
      (hc : k.seq ∈ current → (c.conn k).joined = true → (c.conn k).closed = false →
        (c.conn k).record ≠ none → (c.conn k).rolling ≠ none) :
      Shift env c l k { c.berth k with rolling := some (.batch p.prev p.next current rest) }
  | begins {p : RollingPc} {current rest : List ℕ} {q : RolloverPc}
      (hp : (c.srv k.inst).rolling = some p) (hk : c.Lists k p (current ++ rest))
      (hc : k.seq ∈ current) (hj : (c.conn k).joined = true)
      (hnext : q.next = p.next) (ht : q.create.Targets p.next) :
      Shift env c l k
        { c.berth k with
          rolling := some (.batch p.prev p.next current rest), renewing := some q }
  | batched {prev next : DailyRoom} {current rest : List ℕ}
      (hp : (c.srv k.inst).rolling = some (.batch prev next current rest))
      (hd : k.seq ∈ current → (c.conn k).rolling = none) :
      Shift env c l k { c.berth k with rolling := some (.breathe prev next rest) }

/-! ### Every step shifts a berth in one of these ways -/

section shifts

variable {env : Env} {c : Core} {l : Label} {k : ConnKey}

theorem Core.berth_of_roster {c d : Core} (h : c.roster = d.roster) (k : ConnKey) :
    c.berth k = d.berth k := by
  have he : c.roster.berth k = d.roster.berth k := by rw [h]
  exact he

/-- A change of another connection. -/
theorem Shift.of_conn_ne {c' : Core} {j : ConnKey} {x : Conn} (hk : k ≠ j)
    (hc : c'.conn = Function.update c.conn j x) (hs : c'.srv = c.srv) :
    Shift env c l k (c'.berth k) := by
  have he : c'.berth k = c.berth k := by
    rw [Core.berth, Core.roomOf, hc, hs, Function.update_of_ne hk]
    rfl
  rw [he]
  exact Shift.same

/-- A change of another server. -/
theorem Shift.of_srv_ne {c' : Core} {i : InstanceId} {v : Srv} (hi : k.inst ≠ i)
    (hc : c'.conn = c.conn) (hs : c'.srv = Function.update c.srv i v) :
    Shift env c l k (c'.berth k) := by
  have he : c'.berth k = c.berth k := by
    rw [Core.berth, Core.roomOf, hc, hs, Function.update_of_ne hi]
    rfl
  rw [he]
  exact Shift.same

theorem Core.onClosed_berth (c : Core) (j k : ConnKey) : (c.onClosed j).berth k = c.berth k := by
  unfold onClosed berth roomOf
  by_cases hi : k.inst = j.inst
  · rw [hi, updSrv_srv]
    split <;> rfl
  · rw [updSrv_srv_ne _ hi]
    rfl

theorem Core.accept_berth_ne (c : Core) (i : InstanceId) (info : AdmitInfo)
    (hk : k ≠ ⟨i, (c.srv i).seq + 1⟩) : (c.accept i info).berth k = c.berth k := by
  unfold berth roomOf
  rw [c.accept_conn i info, Function.update_of_ne hk]
  by_cases hi : k.inst = i
  · rw [hi, c.accept_srv]
  · rw [c.accept_srv_ne i info hi]

/-- The batches of `RoomServer.rollover` go on from `p` with the connections `ns`. -/
theorem Batches.shift {i : InstanceId} {p : RollingPc} {ns : List ℕ} {c' : Core}
    (hb : Batches env i p.prev p.next c ns c') (hp : (c.srv i).rolling = some p)
    (hk : ∀ k : ConnKey, k.inst = i → c.Lists k p ns) : Shift env c l k (c'.berth k) := by
  cases hb with
  | ended hnil =>
      subst hnil
      by_cases hi : k.inst = i
      · have he : (c.setReset i none).berth k = { c.berth k with rolling := none } := by
          unfold Core.berth Core.roomOf Core.setReset
          rw [hi, Core.updSrv_srv]
          rfl
        rw [he]
        exact Shift.ended (hi ▸ hp) (hk k hi)
      · exact Shift.of_srv_ne hi rfl rfl
  | @batch c₁ hne hb =>
      have hsplit := (List.take_append_drop RESET_BATCH ns).symm
      by_cases hi : k.inst = i
      · subst hi
        have hl : c.Lists k p (ns.take RESET_BATCH ++ ns.drop RESET_BATCH) := by
          rw [← hsplit]
          exact hk k rfl
        have he : ∀ x : Conn, c₁.conn k = x → (c₁.setReset k.inst
            (some (.batch p.prev p.next (ns.take RESET_BATCH) (ns.drop RESET_BATCH)))).berth k =
            { record := x.record, joined := x.joined, closed := x.closed, renewing := x.rolling
              held := x.held, room := c.roomOf k, resets := (c.srv k.inst).resets
              rolling := some (.batch p.prev p.next (ns.take RESET_BATCH)
                (ns.drop RESET_BATCH)) } := by
          rintro x rfl
          unfold Core.berth Core.roomOf Core.setReset
          rw [Core.updSrv_srv, hb.srv]
          rfl
        rcases hb.conn k with hx | ⟨hj, -, -, hm, d, input, -, hx⟩
        · rw [he _ hx]
          refine Shift.batch hp hl fun hm hj hc hr => ?_
          rw [← hx]
          exact hb.begun hm hj hc hr
        · rw [he _ hx]
          exact Shift.begins hp hl hm hj rfl rfl
      · have he : (c₁.setReset i (some (.batch p.prev p.next (ns.take RESET_BATCH)
            (ns.drop RESET_BATCH)))).berth k = c.berth k := by
          unfold Core.berth Core.roomOf Core.setReset
          rw [Core.updSrv_srv_ne _ hi, hb.srv]
          rcases hb.conn k with hx | ⟨-, -, hi', -⟩
          · exact congrArg (fun x : Conn => (⟨x.record, x.joined, x.closed, x.rolling, x.held,
              (c.srv k.inst).room, (c.srv k.inst).rolling, (c.srv k.inst).resets⟩ : Berth)) hx
          · exact absurd hi' hi
        rw [he]
        exact Shift.same

theorem ResetMove.shift {i : InstanceId} {p : RollingPc} {c' : Core}
    (hm : ResetMove env i c p c') (hp : (c.srv i).rolling = some p) (hS : Seats c) :
    Shift env c l k (c'.berth k) := by
  have setReset : ∀ q, k.inst = i →
      (c.setReset i q).berth k = { c.berth k with rolling := q } := by
    intro q hi
    unfold Core.berth Core.roomOf Core.setReset
    rw [hi, Core.updSrv_srv]
    rfl
  -- the list of joined connections
  have live : ∀ j : ConnKey, j.inst = i → p.listed = false → c.Lists j p (c.live i) := by
    rintro j rfl hu
    refine Or.inl ⟨hu, ?_⟩
    rw [Core.live, List.mem_filter, hS.members]
    exact and_comm
  cases hm with
  | acquired =>
      by_cases hi : k.inst = i
      · subst hi
        rw [setReset _ rfl]
        exact Shift.waits hp rfl rfl rfl rfl
      · exact Shift.of_srv_ne hi rfl rfl
  | cleaned =>
      by_cases hi : k.inst = i
      · subst hi
        rw [setReset _ rfl]
        exact Shift.waits hp rfl rfl rfl rfl
      · exact Shift.of_srv_ne hi rfl rfl
  | @listed prev next p c' hq hb =>
      rcases hq with ⟨q, rfl⟩ | ⟨q, rfl⟩ | ⟨q, rfl⟩
      · exact Batches.shift hb hp fun j hj => live j hj rfl
      · exact Batches.shift hb hp fun j hj => live j hj rfl
      · exact Batches.shift hb hp fun j hj => live j hj rfl
  | @batched prev next current rest hd =>
      by_cases hi : k.inst = i
      · subst hi
        rw [setReset _ rfl]
        refine Shift.batched hp fun hm => ?_
        exact Option.isNone_iff_eq_none.mp (List.all_eq_true.mp hd k.seq hm)
      · exact Shift.of_srv_ne hi rfl rfl
  | next hb => exact Batches.shift hb hp fun j _ => Or.inr rfl

/-- The berth of a connection that has been renewed. -/
theorem Core.rolloverEnter_berth (c : Core) (k : ConnKey) (sent : Bool) (p : RolloverPc)
    (prev : DailyRoom) (r : SessionRecord) (token : Token) :
    (c.rolloverEnter k sent p prev r token).berth k =
      { c.berth k with
        record := some r.toSessionIdent
        held := (c.conn k).held ++ [r.toSessionIdent]
        renewing := none } := by
  unfold Core.berth
  rw [Core.rolloverEnter_conn, Function.update_self]
  rfl

theorem RolloverMove.shift {up : Bool} {prev : DailyRoom} {p : RolloverPc} {c' : Core} {j : ConnKey}
    (hm : RolloverMove env j up prev c p c') (hp : (c.conn j).rolling = some p)
    (hl : l = .resume (.rollover j)) : Shift env c l k (c'.berth k) := by
  have setRolling : ∀ (d : ℕ) q, k = j →
      (({ c with draws := d } : Core).setRolling j q).berth k =
        { c.berth k with renewing := q } := by
    rintro d q rfl
    unfold Core.berth Core.setRolling
    rw [Core.updConn_conn]
    rfl
  cases hm with
  | wait hr =>
      by_cases hk : k = j
      · subst hk
        rw [setRolling _ _ rfl]
        exact Shift.creating hp rfl fun room ht => CreatePc.targets_wait hr ht
      · exact Shift.of_conn_ne hk rfl rfl
  | closed hr hc =>
      by_cases hk : k = j
      · subst hk
        rw [setRolling _ _ rfl]
        exact Shift.dropped hl hp (Or.inl hc)
      · exact Shift.of_conn_ne hk rfl rfl
  | threw hr =>
      by_cases hk : k = j
      · subst hk
        rw [setRolling _ _ rfl]
        exact Shift.dropped hl hp (Or.inr ⟨_, hr⟩)
      · exact Shift.of_conn_ne hk rfl rfl
  | @enter r token d hr hc =>
      by_cases hk : k = j
      · subst hk
        rw [Core.rolloverEnter_berth]
        exact Shift.renewed hl hp hr hc
      · exact Shift.of_conn_ne hk (Core.rolloverEnter_conn ..) rfl

end shifts

/-- Every step makes of each berth one of the listed ones. -/
theorem CoreStep.shift {env : Env} {up : ConnKey → Bool} {c c' : Core} {l : Label}
    (hs : CoreStep env up c l c') (hS : Seats c) (k : ConnKey) : Shift env c l k (c'.berth k) := by
  cases hs.roster with
  | same hc =>
      rw [Core.berth_of_roster hc]
      exact Shift.same
  | @start i c' hst hc =>
      rw [Core.berth_of_roster hc]
      by_cases hi : k.inst = i
      · subst hi
        have he : (c.start env k.inst).berth k = { c.berth k with room := env.roomAt c.clock } := by
          unfold Core.berth Core.roomOf Core.start
          dsimp only
          rw [Core.updSrv_srv]
          rfl
        rw [he]
        exact Shift.start hst
      · exact Shift.of_srv_ne hi rfl rfl
  | @accept n u c' hu hpc hd hc =>
      rw [Core.berth_of_roster hc]
      by_cases hk : k = ⟨u.inst, (c.srv u.inst).seq + 1⟩
      · have he : (c.accept u.inst u.info).berth k =
            { c.berth k with
              record := none, joined := false, closed := false, renewing := none, held := [] } := by
          unfold Core.berth Core.roomOf
          rw [hk, c.accept_conn_self, c.accept_srv]
          rfl
        rw [he]
        refine Shift.accept ?_
        rw [hk]
      · rw [c.accept_berth_ne _ _ hk]
        exact Shift.same
  | @close j c' hcl hc =>
      rw [Core.berth_of_roster hc, Core.onClosed_berth]
      by_cases hk : k = j
      · subst hk
        have he : (c.shut k).berth k = { c.berth k with closed := true } := by
          unfold Core.berth Core.shut
          rw [Core.updConn_conn]
          rfl
        rw [he]
        exact Shift.close hcl
      · exact Shift.of_conn_ne hk rfl rfl
  | @enter j r token c' he hc =>
      rw [Core.berth_of_roster hc]
      by_cases hk : k = j
      · subst hk
        have hb : (c.enter k r token).berth k =
            { c.berth k with
              record := some r.toSessionIdent
              joined := true
              held := (c.conn k).held ++ [r.toSessionIdent] } := by
          unfold Core.berth Core.roomOf Core.enter
          dsimp only
          rw [Core.updSrv_srv]
          simp [Core.updConn, Core.updSrv]
        rw [hb]
        exact Shift.enter rfl he
      · have hb : (c.enter j r token).berth k = c.berth k := by
          unfold Core.berth Core.roomOf Core.enter
          by_cases hi : k.inst = j.inst
          · rw [hi, Core.updSrv_srv]
            simp [Core.updConn, Core.updSrv, hk]
          · rw [Core.updSrv_srv_ne _ hi]
            simp [Core.updConn, Core.updSrv, hk]
        rw [hb]
        exact Shift.same
  | @welcome j jc r token room p history c' hh hp hc =>
      rw [Core.berth_of_roster hc]
      by_cases hk : k = j
      · subst hk
        have he : (c.announce k (up k) (.welcome r token room history)).berth k = c.berth k := by
          unfold Core.berth Core.announce
          rw [Core.updConn_conn]
          rfl
        rw [he]
        exact Shift.same
      · exact Shift.of_conn_ne hk rfl rfl
  | @switch l i next c' hl hnext hr hn hc =>
      rw [Core.berth_of_roster hc]
      by_cases hi : k.inst = i
      · subst hi
        have he : (c.switchRoom k.inst next).berth k =
            { c.berth k with
              room := next
              rolling := some (.acquire (c.roomOf k) next .pending)
              resets := (c.srv k.inst).resets + 1 } := by
          unfold Core.berth Core.roomOf Core.switchRoom
          rw [Core.updSrv_srv]
          rfl
        rw [he]
        exact Shift.switch hl hnext hr hn
      · exact Shift.of_srv_ne hi rfl rfl
  | @settleRollover j o v p p' w c' hp hr hc =>
      rw [Core.berth_of_roster hc]
      by_cases hk : k = j
      · subst hk
        have he : (c.setRolling k (some p')).berth k = { c.berth k with renewing := some p' } := by
          unfold Core.berth Core.setRolling
          rw [Core.updConn_conn]
          rfl
        rw [he]
        obtain ⟨⟨q, w'⟩, hq, he⟩ := Option.map_eq_some_iff.mp hr
        obtain ⟨rfl, rfl⟩ := Prod.mk.inj he
        exact Shift.creating hp rfl fun room ht => CreatePc.targets_settle hq ht
      · exact Shift.of_conn_ne hk rfl rfl
  | rollover hp hprev hm => exact hm.shift hp rfl
  | @settleReset i o v p p' w c' hp hr hc =>
      rw [Core.berth_of_roster hc]
      by_cases hi : k.inst = i
      · subst hi
        have he : (c.setReset k.inst (some p')).berth k =
            { c.berth k with rolling := some p' } := by
          unfold Core.berth Core.roomOf Core.setReset
          rw [Core.updSrv_srv]
          rfl
        rw [he]
        cases p with
        | acquire prev next q =>
            obtain ⟨r, hr, he⟩ := Option.map_eq_some_iff.mp hr
            obtain ⟨rfl, rfl⟩ := Prod.mk.inj he
            exact Shift.waits hp rfl rfl rfl rfl
        | cleanup prev next q =>
            obtain ⟨r, hr, he⟩ := Option.map_eq_some_iff.mp hr
            obtain ⟨rfl, rfl⟩ := Prod.mk.inj he
            exact Shift.waits hp rfl rfl rfl rfl
        | log prev next q =>
            obtain ⟨r, hr, he⟩ := Option.map_eq_some_iff.mp hr
            obtain ⟨rfl, rfl⟩ := Prod.mk.inj he
            exact Shift.waits hp rfl rfl rfl rfl
        | batch prev next current rest => cases hr
        | breathe prev next rest => cases hr
      · exact Shift.of_srv_ne hi rfl rfl
  | reset hp hm => exact hm.shift hp hS
  | @stop i c' hc =>
      rw [Core.berth_of_roster hc]
      have he : (c.updSrv i fun v => { v with shuttingDown := true }).berth k = c.berth k := by
        unfold Core.berth Core.roomOf
        by_cases hi : k.inst = i
        · rw [hi, Core.updSrv_srv]
          rfl
        · rw [Core.updSrv_srv_ne _ hi]
          rfl
      rw [he]
      exact Shift.same

/-! ### Who is being renewed -/

/-- What the rollover of a server has to do with one connection of it: the connection was
joined when it was listed; it is renewed as part of the current batch, with a session of the
new room. -/
structure Berth.Fits (b : Berth) (n : ℕ) : Prop where
  room : ∀ p, b.rolling = some p → p.next = b.room ∧ p.prev.roomId ≠ p.next.roomId
  apart : ∀ p, b.rolling = some p → n ∈ p.current → n ∉ p.rest
  joined : ∀ p, b.rolling = some p → n ∈ p.current ++ p.rest → b.joined = true
  renewing : ∀ q, b.renewing = some q → b.joined = true ∧ q.create.Targets q.next ∧
    ∃ prev current rest, b.rolling = some (.batch prev q.next current rest) ∧ n ∈ current

/-- The renewals of every connection fit the rollover of its server. -/
structure Renewals (c : Core) : Prop where
  started : ∀ i, (c.srv i).started = false → (c.srv i).rolling = none
  nodup : ∀ i p, (c.srv i).rolling = some p → (p.current ++ p.rest).Nodup
  fits : ∀ k, (c.berth k).Fits k.seq

/-- A connection is renewed during the batch it is in only. -/
theorem Berth.Fits.unrenewed {b : Berth} {n : ℕ} (h : b.Fits n) {p : RollingPc}
    (hp : b.rolling = some p) (hu : ∀ prev next current rest, p ≠ .batch prev next current rest) :
    b.renewing = none := by
  cases hq : b.renewing with
  | none => rfl
  | some q =>
      obtain ⟨-, -, prev, current, rest, hb, -⟩ := h.renewing q hq
      rw [hb] at hp
      exact absurd (Option.some.inj hp).symm (hu _ _ _ _)

theorem Core.Lists.not_batch {c : Core} {k : ConnKey} {p : RollingPc} {ns : List ℕ}
    (h : c.Lists k p ns) : ∀ prev next current rest, p ≠ .batch prev next current rest := by
  rintro prev next current rest rfl
  rcases h with ⟨hu, -⟩ | he
  · cases hu
  · cases he

/-- The listed connections are joined. -/
theorem Core.Lists.joined {c : Core} {k : ConnKey} {p : RollingPc} {ns : List ℕ}
    (h : c.Lists k p ns) (hp : (c.srv k.inst).rolling = some p) (hF : (c.berth k).Fits k.seq)
    (hm : k.seq ∈ ns) : (c.conn k).joined = true := by
  rcases h with ⟨-, hk⟩ | he
  · exact (hk.mp hm).1
  · refine hF.joined p hp ?_
    rw [he]
    exact hm

theorem Shift.fits {env : Env} {c : Core} {l : Label} {k : ConnKey} {b : Berth}
    (h : Shift env c l k b) (hB : Born c) (hR : Renewals c)
    (hN : ∀ p, b.rolling = some p → (p.current ++ p.rest).Nodup) : b.Fits k.seq := by
  have hF := hR.fits k
  have apart : ∀ p, b.rolling = some p → k.seq ∈ p.current → k.seq ∉ p.rest :=
    fun p hp hc hr => (List.nodup_append.mp (hN p hp)).2.2 _ hc _ hr rfl
  cases h with
  | same => exact hF
  | start hs =>
      have hr := hR.started _ hs
      refine ⟨fun p hp => ?_, apart, hF.joined, hF.renewing⟩
      rw [show (c.berth k).rolling = none from hr] at hp
      cases hp
  | accept hseq =>
      have hk : k = ⟨k.inst, (c.srv k.inst).seq + 1⟩ := by rw [← hseq]
      have hj : (c.conn k).joined = false := by
        rw [hk, hB.next k.inst]
        rfl
      refine ⟨hF.room, apart, fun p hp hm => ?_, fun q hq => by cases hq⟩
      have := hF.joined p hp hm
      rw [show (c.berth k).joined = false from hj] at this
      cases this
  | close hc => exact ⟨hF.room, apart, hF.joined, hF.renewing⟩
  | enter hl he =>
      refine ⟨hF.room, apart, fun p hp hm => rfl, fun q hq => ?_⟩
      exact ⟨rfl, (hF.renewing q hq).2⟩
  | switch hl hnext hr hn =>
      refine ⟨fun p hp => ?_, apart, fun p hp hm => ?_, fun q hq => ?_⟩
      · cases hp
        exact ⟨rfl, hn.symm⟩
      · cases hp
        cases hm
      · obtain ⟨-, -, prev, current, rest, hb, -⟩ := hF.renewing q hq
        rw [show (c.berth k).rolling = none from hr] at hb
        cases hb
  | @creating p p' hp hnext ht =>
      refine ⟨hF.room, apart, hF.joined, fun q hq => ?_⟩
      cases hq
      obtain ⟨hj, hc, prev, current, rest, hb, hm⟩ := hF.renewing p hp
      refine ⟨hj, ?_, prev, current, rest, ?_, hm⟩
      · rw [hnext]
        exact ht _ hc
      · rw [hnext]
        exact hb
  | dropped hl hp hd => exact ⟨hF.room, apart, hF.joined, fun q hq => by cases hq⟩
  | renewed hl hp hr hc => exact ⟨hF.room, apart, hF.joined, fun q hq => by cases hq⟩
  | @waits p p' hp hu hu' hprev hnext =>
      have hnone : (c.berth k).renewing = none := by
        refine hF.unrenewed hp ?_
        rintro prev next current rest rfl
        cases hu
      refine ⟨fun q hq => ?_, apart, fun q hq hm => ?_, fun q hq => ?_⟩
      · cases hq
        rw [hnext, hprev]
        exact hF.room p hp
      · cases hq
        cases p' with
        | batch prev next current rest => cases hu'
        | breathe prev next rest => cases hu'
        | _ => cases hm
      · rw [hnone] at hq
        cases hq
  | ended hp hk =>
      have hnone := hF.unrenewed hp hk.not_batch
      refine ⟨fun q hq => ?_, apart, fun q hq => ?_, fun q hq => ?_⟩
      · cases hq
      · cases hq
      · rw [hnone] at hq
        cases hq
  | @batch p current rest hp hk hc =>
      have hnone := hF.unrenewed hp hk.not_batch
      refine ⟨fun q hq => ?_, apart, fun q hq hm => ?_, fun q hq => ?_⟩
      · cases hq
        exact hF.room p hp
      · cases hq
        exact hk.joined hp hF hm
      · rw [hnone] at hq
        cases hq
  | @begins p current rest q hp hk hm hj hnext ht =>
      refine ⟨fun q' hq => ?_, apart, fun q' hq hm => hj, fun q' hq => ?_⟩
      · cases hq
        exact hF.room p hp
      · cases hq
        rw [hnext]
        exact ⟨hj, ht, _, _, _, rfl, hm⟩
  | @batched prev next current rest hp hd =>
      refine ⟨fun q hq => ?_, apart, fun q hq hm => ?_, fun q hq => ?_⟩
      · cases hq
        exact hF.room (.batch prev next current rest) hp
      · cases hq
        exact hF.joined _ hp (List.mem_append_right _ hm)
      · obtain ⟨-, -, prev', current', rest', hb, hm⟩ := hF.renewing q hq
        rw [show (c.berth k).rolling = some (.batch prev next current rest) from hp] at hb
        cases hb
        rw [show (c.berth k).renewing = none from hd hm] at hq
        cases hq

/-- The lists of a rollover are taken from the connections of its server. -/
theorem SrvStep.nodup {env : Env} {c : Core} {l : Label} {i : InstanceId} {v : Srv}
    (h : SrvStep env c l i v) (hS : Seats c)
    (hN : ∀ p, (c.srv i).rolling = some p → (p.current ++ p.rest).Nodup) :
    ∀ p, v.rolling = some p → (p.current ++ p.rest).Nodup := by
  -- the batches that are left of a list without repetitions
  have batches : ∀ {prev next : DailyRoom} {ns : List ℕ} {c' : Core}, ns.Nodup →
      Batches env i prev next c ns c' →
      ∀ p, (c'.srv i).rolling = some p → (p.current ++ p.rest).Nodup := by
    intro prev next ns c' hns hb p hp
    cases hb with
    | ended =>
        rw [Core.setReset, Core.updSrv_srv] at hp
        cases hp
    | batch =>
        rw [Core.setReset, Core.updSrv_srv] at hp
        cases hp
        show (ns.take RESET_BATCH ++ ns.drop RESET_BATCH).Nodup
        rwa [List.take_append_drop]
  cases h with
  | close hl hc hi =>
      subst hi
      intro p hp
      refine hN p ?_
      rw [← hp, Core.onClosed, Core.updSrv_srv]
      split <;> rfl
  | switch hl hr hn hnext =>
      intro p hp
      cases hp
      exact List.nodup_nil
  | @settleReset p p' o w hp hs =>
      intro q hq
      cases hq
      cases p with
      | acquire prev next r =>
          obtain ⟨r', hr, he⟩ := Option.map_eq_some_iff.mp hs
          rw [← (Prod.mk.inj he).1]
          exact List.nodup_nil
      | cleanup prev next r =>
          obtain ⟨r', hr, he⟩ := Option.map_eq_some_iff.mp hs
          rw [← (Prod.mk.inj he).1]
          exact List.nodup_nil
      | log prev next r =>
          obtain ⟨r', hr, he⟩ := Option.map_eq_some_iff.mp hs
          rw [← (Prod.mk.inj he).1]
          exact List.nodup_nil
      | batch prev next current rest => cases hs
      | breathe prev next rest => cases hs
  | @reset p c' hl hp hm =>
      cases hm with
      | acquired =>
          intro q hq
          rw [Core.setReset, Core.updSrv_srv] at hq
          cases hq
          exact List.nodup_nil
      | cleaned =>
          intro q hq
          rw [Core.setReset, Core.updSrv_srv] at hq
          cases hq
          exact List.nodup_nil
      | listed hq hb => exact batches ((hS.nodup i).filter _) hb
      | batched hd =>
          intro q hq
          rw [Core.setReset, Core.updSrv_srv] at hq
          cases hq
          exact (List.nodup_append.mp (hN _ hp)).2.1
      | next hb => exact batches (hN _ hp) hb
  | _ => exact hN

theorem SrvStep.idle {env : Env} {c : Core} {l : Label} {i : InstanceId} {v : Srv}
    (h : SrvStep env c l i v) (hB : Born c)
    (hI : (c.srv i).started = false → (c.srv i).rolling = none) (hv : v.started = false) :
    v.rolling = none := by
  cases h with
  | start => cases hv
  | @close k hl hc hi =>
      subst hi
      rw [Core.onClosed, Core.updSrv_srv] at hv ⊢
      have hs : (c.srv k.inst).started = false := by
        revert hv
        split <;> exact id
      have := hI hs
      split <;> exact this
  | switch hl =>
      have hs : (c.srv i).started = true := by
        cases hl with
        | tick h => exact (Bool.and_eq_true_iff.mp h).1
        | handle hk => exact hB.running _ hk
      rw [show (c.srv i).started = false from hv] at hs
      cases hs
  | settleReset hp =>
      rw [hI hv] at hp
      cases hp
  | reset hl hp =>
      rw [hI hv] at hp
      cases hp
  | _ => exact hI hv

theorem Renewals.step {env : Env} {up : ConnKey → Bool} {c c' : Core} {l : Label}
    (hs : CoreStep env up c l c') (hS : Seats c) (hB : Born c) (hR : Renewals c) :
    Renewals c' := by
  have nodup : ∀ i p, (c'.srv i).rolling = some p → (p.current ++ p.rest).Nodup :=
    fun i => (hs.srv i).nodup hS (hR.nodup i)
  exact ⟨fun i => (hs.srv i).idle hB (hR.started i), nodup,
    fun k => (hs.shift hS k).fits hB hR (nodup k.inst)⟩

theorem renewals_of_reaches {env : Env} {C : Sys → Label → Prop} {s : Sys}
    (h : (system env).Reaches C s) : Renewals s.toCore := by
  refine Machine.Reaches.invariant_of (J := fun s => Seats s.toCore ∧ Born s.toCore)
    (I := fun s => Renewals s.toCore)
    (fun s hs => ⟨seats_of_reaches hs, born_of_reaches hs⟩) ?_ ?_ h
  · rintro s ⟨t, rfl⟩
    exact ⟨fun i _ => rfl, fun i p hp => (Option.some_ne_none p hp.symm).elim,
      fun k => ⟨fun p hp => (Option.some_ne_none p hp.symm).elim,
        fun p hp => (Option.some_ne_none p hp.symm).elim,
        fun p hp => (Option.some_ne_none p hp.symm).elim,
        fun q hq => (Option.some_ne_none q hq.symm).elim⟩⟩
  · intro s l t hJ hI _ hs
    exact hI.step (Sys.coreStep hs) hJ.1 hJ.2

/-! ### The session a connection holds -/

/-- The session of a connection is the last one it was given, and it is joined when it has
one. -/
structure Berth.Holds (b : Berth) : Prop where
  record : b.record = b.held.getLast?
  joined : b.joined = b.record.isSome

theorem Shift.holds {env : Env} {c : Core} {l : Label} {k : ConnKey} {b : Berth}
    (h : Shift env c l k b) (hR : Renewals c) (hH : (c.berth k).Holds) : b.Holds := by
  cases h with
  | accept hseq => exact ⟨rfl, rfl⟩
  | enter hl he => exact ⟨by simp, rfl⟩
  | renewed hl hp hr hc =>
      have hj : (c.conn k).joined = true := ((hR.fits k).renewing _ hp).1
      exact ⟨by simp, hj⟩
  | _ => exact ⟨hH.record, hH.joined⟩

theorem holds_of_reaches {env : Env} {C : Sys → Label → Prop} {s : Sys}
    (h : (system env).Reaches C s) (k : ConnKey) : (s.toCore.berth k).Holds := by
  refine Machine.Reaches.invariant_of (J := fun s => Seats s.toCore ∧ Renewals s.toCore)
    (I := fun s => (s.toCore.berth k).Holds)
    (fun s hs => ⟨seats_of_reaches hs, renewals_of_reaches hs⟩) ?_ ?_ h
  · rintro s ⟨t, rfl⟩
    exact ⟨rfl, rfl⟩
  · intro s l t hJ hI _ hs
    exact ((Sys.coreStep hs).shift hJ.1 k).holds hJ.2 hI

theorem Berth.Holds.held_eq_nil {b : Berth} (h : b.Holds) (hj : b.joined = false) :
    b.held = [] := by
  rw [h.joined, h.record] at hj
  simpa using hj

theorem Berth.Holds.record_eq {b : Berth} (h : b.Holds) (hj : b.joined = true) :
    ∃ r, b.record = some r := by
  rw [h.joined] at hj
  exact Option.isSome_iff_exists.mp hj

/-! ### The frames announced to a connection -/

/-- What a step makes of the frames announced to a connection. -/
inductive Announces (env : Env) (up : Bool) (c : Core) (l : Label) (k : ConnKey) :
    List Announcement → Prop
  | same : Announces env up c l k (c.conn k).announced
  | accepted : Announces env up c l k []
  | welcome {j : JoinCtx} {r : SessionIdent} {token : Token} {room : DailyRoom}
      {p : Promise (List StoredMessage)} {history : List StoredMessage}
      (hl : l = .resume (.handler k))
      (hh : (c.conn k).handler = some (.join (.history j r token room p)))
      (hp : p.orElse [] = some history) (hup : up = true) :
      Announces env up c l k ((c.conn k).announced ++ [.welcome r token room history])
  | reset {p : RolloverPc} {r : SessionRecord} {token : Token} {d : ℕ}
      (hl : l = .resume (.rollover k)) (hp : (c.conn k).rolling = some p)
      (hr : p.create.resume env c.draws = some (.done r token, d)) (hup : up = true) :
      Announces env up c l k ((c.conn k).announced ++ [.reset r.toSessionIdent token p.next])

theorem ConnStep.announces {env : Env} {up : ConnKey → Bool} {c : Core} {l : Label} {k : ConnKey}
    {x : Conn} (h : ConnStep env up c l k x) : Announces env (up k) c l k x.announced := by
  cases h with
  | @act h₀ c₁ h' hl hh ha =>
      cases ha.roster with
      | same hc =>
          rw [show (c₁.conn k).announced = (c.conn k).announced from
            congrArg (fun d => (d.conn k).announced) hc]
          exact Announces.same
      | enter hp ht =>
          rw [Core.enter_conn]
          exact Announces.same
      | welcome hp =>
          rw [Core.announce_conn]
          dsimp only
          split
          · rename_i hup
            exact Announces.welcome hl hh hp hup
          · exact Announces.same
  | @handle c₁ h' hl hk hh ha =>
      cases ha.roster with
      | same hc =>
          rw [show (c₁.conn k).announced = (c.conn k).announced from
            congrArg (fun d => (d.conn k).announced) (hc.trans (Core.roster_take c k))]
          exact Announces.same
      | switch _ _ _ _ hc =>
          rw [show (c₁.conn k).announced = ((c.take k).conn k).announced from
            congrArg (fun d => (d.conn k).announced) hc, Core.take_conn]
          exact Announces.same
  | accepted => exact Announces.accepted
  | renewed hl hp hr hc =>
      dsimp only
      split
      · rename_i hup
        exact Announces.reset hl hp hr hup
      · exact Announces.same
  | _ => exact Announces.same

end RoomBackend
