import RoomBackend.Asks
import RoomBackend.Histories
import RoomBackend.Leases
import RoomBackend.Progress
import RoomBackend.Tickets

/-! # Who deletes yesterday

At midnight every instance switches its room and asks for the lock of the old one; who is granted
it deletes the history and the names of the old room. The lock is a lease of an hour, and a
deletion spends the grant of its instance. So in every run, whatever the instances do at the same
time and however often they try, a room is deleted at most once for each grant, grants are an
hour apart, and nothing else makes a history disappear (`cleanups_apart`). -/

namespace RoomBackend

open Async Day Lts Expiring Tickets

/-! ### The grants of a run -/

/-- The locks that were granted, with the instants, and the rooms deleted for them. -/
structure Cleanups where
  grants : List (String × ℤ)
  book : Book InstanceId String String

def resetLease : ℤ := 3600000

def Day.DailyRoom.resetKey (room : DailyRoom) : String := "reset:" ++ room.roomId

namespace Cleanups

/-- How often the lock was granted. -/
def times (g : Cleanups) (key : String) : ℕ := g.grants.countP fun x => x.1 = key

/-- How often the room was deleted. -/
def deletions (g : Cleanups) (roomId : String) : ℕ := g.book.spent.countP fun x => x.1 = roomId

/-- A lock is granted; the instance knows if it is answered. -/
def grant (g : Cleanups) (i : InstanceId) (key : String) (now : ℤ) (o : Outcome) : Cleanups :=
  { grants := (key, now) :: g.grants
    book := if o = .answered then g.book.draw i key (g.times key + 1) else g.book }

end Cleanups

/-- The grants and the deletions, after a step. -/
def Core.cleanups (c : Core) (l : Label) (g : Cleanups) : Cleanups :=
  match l with
  | .settle (.reset i) o _ =>
      match (c.srv i).rolling with
      | some (.acquire prev _ _) =>
          if o.applied ∧ (c.world.store.acquireOnce c.clock prev.resetKey resetLease).1 then
            g.grant i prev.resetKey c.clock o
          else g
      | some (.cleanup prev _ _) =>
          if o.applied then { g with book := g.book.spend i prev.roomId } else g
      | _ => g
  | _ => g

/-- The system, beside the grants of its locks. -/
def cleaning (env : Env) : Machine (Sys × Cleanups) Label :=
  (system env).beside ⟨[], .empty⟩ fun s l _ g => s.toCore.cleanups l g

/-! ### Locks -/

theorem Store.acquireOnce_lease (s : Store) (now : ℤ) (key : String) (ttlMs : ℤ) :
    (s.acquireOnce now key ttlMs).1 = (Leases.acquire s.locks now key ttlMs).1 ∧
      (s.acquireOnce now key ttlMs).2.locks = (Leases.acquire s.locks now key ttlMs).2 := by
  unfold Store.acquireOnce Leases.acquire
  dsimp only
  split <;> exact ⟨rfl, rfl⟩

/-- No other request touches the locks. -/
theorem Ask.locks {x : Ask} (hx : ∀ key ttlMs, x ≠ .store (.acquireOnce key ttlMs)) (now : ℤ)
    (s : Store) : (x.effect now s).locks = s.locks := by
  cases x with
  | store op =>
      cases op with
      | acquireOnce key ttlMs => exact absurd rfl (hx key ttlMs)
      | claimName roomId name sid expireAt =>
          obtain ⟨names, he, -⟩ := s.claimName_names now roomId name sid expireAt
          show (s.claimName now roomId name sid expireAt).2.locks = _
          rw [he]
      | blockTtl key =>
          show (s.blockTtl now key).2.locks = _
          rw [blockTtl_store]
      | _ => rfl
  | abuse e retentionMs =>
      obtain ⟨v, hv⟩ := s.addAbuseEvent_eq now e retentionMs
      rw [Ask.effect, hv]
  | _ => rfl

/-- Nor the histories, but for appends and deletions. -/
theorem Ask.lists {x : Ask} (hx : ∀ roomId, x ≠ .store (.deleteRoom roomId)) (now : ℤ)
    (s : Store) (roomId : String) (h : s.lists roomId ≠ none) :
    (x.effect now s).lists roomId ≠ none := by
  cases x with
  | store op =>
      cases op with
      | deleteRoom roomId => exact absurd rfl (hx roomId)
      | claimName roomId' name sid expireAt =>
          obtain ⟨names, he, -⟩ := s.claimName_names now roomId' name sid expireAt
          show (s.claimName now roomId' name sid expireAt).2.lists roomId ≠ none
          rw [he]
          exact h
      | blockTtl key =>
          show (s.blockTtl now key).2.lists roomId ≠ none
          rw [blockTtl_store]
          exact h
      | acquireOnce key ttlMs =>
          show (s.acquireOnce now key ttlMs).2.lists roomId ≠ none
          unfold Store.acquireOnce
          dsimp only
          split <;> exact h
      | appendMessage roomId' msg keep expireAt =>
          show Function.update s.lists roomId' _ roomId ≠ none
          by_cases he : roomId = roomId'
          · subst he
            simp
          · rwa [Function.update_of_ne he]
      | _ => exact h
  | abuse e retentionMs =>
      obtain ⟨v, hv⟩ := s.addAbuseEvent_eq now e retentionMs
      rw [Ask.effect, hv]
      exact h
  | _ => exact h

/-- The requests that only a reset makes. -/
def StoreOp.OfReset : StoreOp → Prop
  | acquireOnce _ _ | deleteRoom _ => True
  | _ => False

section ask

variable {env : Env} {info : AdmitInfo} {op : StoreOp}

theorem Handler.ask_ofReset {h : Handler} (ha : h.ask env info = some (.store op)) :
    ¬op.OfReset := by
  have saving : ∀ {req : Option SaveReq}, req.map SaveReq.ask = some (.store op) →
      ¬op.OfReset := by
    intro req he
    obtain ⟨q, -, he⟩ := Option.map_eq_some_iff.mp he
    cases he
    exact id
  have blocking : ∀ {b : BlockPc}, b.ask info = some (.store op) → ¬op.OfReset := by
    intro b he
    cases b with
    | save => exact saving he
    | _ =>
        cases he
        exact id
  cases h with
  | join p =>
      replace ha := Option.some.inj ha
      cases p with
      | create j p => cases p <;> cases ha <;> exact id
      | resume j token r => cases r <;> cases ha <;> exact id
      | _ =>
          cases ha
          exact id
  | send p =>
      cases p with
      | escalate l site e =>
          cases e with
          | returned => cases ha
          | challenge => exact saving ha
          | block => exact blocking ha
      | publish => cases ha
      | reply => cases ha
      | _ =>
          cases ha
          exact id
  | challenge p =>
      cases p with
      | verify => cases ha
      | block => exact blocking ha
      | _ => exact saving ha
  | report p => cases p <;> cases ha <;> exact id

/-- Locks are asked for and rooms deleted by resets only. -/
theorem Sys.ask_ofReset {s : Sys} {th : Thread} (ha : s.ask env th = some (.store op))
    (ho : op.OfReset) : ∃ i, th = .reset i := by
  cases th with
  | reset i => exact ⟨i, rfl⟩
  | handler k =>
      obtain ⟨x, -, ha⟩ := Option.bind_eq_some_iff.mp ha
      exact absurd ho (Handler.ask_ofReset ha)
  | rollover k =>
      obtain ⟨⟨now, next, p⟩, -, ha⟩ := Option.map_eq_some_iff.mp ha
      cases p <;> cases ha <;> exact absurd ho id
  | upgrade n =>
      obtain ⟨u, -, ha⟩ := Option.bind_eq_some_iff.mp ha
      unfold UpgradePc.ask at ha
      split at ha <;> cases ha <;> exact absurd ho id
  | task n =>
      obtain ⟨b, -, ha⟩ := Option.map_eq_some_iff.mp ha
      cases b with
      | persist =>
          cases ha
          exact absurd ho id
      | admin i a => cases a <;> cases ha <;> exact absurd ho id
  | chore n =>
      obtain ⟨b, -, ha⟩ := Option.map_eq_some_iff.mp ha
      cases b <;> cases ha

end ask

/-! ### Rollovers under way -/

/-- The room a rollover is about to delete. -/
def RollingPc.condemned : RollingPc → Option DailyRoom
  | acquire prev _ (.fulfilled true) | cleanup prev _ .pending => some prev
  | _ => none

def Core.condemned (c : Core) (i : InstanceId) : Option DailyRoom :=
  (c.srv i).rolling.bind RollingPc.condemned

theorem Core.condemned_congr {c c' : Core} {i : InstanceId}
    (h : (c'.srv i).rolling = (c.srv i).rolling) : c'.condemned i = c.condemned i := by
  unfold condemned
  rw [h]

section rolling

variable {env : Env} {up : ConnKey → Bool} {c c' : Core} {l : Label} {i j : InstanceId}

theorem Core.settle_srv {o : Outcome} {v : Bool} {th : Thread}
    (h : c.settle env o v th = some c') (hne : th ≠ .reset j) : c'.srv j = c.srv j := by
  cases th with
  | reset i =>
      obtain ⟨p, -, h⟩ := Option.bind_eq_some_iff.mp h
      obtain ⟨r, -, rfl⟩ := Option.map_eq_some_iff.mp h
      exact Function.update_of_ne (fun he => hne (congrArg Thread.reset he.symm)) _ _
  | chore n => cases h
  | _ =>
      obtain ⟨x, -, h⟩ := Option.bind_eq_some_iff.mp h
      obtain ⟨r, -, rfl⟩ := Option.map_eq_some_iff.mp h
      rfl

theorem Batches.condemned {prev next : DailyRoom} {rest : List ℕ}
    (h : Batches env i prev next c rest c') : c'.condemned i = none := by
  unfold Core.condemned
  cases h with
  | _ =>
      rw [Core.setReset_srv]
      rfl

/-- A rollover goes on to delete a room when it was granted the lock. -/
theorem ResetMove.condemned {p : RollingPc} (h : ResetMove env i c p c')
    (hp : (c.srv i).rolling = some p) : c'.condemned i = none ∨ c'.condemned i = c.condemned i := by
  cases h with
  | acquired =>
      refine Or.inr ?_
      unfold Core.condemned
      rw [Core.setReset_srv, hp]
      rfl
  | listed hq hb => exact Or.inl hb.condemned
  | next hb => exact Or.inl hb.condemned
  | _ =>
      refine Or.inl ?_
      unfold Core.condemned
      rw [Core.setReset_srv]
      rfl

/-- Only the instance that was answered can have come to delete something else. -/
theorem Core.condemned_ended {p : RollingPc} (hp : (c'.srv i).rolling = some p)
    (hn : p.condemned = none) (others : ∀ j, j ≠ i → c'.condemned j = c.condemned j)
    (j : InstanceId) : c'.condemned j = none ∨ c'.condemned j = c.condemned j := by
  by_cases hj : j = i
  · subst hj
    exact Or.inl (by rw [Core.condemned, hp, Option.bind_some, hn])
  · exact Or.inr (others j hj)

theorem Core.condemned_switch (c : Core) (next : DailyRoom) (hr : (c.srv i).rolling = none) :
    (c.switchRoom i next).condemned j = c.condemned j := by
  unfold condemned switchRoom
  by_cases hi : j = i
  · subst hi
    rw [Core.updSrv_srv, hr]
    rfl
  · rw [show ((c.updSrv i _).srv j) = c.srv j from Function.update_of_ne hi _ _]

/-- No instance comes to delete a room unless it is answered. -/
theorem CoreStep.condemned (hs : CoreStep env up c l c') (hl : ∀ th o v, l ≠ .settle th o v)
    (j : InstanceId) : c'.condemned j = none ∨ c'.condemned j = c.condemned j := by
  have same : ∀ {d : Core}, d.srv = c.srv → d.condemned j = none ∨ d.condemned j = c.condemned j :=
    fun hd => Or.inr (Core.condemned_congr (by rw [hd]))
  have upd : ∀ {d : Core} {i : InstanceId} {x : Srv}, d.srv = Function.update c.srv i x →
      x.rolling = (c.srv i).rolling → d.condemned j = none ∨ d.condemned j = c.condemned j := by
    intro d i x hd hx
    refine Or.inr (Core.condemned_congr ?_)
    rw [hd]
    by_cases hi : j = i
    · subst hi
      rwa [Function.update_self]
    · rw [Function.update_of_ne hi]
  have switched : ∀ {d : Core} {i : InstanceId} {next : DailyRoom}, (c.srv i).rolling = none →
      d.srv = (c.switchRoom i next).srv → d.condemned j = none ∨ d.condemned j = c.condemned j := by
    intro d i next hr hd
    refine Or.inr ((Core.condemned_congr ?_).trans (c.condemned_switch next hr))
    rw [hd]
  have closed : ∀ (d : Core) (k : ConnKey), d.srv = c.srv → (d.onClosed k).condemned j = none ∨
      (d.onClosed k).condemned j = c.condemned j := by
    intro d k hd
    refine Or.inr (Core.condemned_congr ?_)
    unfold Core.onClosed
    by_cases hi : j = k.inst
    · rw [hi, Core.updSrv_srv, hd]
      split <;> rfl
    · rw [Core.updSrv_srv_ne _ hi, hd]
  cases hs with
  | act hh ha =>
      rcases ha.srv with hs | ⟨j, r, token, p, ttl, -, -, -, rfl⟩ | ⟨he, -⟩
      · exact same hs
      · exact upd rfl rfl
      · cases he
  | handle hk hh ha =>
      rcases ha.srv with hs | ⟨j, r, token, p, ttl, -, -, -, rfl⟩ | ⟨-, -, hr, -, hs⟩
      · exact same hs
      · exact upd rfl rfl
      · exact switched hr hs
  | rollover hp hprev hm => exact same hm.srv
  | @reset i p c' hp hm =>
      by_cases hi : j = i
      · subst hi
        exact hm.condemned hp
      · refine Or.inr (Core.condemned_congr ?_)
        rw [hm.srv, Function.update_of_ne hi]
  | settle h => exact absurd rfl (hl _ _ _)
  | @tick i h =>
      rcases Core.checkRoom_cases env c i with hc | ⟨hr, -, hc⟩
      · exact same (by rw [hc])
      · exact switched hr (by rw [hc])
  | message hn =>
      unfold Core.onMessage
      split
      · exact same rfl
      · exact upd rfl rfl
  | close hc => exact closed _ _ rfl
  | closeSave hc hq => exact closed _ _ rfl
  | start h => exact upd rfl rfl
  | accept hu hpc hd => exact upd rfl rfl
  | flush => exact upd rfl rfl
  | stop => exact upd rfl rfl
  | _ => exact same rfl

end rolling

/-! ### The books of a run -/

namespace Cleanups

variable (g : Cleanups) (i : InstanceId) (key : String) (now : ℤ) (o : Outcome)

theorem grant_times : (g.grant i key now o).times =
    Function.update g.times key (g.times key + 1) := by
  funext x
  unfold times grant
  dsimp only
  by_cases hx : x = key
  · subst hx
    rw [Function.update_self, List.countP_cons_of_pos (by simp)]
  · rw [Function.update_of_ne hx, List.countP_cons_of_neg (by simpa using Ne.symm hx)]

theorem grant_spent : (g.grant i key now o).book.spent = g.book.spent := by
  unfold grant
  dsimp only
  split <;> rfl

theorem grant_held {j : InstanceId} (hj : j ≠ i) :
    (g.grant i key now o).book.held j = g.book.held j := by
  unfold grant
  dsimp only
  split
  · exact Function.update_of_ne hj _ _
  · rfl

theorem grant_sound (h : g.book.Sound g.times) :
    (g.grant i key now o).book.Sound (g.grant i key now o).times := by
  rw [grant_times]
  unfold grant
  dsimp only
  split
  · exact h.draw i key
  · refine h.mono fun x => ?_
    by_cases hx : x = key
    · subst hx
      rw [Function.update_self]
      exact Nat.le_succ _
    · rw [Function.update_of_ne hx]

end Cleanups

/-- The locks that were granted are held for their time, and who is about to delete a room has a
grant of its lock that was not used yet. -/
structure Leased (c : Core) (g : Cleanups) : Prop where
  locks : Leases.Sound resetLease c.world.store.locks c.clock g.grants
  book : g.book.Sound g.times
  held : ∀ i room, c.condemned i = some room → ∃ n, g.book.held i = some (room.resetKey, n)
  spent : ∀ e ∈ g.book.spent, ∃ n, e.2 = some ("reset:" ++ e.1, n)

namespace Leased

variable {env : Env} {s t : Sys} {c c' : Core} {l : Label} {g g' : Cleanups} {i : InstanceId}
  {o : Outcome} {v : Bool}

theorem initial (t : ℤ) : Leased (Sys.initial t).toCore ⟨[], .empty⟩ :=
  { locks := Leases.Sound.nil
    book := Book.sound_empty _
    held := fun _ _ h => by cases h
    spent := fun _ h => absurd h List.not_mem_nil }

/-- Nothing is granted, and nobody comes to delete a room. -/
theorem kept (h : Leased c g)
    (hl : Leases.Sound resetLease c'.world.store.locks c.clock g.grants) (hc : c.clock ≤ c'.clock)
    (hd : ∀ i, c'.condemned i = none ∨ c'.condemned i = c.condemned i) : Leased c' g :=
  { h with
    locks := hl.later hc
    held := fun i room hr => by
      rcases hd i with hn | hs
      · rw [hn] at hr
        cases hr
      · exact h.held i room (hs ▸ hr) }

/-- The rollover of an instance is answered. -/
theorem moved {p : RollingPc} (hl : Leases.Sound resetLease c'.world.store.locks c.clock g'.grants)
    (hb : g'.book.Sound g'.times) (hs : ∀ e ∈ g'.book.spent, ∃ n, e.2 = some ("reset:" ++ e.1, n))
    (hc : c'.clock = c.clock) (hp : (c'.srv i).rolling = some p)
    (ho : ∀ j, j ≠ i → c'.condemned j = c.condemned j ∧ g'.book.held j = g.book.held j)
    (hi : ∀ room, p.condemned = some room → ∃ n, g'.book.held i = some (room.resetKey, n))
    (h : Leased c g) : Leased c' g' :=
  { locks := hc ▸ hl
    book := hb
    spent := hs
    held := fun j room hr => by
      by_cases hj : j = i
      · subst hj
        rw [Core.condemned, hp] at hr
        exact hi room hr
      · rw [(ho j hj).1] at hr
        rw [(ho j hj).2]
        exact h.held j room hr }

/-- Only the request for a lock changes the locks. -/
theorem locks_landed {now : ℤ} {x : Option Ask} {st st' : Store} {grants : List (String × ℤ)}
    (h : st' = landed now o st x)
    (hx : ∀ y, x = some y → ∀ key ttlMs, y ≠ .store (.acquireOnce key ttlMs))
    (hl : Leases.Sound resetLease st.locks now grants) :
    Leases.Sound resetLease st'.locks now grants := by
  subst h
  unfold landed
  cases x with
  | none => exact hl
  | some y =>
      rw [Option.elim_some]
      split
      · rwa [Ask.locks (hx y rfl)]
      · exact hl

/-- The request for the lock of a room is settled. -/
theorem asked {prev next : DailyRoom} (h : Leased c g)
    (hp : (c.srv i).rolling = some (.acquire prev next .pending))
    (hp' : (c'.srv i).rolling = some (.acquire prev next (Promise.answer
      (World.onStore fun s => s.acquireOnce c.clock prev.resetKey resetLease) o c.world)))
    (hc : c'.clock = c.clock) (hstore : c'.world.store = landed c.clock o c.world.store
      (some (.store (.acquireOnce prev.resetKey resetLease))))
    (others : ∀ j, j ≠ i → c'.condemned j = c.condemned j) :
    Leased c' (c.cleanups (.settle (.reset i) o v) g) := by
  have hlease := c.world.store.acquireOnce_lease c.clock prev.resetKey resetLease
  have hlocks := h.locks.acquire prev.resetKey
  unfold Leases.granted at hlocks
  rw [← hlease.1, ← hlease.2] at hlocks
  rw [landed, Option.elim_some] at hstore
  by_cases hg : o.applied ∧ (c.world.store.acquireOnce c.clock prev.resetKey resetLease).1
  · have hcl : c.cleanups (.settle (.reset i) o v) g = g.grant i prev.resetKey c.clock o := by
      simp only [Core.cleanups, hp, if_pos hg]
    rw [if_pos hg.2] at hlocks
    rw [if_pos hg.1] at hstore
    rw [hcl]
    refine h.moved (hstore ▸ hlocks) (g.grant_sound i _ _ o h.book) ?_ hc hp'
      (fun j hj => ⟨others j hj, g.grant_held i _ _ o hj⟩) fun room hr => ?_
    · rw [g.grant_spent]
      exact h.spent
    · cases o with
      | answered =>
          rw [show Promise.answer _ .answered c.world = .fulfilled true from
            congrArg Promise.fulfilled hg.2] at hr
          cases hr
          exact ⟨g.times prev.resetKey + 1, Function.update_self ..⟩
      | refused => cases hr
      | timedOut => cases hr
  · have hcl : c.cleanups (.settle (.reset i) o v) g = g := by
      simp only [Core.cleanups, hp, if_neg hg]
    rw [hcl]
    refine h.kept ?_ hc.ge (Core.condemned_ended hp' ?_ others)
    · by_cases ha : o.applied
      · rw [if_neg fun hx => hg ⟨ha, hx⟩] at hlocks
        rw [if_pos ha] at hstore
        exact hstore ▸ hlocks
      · rw [if_neg ha] at hstore
        exact hstore ▸ h.locks
    · cases o with
      | answered =>
          rw [show Promise.answer _ .answered c.world = .fulfilled false from
            congrArg Promise.fulfilled (Bool.eq_false_iff.mpr fun hx => hg ⟨rfl, hx⟩)]
          rfl
      | refused => rfl
      | timedOut => rfl

/-- The deletion of a room is settled. -/
theorem deleted {prev next : DailyRoom} (h : Leased c g)
    (hp : (c.srv i).rolling = some (.cleanup prev next .pending))
    (hp' : (c'.srv i).rolling = some (.cleanup prev next (Promise.answer
      (World.onStore fun s => s.deleteRoom prev.roomId) o c.world)))
    (hc : c'.clock = c.clock) (hstore : c'.world.store = landed c.clock o c.world.store
      (some (.store (.deleteRoom prev.roomId))))
    (others : ∀ j, j ≠ i → c'.condemned j = c.condemned j) :
    Leased c' (c.cleanups (.settle (.reset i) o v) g) := by
  have hlocks := locks_landed hstore (fun y hy key ttlMs he => by cases hy; cases he) h.locks
  have hnone : (RollingPc.cleanup prev next (Promise.answer
      (World.onStore fun s => s.deleteRoom prev.roomId) o c.world)).condemned = none := by
    cases o <;> rfl
  by_cases ha : o.applied
  · have hcl : c.cleanups (.settle (.reset i) o v) g =
        { g with book := g.book.spend i prev.roomId } := by
      simp only [Core.cleanups, hp, if_pos ha]
    obtain ⟨n, hn⟩ := h.held i prev (by rw [Core.condemned, hp]; rfl)
    rw [hcl]
    refine h.moved hlocks (h.book.spend i prev.roomId) (fun e he => ?_) hc hp'
      (fun j hj => ⟨others j hj, Function.update_of_ne hj _ _⟩) fun room hr => ?_
    · rcases List.mem_append.mp he with he | he
      · exact h.spent e he
      · rw [List.mem_singleton.mp he]
        exact ⟨n, hn⟩
    · rw [hnone] at hr
      cases hr
  · have hcl : c.cleanups (.settle (.reset i) o v) g = g := by
      simp only [Core.cleanups, hp, if_neg ha]
    rw [hcl]
    exact h.kept hlocks hc.ge (Core.condemned_ended hp' hnone others)

/-- The answers to a rollover. -/
theorem reset (h : Leased c g) (hs : c.settle env o v (.reset i) = some c') :
    Leased c' (c.cleanups (.settle (.reset i) o v) g) := by
  have others : ∀ j, j ≠ i → c'.condemned j = c.condemned j := fun j hj =>
    Core.condemned_congr (by rw [Core.settle_srv hs fun he => hj (Thread.reset.inj he).symm])
  have hstore := Core.settle_store hs
  obtain ⟨p, hp, hs⟩ := Option.bind_eq_some_iff.mp hs
  obtain ⟨⟨p', w⟩, hset, hs⟩ := Option.map_eq_some_iff.mp hs
  have hp' : (c'.srv i).rolling = some p' := by rw [← hs, Core.setReset_srv]
  have hc : c'.clock = c.clock := by rw [← hs]; rfl
  rw [Core.ask, hp, Option.bind_some] at hstore
  cases p with
  | batch => cases hset
  | breathe => cases hset
  | acquire prev next q =>
      obtain ⟨⟨q', w'⟩, hq, he⟩ := Option.map_eq_some_iff.mp hset
      cases he
      obtain ⟨rfl, rfl, -⟩ := Promise.settle_eq_some.mp hq
      exact h.asked hp hp' hc hstore others
  | cleanup prev next q =>
      obtain ⟨⟨q', w'⟩, hq, he⟩ := Option.map_eq_some_iff.mp hset
      cases he
      obtain ⟨rfl, rfl, -⟩ := Promise.settle_eq_some.mp hq
      exact h.deleted hp hp' hc hstore others
  | log prev next q =>
      obtain ⟨⟨q', w'⟩, hq, he⟩ := Option.map_eq_some_iff.mp hset
      cases he
      have hcl : c.cleanups (.settle (.reset i) o v) g = g := by simp only [Core.cleanups, hp]
      rw [hcl]
      refine h.kept (locks_landed hstore ?_ h.locks) hc.ge (Core.condemned_ended hp' rfl others)
      intro x hx key ttlMs he
      cases hx
      cases he

theorem step (h : Leased s.toCore g) (hs : s.step env l = some t) :
    Leased t.toCore (s.toCore.cleanups l g) := by
  have hclock := Sys.clock_mono hs
  by_cases hl : ∀ th o v, l ≠ .settle th o v
  · have hcl : s.toCore.cleanups l g = g := by
      unfold Core.cleanups
      split
      · exact absurd rfl (hl _ _ _)
      · rfl
    rw [hcl]
    exact h.kept (Sys.store_kept hs hl ▸ h.locks) hclock ((Sys.coreStep hs).condemned hl)
  · push Not at hl
    obtain ⟨th, o, v, rfl⟩ := hl
    by_cases hth : ∃ i, th = .reset i
    · obtain ⟨i, rfl⟩ := hth
      obtain ⟨c, hc, rfl⟩ := Option.map_eq_some_iff.mp hs
      exact h.reset hc
    · have hcl : s.toCore.cleanups (.settle th o v) g = g := by
        unfold Core.cleanups
        split
        · rename_i he
          cases he
          exact absurd ⟨_, rfl⟩ hth
        · rfl
      rw [hcl]
      refine h.kept (locks_landed (Sys.settle_store hs) ?_ h.locks) hclock fun i => Or.inr ?_
      · rintro y hy key ttlMs rfl
        exact hth (Sys.ask_ofReset hy trivial)
      · refine Core.condemned_congr ?_
        have hcs := Sys.coreStep hs
        generalize t.toCore = c at hcs
        cases hcs with
        | same => rfl
        | settle hset => rw [Core.settle_srv hset fun he => hth ⟨i, he⟩]
        | settleChore => rfl

end Leased

theorem leased_of_reaches {env : Env} {x : Sys × Cleanups} (h : (cleaning env).Reaches Free x) :
    Leased x.1.toCore x.2 := by
  refine Machine.Reaches.beside (I := fun s g => Leased s.toCore g) ?_ ?_ h
  · rintro s ⟨t, rfl⟩
    exact Leased.initial t
  · intro s g l t hreach hs hI
    exact hI.step hs

/-- A history that is gone was deleted by a rollover. -/
theorem Sys.deleting {env : Env} {s t : Sys} {l : Label} {roomId : String}
    (hs : s.step env l = some t) (h : s.world.store.lists roomId ≠ none)
    (hn : t.world.store.lists roomId = none) :
    ∃ i o v prev next q, l = .settle (.reset i) o v ∧ o.applied ∧ prev.roomId = roomId ∧
      (s.srv i).rolling = some (.cleanup prev next q) := by
  by_cases hl : ∀ th o v, l ≠ .settle th o v
  · rw [Sys.store_kept hs hl] at hn
    exact absurd hn h
  push Not at hl
  obtain ⟨th, o, v, rfl⟩ := hl
  rw [Sys.settle_store hs] at hn
  unfold landed at hn
  cases hask : s.ask env th with
  | none =>
      rw [hask] at hn
      exact absurd hn h
  | some x =>
      rw [hask, Option.elim_some] at hn
      split at hn
      · rename_i happ
        by_cases hx : ∀ id, x ≠ .store (.deleteRoom id)
        · exact absurd hn (Ask.lists hx s.clock s.world.store roomId h)
        push Not at hx
        obtain ⟨id, rfl⟩ := hx
        obtain ⟨i, rfl⟩ := Sys.ask_ofReset hask trivial
        obtain ⟨p, hp, hpask⟩ := Option.bind_eq_some_iff.mp hask
        cases p with
        | cleanup prev next q =>
            cases hpask
            refine ⟨i, o, v, prev, next, q, rfl, happ, ?_, hp⟩
            by_contra hne
            exact h ((Map.erase_ne _ (Ne.symm hne)).symm.trans hn)
        | _ => cases hpask
      · exact absurd hn h

/-- **Cleanups.** In every run the grants of one lock are an hour apart, however many instances ask
for it; no room is deleted more often than its lock was granted; and a history that is gone was
deleted. -/
theorem cleanups_apart {env : Env} {x : Sys × Cleanups} (h : (cleaning env).Reaches Free x) :
    x.2.grants.Pairwise (fun a b => a.1 = b.1 → b.2 + resetLease ≤ a.2) ∧
      (∀ roomId, x.2.deletions roomId ≤ x.2.times ("reset:" ++ roomId)) ∧
      ∀ l y roomId, (cleaning env).step x l = some y → x.1.world.store.lists roomId ≠ none →
        y.1.world.store.lists roomId = none →
        y.2.deletions roomId = x.2.deletions roomId + 1 := by
  have hL := leased_of_reaches h
  refine ⟨hL.locks.apart, fun roomId => ?_, fun l y roomId hstep hx hy => ?_⟩
  · refine hL.book.countP_le (c := "reset:" ++ roomId) fun e he hroom => ?_
    obtain ⟨n, hn⟩ := hL.spent e he
    obtain rfl : e.1 = roomId := of_decide_eq_true hroom
    exact ⟨n, (hL.book.used (List.mem_filterMap.mpr ⟨e, he, hn⟩)).2, hn⟩
  · obtain ⟨t, ht, rfl⟩ := Option.map_eq_some_iff.mp hstep
    obtain ⟨i, o, v, prev, next, q, rfl, happ, rfl, hp⟩ := Sys.deleting ht hx hy
    have hcl : x.1.toCore.cleanups (.settle (.reset i) o v) x.2 =
        { x.2 with book := x.2.book.spend i prev.roomId } := by
      simp only [Core.cleanups, hp, if_pos happ]
    show (x.1.toCore.cleanups (.settle (.reset i) o v) x.2).deletions prev.roomId = _
    rw [hcl]
    unfold Cleanups.deletions Book.spend
    dsimp only
    rw [List.countP_append, List.countP_singleton, if_pos (decide_eq_true rfl)]

namespace Demo

/-- Two instances come to midnight; the second is granted the lock, the first is not. -/
def twoInstances : List Label :=
  oneJoined ++ [.start 1] ++ sent (conn 1) "hi" ++ [.clock midnight, .tick 0, .tick 1] ++
    turn (.reset 1) ++ turn (.reset 0)

end Demo

/-- A run of the theorem: both instances have asked, one of them deletes the room, once. -/
theorem cleanups_apart_once : ∃ (x y : Sys × Cleanups) (roomId : String),
    (cleaning (Demo.env none)).Reaches Free x ∧
    (cleaning (Demo.env none)).step x (.settle (.reset 1) .answered true) = some y ∧
    x.1.world.store.lists roomId ≠ none ∧ y.1.world.store.lists roomId = none ∧
    x.2.times ("reset:" ++ roomId) = 1 ∧ y.2.deletions roomId = x.2.deletions roomId + 1 := by
  have hdemo : ((cleaning (Demo.env none)).execs (fun _ _ => true)
      (Sys.initial (Demo.midnight - 1), ⟨[], .empty⟩) Demo.twoInstances).any
      (fun x => ((cleaning (Demo.env none)).step x (.settle (.reset 1) .answered true)).any
        fun y => (x.1.world.store.lists "2026-09-11").isSome &&
          (y.1.world.store.lists "2026-09-11").isNone &&
            decide (x.2.times ("reset:" ++ "2026-09-11") = 1)) = true := by
    decide +kernel
  obtain ⟨x, hx, hP⟩ := (Option.any_eq_true _ _).mp hdemo
  obtain ⟨y, hy, hP⟩ := (Option.any_eq_true _ _).mp hP
  obtain ⟨hP, htimes⟩ := Bool.and_eq_true_iff.mp hP
  obtain ⟨hsome, hnone⟩ := Bool.and_eq_true_iff.mp hP
  have hreach := Machine.reaches_of_execs (M := cleaning (Demo.env none)) (C := Free)
    (fun _ _ _ => trivial) ⟨⟨Demo.midnight - 1, rfl⟩, rfl⟩ hx
  have hne := Option.isSome_iff_ne_none.mp hsome
  have hgone := Option.isNone_iff_eq_none.mp hnone
  exact ⟨x, y, _, hreach, hy, hne, hgone, of_decide_eq_true htimes,
    (cleanups_apart hreach).2.2 _ y _ hy hne hgone⟩

end RoomBackend
