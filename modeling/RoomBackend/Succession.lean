import RoomBackend.Renewal

/-! # The sessions of one connection, one after another

A connection is given its first session by `join` and each later one by the rollover of its
server. The journal records every renewal with the room the server left. Each connection is
renewed at most once for each switch of the room; and as long as no `join` takes up a session
of the new room before the joined connections are listed, and nobody is left in an older room
when the room is switched, only sessions of the room that was left are renewed, so that any two
consecutive sessions of a connection are of different rooms. -/

namespace RoomBackend

open Async Day Lts

/-! ### Renewals in the journal -/

/-- The connection an entry says was renewed, and after how many switches of the room. -/
def Obs.renewal : Obs → Option (ConnKey × ℕ)
  | .rolled k n _ _ _ => some (k, n)
  | _ => none

/-- The renewals so far, in order. -/
def World.renewals (w : World) : List (ConnKey × ℕ) := w.journal.filterMap Obs.renewal

theorem ActLog.renewal {k : ConnKey} {up : Bool} {c : Core} {h : Option Handler} {log : List Obs}
    (hlog : ActLog k up c h log) : log.filterMap Obs.renewal = [] := by
  cases hlog <;> rfl

/-- Only the end of a connection's rollover adds a renewal. -/
theorem StepLog.renewal {env : Env} {up : ConnKey → Bool} {c : Core} {l : Label} {log : List Obs}
    (h : StepLog env up c l log) : log.filterMap Obs.renewal = [] ∨
      ∃ k p prev r token d, l = .resume (.rollover k) ∧ (c.conn k).rolling = some p ∧
        (∀ a b x y, (c.srv k.inst).rolling = some (.batch a b x y) → prev = a) ∧
        p.create.resume env c.draws = some (.done r token, d) ∧ (c.conn k).closed = false ∧
        log = [.rolled k (c.srv k.inst).resets prev ((c.conn k).record.getD r.toSessionIdent)
          r.toSessionIdent] := by
  cases h with
  | act hl hh hlog => exact Or.inl hlog.renewal
  | handle hl hk hh hlog => exact Or.inl hlog.renewal
  | rolled hl hp hprev hr hc => exact Or.inr ⟨_, _, _, _, _, _, hl, hp, hprev, hr, hc, rfl⟩
  | flushed hl =>
      refine Or.inl ?_
      rw [List.filterMap_append, List.filterMap_map]
      simp [Function.comp_def, Obs.renewal]
  | _ => exact Or.inl rfl

/-! ### At most once for each switch -/

/-- The rollover of the server has yet to renew the connection `n`. -/
def Berth.Due (b : Berth) (n : ℕ) : Prop :=
  b.renewing.isSome = true ∨ ∃ p, b.rolling = some p ∧ (p.listed = false ∨ n ∈ p.rest)

/-- No connection was renewed twice after the same switch, and one that is due was not renewed
after the last. -/
structure Once (c : Core) : Prop where
  nodup : c.world.renewals.Nodup
  le : ∀ k n, (k, n) ∈ c.world.renewals → n ≤ (c.srv k.inst).resets
  due : ∀ k n, (k, n) ∈ c.world.renewals → (c.berth k).Due k.seq → n < (c.srv k.inst).resets

theorem Shift.resets_le {env : Env} {c : Core} {l : Label} {k : ConnKey} {b : Berth}
    (h : Shift env c l k b) : (c.srv k.inst).resets ≤ b.resets := by
  cases h with
  | switch => exact Nat.le_succ _
  | _ => exact le_refl _

/-- A step makes a connection due by a switch of the room only. -/
theorem Shift.due {env : Env} {c : Core} {l : Label} {k : ConnKey} {b : Berth}
    (h : Shift env c l k b) (hd : b.Due k.seq) :
    (c.berth k).Due k.seq ∨ (c.srv k.inst).resets < b.resets := by
  -- listed for a later batch, or for this one
  have lists : ∀ {p : RollingPc} {ns : List ℕ}, (c.srv k.inst).rolling = some p →
      c.Lists k p ns → k.seq ∈ ns → (c.berth k).Due k.seq := by
    intro p ns hp hk hm
    rcases hk with ⟨hu, -⟩ | he
    · exact Or.inr ⟨p, hp, Or.inl hu⟩
    · exact Or.inr ⟨p, hp, Or.inr (by rw [he]; exact hm)⟩
  cases h with
  | switch => exact Or.inr (Nat.lt_succ_self _)
  | accept hseq =>
      rcases hd with hq | hp
      · cases hq
      · exact Or.inl (Or.inr hp)
  | creating hp =>
      refine Or.inl (Or.inl ?_)
      rw [show (c.berth k).renewing = _ from hp]
      rfl
  | dropped =>
      rcases hd with hq | hp
      · cases hq
      · exact Or.inl (Or.inr hp)
  | renewed =>
      rcases hd with hq | hp
      · cases hq
      · exact Or.inl (Or.inr hp)
  | waits hp hu => exact Or.inl (Or.inr ⟨_, hp, Or.inl hu⟩)
  | ended hp hk =>
      rcases hd with hq | ⟨p, hp, -⟩
      · exact Or.inl (Or.inl hq)
      · cases hp
  | batch hp hk =>
      rcases hd with hq | ⟨p, he, hu | hm⟩
      · exact Or.inl (Or.inl hq)
      · cases he
        cases hu
      · cases he
        exact Or.inl (lists hp hk (List.mem_append_right _ hm))
  | begins hp hk hm => exact Or.inl (lists hp hk (List.mem_append_left _ hm))
  | batched hp =>
      rcases hd with hq | ⟨p, he, hu | hm⟩
      · exact Or.inl (Or.inl hq)
      · cases he
        cases hu
      · cases he
        exact Or.inl (Or.inr ⟨_, hp, Or.inr hm⟩)
  | _ => exact Or.inl hd

/-- Once it has been renewed a connection of the current batch is due no more. -/
theorem Berth.Fits.renewed {b b' : Berth} {n : ℕ} {q : RolloverPc} (h : b.Fits n)
    (hq : b.renewing = some q) (hq' : b'.renewing = none) (hr : b'.rolling = b.rolling) :
    ¬ b'.Due n := by
  obtain ⟨-, -, prev, current, rest, hb, hm⟩ := h.renewing q hq
  rintro (hs | ⟨p, hp, hu⟩)
  · rw [hq'] at hs
    cases hs
  · rw [hr, hb] at hp
    cases hp
    rcases hu with hu | hu
    · cases hu
    · exact h.apart _ hb hm hu

theorem Once.step {env : Env} {up : ConnKey → Bool} {c c' : Core} {l : Label}
    (hs : CoreStep env up c l c') (hS : Seats c) (hR : Renewals c) (h : Once c) : Once c' := by
  -- what is known of the renewals of the old state
  have le : ∀ k n, (k, n) ∈ c.world.renewals → n ≤ (c'.srv k.inst).resets :=
    fun k n hm => (h.le k n hm).trans (hs.shift hS k).resets_le
  have due : ∀ k n, (k, n) ∈ c.world.renewals → (c'.berth k).Due k.seq →
      n < (c'.srv k.inst).resets := by
    intro k n hm hd
    rcases (hs.shift hS k).due hd with hd | hlt
    · exact (h.due k n hm hd).trans_le (hs.shift hS k).resets_le
    · exact (h.le k n hm).trans_lt hlt
  obtain ⟨log, hlog, hw⟩ := hs.world.log
  have hren : c'.world.renewals = c.world.renewals ++ log.filterMap Obs.renewal := by
    rw [World.renewals, hw, List.filterMap_append]
    rfl
  rcases hlog.renewal with hnil | ⟨k, p, prev, r, token, d, rfl, hp, hprev, hr, hc, rfl⟩
  · rw [hnil, List.append_nil] at hren
    exact ⟨hren ▸ h.nodup, fun k n hm => le k n (hren ▸ hm), fun k n hm => due k n (hren ▸ hm)⟩
  · -- the connection was due before and is not any more
    have hdue : (c.berth k).Due k.seq := Or.inl (by rw [show (c.berth k).renewing = _ from hp]; rfl)
    have hnew : c'.world.renewals = c.world.renewals ++ [(k, (c.srv k.inst).resets)] := hren
    obtain ⟨hsrv, hover⟩ : c'.srv = c.srv ∧ ¬ (c'.berth k).Due k.seq := by
      cases hs with
      | same => simp at hw
      | rollover hp' _ hm =>
          refine ⟨hm.srv, ?_⟩
          cases hm with
          | wait => simp [Core.setRolling, Core.updConn] at hw
          | closed => simp [Core.setRolling, Core.updConn] at hw
          | threw => simp [Core.setRolling, Core.updConn] at hw
          | enter =>
              rw [Core.rolloverEnter_berth]
              exact (hR.fits k).renewed hp' rfl rfl
    refine ⟨?_, fun j n hm => ?_, fun j n hm hd => ?_⟩
    · rw [hnew, List.nodup_append]
      refine ⟨h.nodup, by simp, ?_⟩
      rintro ⟨j, n⟩ hm x hx rfl
      rw [List.mem_singleton] at hx
      cases hx
      exact lt_irrefl _ (h.due _ _ hm hdue)
    · rw [hnew] at hm
      rcases List.mem_append.mp hm with hm | hm
      · exact le j n hm
      · rw [List.mem_singleton] at hm
        cases hm
        rw [hsrv]
    · rw [hnew] at hm
      rcases List.mem_append.mp hm with hm | hm
      · exact due j n hm hd
      · rw [List.mem_singleton] at hm
        cases hm
        exact absurd hd hover

theorem once_of_reaches {env : Env} {C : Sys → Label → Prop} {s : Sys}
    (h : (system env).Reaches C s) : Once s.toCore := by
  refine Machine.Reaches.invariant_of (J := fun s => Seats s.toCore ∧ Renewals s.toCore)
    (I := fun s => Once s.toCore)
    (fun s hs => ⟨seats_of_reaches hs, renewals_of_reaches hs⟩) ?_ ?_ h
  · rintro s ⟨t, rfl⟩
    exact ⟨List.nodup_nil, fun k n hm => absurd hm List.not_mem_nil,
      fun k n hm => absurd hm List.not_mem_nil⟩
  · intro s l t hJ hI _ hs
    exact hI.step (Sys.coreStep hs) hJ.1 hJ.2

/-! ### Only sessions of the room that was left -/

/-- A connection that is still to be renewed holds a session of the room that was left. -/
def Berth.OfOldRoom (b : Berth) (n : ℕ) : Prop :=
  ∀ p, b.rolling = some p → b.joined = true → b.closed = false → b.Due n →
    ∃ r, b.record = some r ∧ r.roomId = p.prev.roomId

/-- If the room of a server is to be switched now, every joined connection of it holds a
session of the room it leaves. -/
def Core.leavesNobody (env : Env) (c : Core) (i : InstanceId) : Bool :=
  (c.srv i).rolling.isSome || decide ((env.roomAt c.clock).roomId = (c.srv i).room.roomId) ||
    (c.srv i).conns.all fun n => !(c.conn ⟨i, n⟩).joined ||
      (c.conn ⟨i, n⟩).record.any fun r => decide (r.roomId = (c.srv i).room.roomId)

/-- No `join` takes up a session of the new room before the joined connections are listed, and
nobody is left in an older room when the room is switched. -/
def Sys.renewsOld (env : Env) (s : Sys) : Label → Bool
  | .resume (.handler k) =>
      match s.entering k, (s.srv k.inst).rolling with
      | some r, some p => p.listed || decide (r.roomId = p.prev.roomId)
      | _, _ => true
  | .tick i => s.leavesNobody env i
  | .handle k => !(s.conn k).joined || s.leavesNobody env k.inst
  | _ => true

theorem Core.leavesNobody_spec {env : Env} {c : Core} {k : ConnKey}
    (h : c.leavesNobody env k.inst = true) (hS : Seats c) (hr : (c.srv k.inst).rolling = none)
    (hn : (env.roomAt c.clock).roomId ≠ (c.roomOf k).roomId) (hj : (c.conn k).joined = true)
    (hc : (c.conn k).closed = false) :
    ∃ r, (c.conn k).record = some r ∧ r.roomId = (c.roomOf k).roomId := by
  have hm : k.seq ∈ (c.srv k.inst).conns := (hS.members k.inst k.seq).mpr hc
  have hne : decide ((env.roomAt c.clock).roomId = (c.srv k.inst).room.roomId) = false :=
    decide_eq_false hn
  rw [leavesNobody, hr, hne] at h
  have hk := List.all_eq_true.mp h k.seq hm
  rw [show c.conn ⟨k.inst, k.seq⟩ = c.conn k from rfl, hj] at hk
  obtain ⟨r, hrec, he⟩ := (Option.any_eq_true _ _).mp hk
  exact ⟨r, hrec, of_decide_eq_true he⟩

/-- A `join` that goes on to take up its session is of a connection that has not joined. -/
theorem JoinsOnce.unjoined {c : Core} (hJ : JoinsOnce c) {k : ConnKey} {r : SessionRecord}
    (he : c.entering k = some r) : (c.conn k).joined = false := by
  refine hJ k ?_
  unfold Core.entering at he
  split at he
  · rename_i hh
    rw [hh]
    rfl
  · cases he

theorem Shift.ofOldRoom {env : Env} {s : Sys} {l : Label} {k : ConnKey} {b : Berth}
    (h : Shift env s.toCore l k b) (hS : Seats s.toCore)
    (hJ : JoinsOnce s.toCore) (hR : Renewals s.toCore)
    (hl : s.renewsOld env l = true) (hI : (s.toCore.berth k).OfOldRoom k.seq) :
    b.OfOldRoom k.seq := by
  intro p hp hj hc hd
  have hdue := h.due hd
  cases h with
  | same => exact hI p hp hj hc hd
  | start hs =>
      have hr := hR.started _ hs
      rw [show (s.srv k.inst).rolling = _ from hp] at hr
      cases hr
  | accept hseq => cases hj
  | close hcl => cases hc
  | @enter r hl' he =>
      subst hl'
      refine ⟨r.toSessionIdent, rfl, ?_⟩
      have hun := hJ.unjoined he
      have hrolling : (s.srv k.inst).rolling = some p := hp
      rcases hd with hq | ⟨p', hp', hu | hm⟩
      · obtain ⟨q, hq⟩ := Option.isSome_iff_exists.mp hq
        have := ((hR.fits k).renewing q hq).1
        rw [show (s.toCore.berth k).joined = false from hun] at this
        cases this
      · obtain rfl : p = p' := Option.some.inj (hp.symm.trans hp')
        simp only [Sys.renewsOld, he, hrolling, hu, Bool.false_or, decide_eq_true_eq] at hl
        exact hl
      · have := (hR.fits k).joined p' hp' (List.mem_append_right _ hm)
        rw [show (s.toCore.berth k).joined = false from hun] at this
        cases this
  | switch hl' hnext hr hn =>
      cases hp
      subst hnext
      have hleave : s.leavesNobody env k.inst = true := by
        generalize k.inst = i at hl'
        cases hl' with
        | tick h => exact hl
        | handle hk hj' => simpa [Sys.renewsOld, hj'] using hl
      exact Core.leavesNobody_spec hleave hS hr hn hj hc
  | creating hp' => exact hI p hp hj hc (hdue.resolve_right (lt_irrefl _))
  | dropped => exact hI p hp hj hc (hdue.resolve_right (lt_irrefl _))
  | renewed hl' hp' => exact absurd hd ((hR.fits k).renewed hp' rfl rfl)
  | waits hp' hu hu' hprev =>
      cases hp
      rw [hprev]
      exact hI _ hp' hj hc (hdue.resolve_right (lt_irrefl _))
  | ended => cases hp
  | batch hp' =>
      cases hp
      have := hI _ hp' hj hc (hdue.resolve_right (lt_irrefl _))
      exact this
  | begins hp' =>
      cases hp
      have := hI _ hp' hj hc (hdue.resolve_right (lt_irrefl _))
      exact this
  | batched hp' =>
      cases hp
      have := hI _ hp' hj hc (hdue.resolve_right (lt_irrefl _))
      exact this

/-- Consecutive sessions are of different rooms. -/
def Berth.Changes (b : Berth) : Prop :=
  b.held.IsChain fun r r' => r.roomId ≠ r'.roomId

/-- The sessions of the renewals so far: the old one is of the room that was left, the new one
of another room. -/
def RenewedOld (w : World) : Prop :=
  ∀ k n prev old new, .rolled k n prev old new ∈ w.journal →
    old.roomId = prev.roomId ∧ new.roomId ≠ prev.roomId

/-- What the end of a connection's rollover finds: a session of the room left to be replaced by
one of the room entered. -/
theorem renewing_rooms {env : Env} {c : Core} {k : ConnKey} {p : RolloverPc} {r : SessionRecord}
    {token : Token} {d : ℕ} (hR : Renewals c) (hI : (c.berth k).OfOldRoom k.seq)
    (hp : (c.conn k).rolling = some p)
    (hr : p.create.resume env c.draws = some (.done r token, d))
    (hc : (c.conn k).closed = false) :
    ∃ prev old, (c.conn k).record = some old ∧ old.roomId = prev.roomId ∧
      r.roomId ≠ prev.roomId ∧
      ∃ current rest, (c.srv k.inst).rolling = some (.batch prev p.next current rest) := by
  have hF := hR.fits k
  obtain ⟨hj, ht, prev, current, rest, hb, hm⟩ := hF.renewing p hp
  have hdue : (c.berth k).Due k.seq := Or.inl (by rw [show (c.berth k).renewing = _ from hp]; rfl)
  obtain ⟨old, hold, he⟩ := hI _ hb hj hc hdue
  refine ⟨prev, old, hold, he, ?_, current, rest, hb⟩
  rw [CreatePc.targets_done hr ht]
  exact (hF.room _ hb).2.symm

/-- The invariant of the runs in which only old sessions are renewed. -/
structure Succession (c : Core) : Prop where
  old : ∀ k, (c.berth k).OfOldRoom k.seq
  changes : ∀ k, (c.berth k).Changes
  renewed : RenewedOld c.world

theorem Shift.changes {env : Env} {c : Core} {l : Label} {k : ConnKey} {b : Berth}
    (h : Shift env c l k b) (hJ : JoinsOnce c) (hR : Renewals c) (hH : (c.berth k).Holds)
    (hI : (c.berth k).OfOldRoom k.seq) (hC : (c.berth k).Changes) : b.Changes := by
  cases h with
  | accept => exact List.isChain_nil
  | @enter r hl he =>
      have hnil : (c.conn k).held = [] := hH.held_eq_nil (hJ.unjoined he)
      show ((c.conn k).held ++ [r.toSessionIdent]).IsChain _
      rw [hnil]
      exact List.isChain_singleton _
  | @renewed p r token d hl hp hr hc =>
      obtain ⟨prev, old, hold, he, hne, -⟩ := renewing_rooms hR hI hp hr hc
      have hlast : (c.conn k).held.getLast? = some old := hH.record.symm.trans hold
      show ((c.conn k).held ++ [r.toSessionIdent]).IsChain _
      rw [List.isChain_append]
      refine ⟨hC, List.isChain_singleton _, fun x hx y hy => ?_⟩
      rw [hlast] at hx
      cases hx
      cases hy
      rw [he]
      exact hne.symm
  | _ => exact hC

theorem Succession.step {env : Env} {s : Sys} {l : Label} {c' : Core}
    (hs : CoreStep env s.up s.toCore l c') (hS : Seats s.toCore)
    (hJ : JoinsOnce s.toCore) (hR : Renewals s.toCore) (hH : ∀ k, (s.toCore.berth k).Holds)
    (hl : s.renewsOld env l = true) (h : Succession s.toCore) : Succession c' := by
  refine ⟨fun k => (hs.shift hS k).ofOldRoom hS hJ hR hl (h.old k),
    fun k => (hs.shift hS k).changes hJ hR (hH k) (h.old k) (h.changes k), ?_⟩
  obtain ⟨log, hlog, hw⟩ := hs.world.log
  intro k n prev old new hm
  rw [hw] at hm
  rcases List.mem_append.mp hm with hm | hm
  · exact h.renewed k n prev old new hm
  · rcases hlog.renewal with hnil | ⟨j, p, a, r, token, d, -, hp, hprev, hr, hc, rfl⟩
    · have := List.mem_filterMap.mpr ⟨_, hm, (rfl : Obs.renewal (.rolled k n prev old new) = _)⟩
      rw [hnil] at this
      cases this
    · obtain ⟨b, old', hold, he, hne, current, rest, hb⟩ := renewing_rooms hR (h.old j) hp hr hc
      rw [hprev _ _ _ _ hb, hold] at hm
      cases List.mem_singleton.mp hm
      exact ⟨he, hne⟩

theorem succession_of_reaches {env : Env} {s : Sys}
    (h : (system env).Reaches (fun s l => s.renewsOld env l = true) s) : Succession s.toCore := by
  refine Machine.Reaches.invariant_of (J := fun s => Seats s.toCore ∧ JoinsOnce s.toCore ∧
      Renewals s.toCore ∧ ∀ k, (s.toCore.berth k).Holds)
    (I := fun s => Succession s.toCore)
    (fun s hs => ⟨seats_of_reaches hs, joinsOnce_of_reaches hs, renewals_of_reaches hs,
      holds_of_reaches hs⟩) ?_ ?_ h
  · rintro s ⟨t, rfl⟩
    exact ⟨fun k p hp => (Option.some_ne_none p hp.symm).elim, fun k => List.isChain_nil,
      fun k n prev old new hm => absurd hm List.not_mem_nil⟩
  · rintro s l t ⟨hS, hJ, hR, hH⟩ hI hl hs
    exact hI.step (Sys.coreStep hs) hS hJ hR hH hl

/-! ### Resets and renewals -/

/-- Every reset that was sent belongs to a renewal. -/
def ResetsRenewed (c : Core) : Prop :=
  ∀ k r token room, .reset r token room ∈ (c.conn k).announced →
    ∃ n prev old, .rolled k n prev old r ∈ c.world.journal

theorem ResetsRenewed.step {env : Env} {up : ConnKey → Bool} {c c' : Core} {l : Label}
    (hs : CoreStep env up c l c') (h : ResetsRenewed c) : ResetsRenewed c' := by
  intro k r token room hm
  have old : .reset r token room ∈ (c.conn k).announced →
      ∃ n prev old, .rolled k n prev old r ∈ c'.world.journal := by
    intro hm
    obtain ⟨n, prev, o, ho⟩ := h k r token room hm
    obtain ⟨log, -, hw⟩ := hs.world.log
    exact ⟨n, prev, o, by rw [hw]; exact List.mem_append_left _ ho⟩
  have ha := (hs.conn k).announces
  generalize hx : (c'.conn k).announced = x at ha hm
  cases ha with
  | same => exact old hm
  | accepted => cases hm
  | welcome =>
      rcases List.mem_append.mp hm with hm | hm
      · exact old hm
      · cases List.mem_singleton.mp hm
  | @reset p r' token' d hl hp hr hup =>
      rcases List.mem_append.mp hm with hm | hm
      · exact old hm
      · cases List.mem_singleton.mp hm
        subst hl
        -- the frames have grown, so this step was the end of the rollover
        cases hs with
        | same => simp at hx
        | rollover hp' _ hmv =>
            cases hmv with
            | wait => simp [Core.setRolling, Core.updConn] at hx
            | closed => simp [Core.setRolling, Core.updConn] at hx
            | threw => simp [Core.setRolling, Core.updConn] at hx
            | enter hr' hc =>
                rw [hp] at hp'
                cases hp'
                rw [hr] at hr'
                cases hr'
                exact ⟨_, _, _, List.mem_append_right _ (List.mem_singleton_self _)⟩

theorem resetsRenewed_of_reaches {env : Env} {C : Sys → Label → Prop} {s : Sys}
    (h : (system env).Reaches C s) : ResetsRenewed s.toCore := by
  refine Machine.Reaches.invariant (I := fun s => ResetsRenewed s.toCore) ?_ ?_ h
  · rintro s ⟨t, rfl⟩ k r token room hm
    cases hm
  · intro s l t hI _ hs
    exact hI.step (Sys.coreStep hs)

/-! ### Runs -/

/-- **Succession.** In every run in which no `join` takes up a session of the new room before
the joined connections are listed, and nobody is left in an older room when the room is
switched: consecutive sessions of a connection are of different rooms; every reset replaces a
session of the room that was left; no connection is renewed twice after one switch; and a
connection with a session of another room than the one left is not going to be renewed. -/
theorem renewed_of_reaches {env : Env} {s : Sys}
    (h : (system env).Reaches (fun s l => s.renewsOld env l = true) s) :
    (∀ k, (s.conn k).held.IsChain fun r r' => r.roomId ≠ r'.roomId) ∧
    (∀ k r token room, .reset r token room ∈ (s.conn k).announced →
      ∃ n prev old, .rolled k n prev old r ∈ s.world.journal) ∧
    (∀ k n prev old new, .rolled k n prev old new ∈ s.world.journal →
      old.roomId = prev.roomId ∧ new.roomId ≠ prev.roomId) ∧
    s.world.renewals.Nodup ∧
    ∀ k p r, (s.srv k.inst).rolling = some p → (s.conn k).closed = false →
      (s.conn k).record = some r → r.roomId ≠ p.prev.roomId → ¬ (s.toCore.berth k).Due k.seq := by
  have hI := succession_of_reaches h
  refine ⟨hI.changes, resetsRenewed_of_reaches h, hI.renewed, (once_of_reaches h).nodup, ?_⟩
  intro k p r hp hc hr hne hd
  have hj : (s.conn k).joined = true := by
    rw [show (s.conn k).joined = _ from (holds_of_reaches h k).joined]
    rw [show (s.toCore.berth k).record = _ from hr]
    rfl
  obtain ⟨r', hr', he⟩ := hI.old k p hp hj hc hd
  rw [show (s.toCore.berth k).record = _ from hr] at hr'
  cases hr'
  exact hne he

/-- Midnight passes, and the server switches rooms. -/
def switchesRoom : List Label := [.clock Demo.midnight, .tick 0]

/-- The server cleans up and lists the joined connections. -/
def cleansUp : List Label :=
  Demo.turn (.reset 0) ++ Demo.turn (.reset 0) ++ Demo.turn (.reset 0)

/-- The session of a connection is renewed. -/
def renews (k : ConnKey) : List Label :=
  Demo.turn (.rollover k) ++ Demo.turn (.rollover k) ++ Demo.turn (.rollover k)

/-- The frame is a welcome that names the session. -/
def Announcement.welcomes (r : SessionIdent) : Announcement → Bool
  | .welcome r' _ _ _ => decide (r' = r)
  | .reset _ _ _ => false

/-- The frame is a reset that names the session. -/
def Announcement.resets (r : SessionIdent) : Announcement → Bool
  | .welcome _ _ _ _ => false
  | .reset r' _ _ => decide (r' = r)

/-- The first two sessions of a connection, if it had two. -/
def Conn.firstTwo (x : Conn) : Option (SessionIdent × SessionIdent) :=
  match x.held with
  | [r, r'] => some (r, r')
  | _ => none

theorem Conn.held_of_firstTwo {x : Conn} {r r' : SessionIdent} (h : x.firstTwo = some (r, r')) :
    x.held = [r, r'] := by
  unfold firstTwo at h
  split at h
  · rename_i hx
    cases h
    exact hx
  · cases h

/-- A run of the theorem: a client that joined at noon is renewed at midnight. -/
theorem renewed_oneJoined : ∃ s,
    (system (Demo.env none)).Reaches (fun s l => s.renewsOld (Demo.env none) l = true) s ∧
      ∃ r r', (s.conn (Demo.conn 1)).held = [r, r'] ∧ r.roomId ≠ r'.roomId := by
  obtain ⟨s, hs, hP⟩ := exists_reached (Demo.env none) (Sys.renewsOld (Demo.env none))
    (fun s => (s.conn (Demo.conn 1)).firstTwo.isSome) Demo.noon
    (Demo.oneJoined ++ switchesRoom ++ cleansUp ++ renews (Demo.conn 1)
      ++ [.resume (.reset 0), .resume (.reset 0)]) (by decide +kernel)
  obtain ⟨⟨r, r'⟩, hr⟩ := Option.isSome_iff_exists.mp hP
  have hheld := Conn.held_of_firstTwo hr
  have hchain := (renewed_of_reaches hs).1 (Demo.conn 1)
  rw [hheld] at hchain
  exact ⟨s, hs, r, r', hheld, by simpa using hchain⟩

/-- A client joins the new room while the cleanup of the old one waits for the store. -/
def joinsEarly : List Label :=
  [.start 0] ++ switchesRoom ++ Demo.request 0 "a" ++ Demo.handshake 0 ++ Demo.joined (Demo.conn 1)
    ++ cleansUp ++ renews (Demo.conn 1)

/-- Without the condition a client that has just been welcomed to the new room is given
another session of it, and told so by a reset. -/
theorem renewed_twice : ∃ s, (system (Demo.env none)).Reaches Free s ∧
    ∃ r r', (s.conn (Demo.conn 1)).held = [r, r'] ∧ r.roomId = (s.srv 0).room.roomId ∧
      r'.roomId = (s.srv 0).room.roomId ∧ r.sid ≠ r'.sid ∧
      (∃ token room history, .welcome r token room history ∈ (s.conn (Demo.conn 1)).announced) ∧
      (∃ token room, .reset r' token room ∈ (s.conn (Demo.conn 1)).announced) ∧
      ¬ (s.conn (Demo.conn 1)).held.IsChain fun r r' => r.roomId ≠ r'.roomId := by
  obtain ⟨s, hs, hP⟩ := exists_reached_free (Demo.env none)
    (fun s => (s.conn (Demo.conn 1)).firstTwo.any fun (r, r') =>
      decide (r.roomId = (s.srv 0).room.roomId ∧ r'.roomId = (s.srv 0).room.roomId ∧
        r.sid ≠ r'.sid) && (s.conn (Demo.conn 1)).announced.any (Announcement.welcomes r) &&
        (s.conn (Demo.conn 1)).announced.any (Announcement.resets r'))
    Demo.noon joinsEarly (by decide +kernel)
  obtain ⟨⟨r, r'⟩, hr, hP⟩ := (Option.any_eq_true _ _).mp hP
  have hheld := Conn.held_of_firstTwo hr
  simp only [Bool.and_eq_true, decide_eq_true_eq, List.any_eq_true] at hP
  obtain ⟨⟨⟨h₁, h₂, hne⟩, ⟨a, ha, hw⟩⟩, ⟨b, hb, hres⟩⟩ := hP
  refine ⟨s, hs, r, r', hheld, h₁, h₂, hne, ?_, ?_, ?_⟩
  · cases a with
    | reset => cases hw
    | welcome x token room history => exact ⟨token, room, history, of_decide_eq_true hw ▸ ha⟩
  · cases b with
    | welcome => cases hres
    | reset x token room => exact ⟨token, room, of_decide_eq_true hres ▸ hb⟩
  · rw [hheld]
    simp [h₁, h₂]

end RoomBackend