import RoomBackend.Sockets
import RoomBackend.Succession

/-! # No connection is left in an older room

While no rollover is in progress, the session of every open joined connection is of the room
of its server. A connection that is due to be renewed may be behind; one that is not is up to
date (`Abreast`), as long as every `join` takes up its session either in the room in force or
before the joined connections are listed. -/

namespace RoomBackend

open Async Day Lts

/-- The connection holds a session of the room of its server. -/
def Berth.Current (b : Berth) : Prop := ∃ r, b.record = some r ∧ r.roomId = b.room.roomId

/-- An open joined connection that is not due to be renewed holds a session of the room. -/
def Berth.Abreast (b : Berth) (n : ℕ) : Prop :=
  ¬ b.Due n → b.joined = true → b.closed = false → b.Current

/-- Every `join` takes up a session of the room in force, or does so before the joined
connections are listed. -/
def Sys.entersToday (s : Sys) : Label → Bool
  | .resume (.handler k) =>
      match s.entering k with
      | none => true
      | some r =>
          decide (r.roomId = (s.srv k.inst).room.roomId) ||
            (s.srv k.inst).rolling.any fun p => !p.listed
  | _ => true

/-- The listed connections of `p` were due. -/
theorem Core.Lists.due {c : Core} {k : ConnKey} {p : RollingPc} {ns : List ℕ}
    (h : c.Lists k p ns) (hp : (c.srv k.inst).rolling = some p)
    (hR : (c.berth k).Fits k.seq) (hd : (c.berth k).Due k.seq) (hj : (c.conn k).joined = true)
    (hc : (c.conn k).closed = false) : k.seq ∈ ns := by
  rcases h with ⟨hu, hk⟩ | he
  · exact hk.mpr ⟨hj, hc⟩
  · rcases hd with hq | ⟨p', hp', hu | hm⟩
    · rw [hR.unrenewed hp (by rw [he]; intro _ _ _ _ h; cases h)] at hq
      cases hq
    · obtain rfl : p = p' := Option.some.inj (hp.symm.trans hp')
      rw [he] at hu
      cases hu
    · obtain rfl : p = p' := Option.some.inj (hp.symm.trans hp')
      rw [he] at hm
      exact hm

theorem Shift.abreast {env : Env} {s t : Sys} {l : Label} {k : ConnKey} {b : Berth}
    (h : Shift env s.toCore l k b) (hs : s.step env l = some t) (hB : Born s.toCore)
    (hR : Renewals s.toCore) (hH : (s.toCore.berth k).Holds) (ht : t.Opened k)
    (hl : s.entersToday l = true) (hI : (s.toCore.berth k).Abreast k.seq) :
    b.Abreast k.seq := by
  have hF := hR.fits k
  intro hd hj hc
  cases h with
  | same => exact hI hd hj hc
  | start hst =>
      have hun : (s.conn k).joined = false := by
        rw [hB.unstarted hst]
        rfl
      exact absurd (hun.symm.trans hj) Bool.false_ne_true
  | accept => cases hj
  | close => cases hc
  | @enter r hl' he =>
      subst hl'
      refine ⟨r.toSessionIdent, rfl, ?_⟩
      simp only [Sys.entersToday, he, Bool.or_eq_true, decide_eq_true_eq] at hl
      rcases hl with hroom | hu
      · exact hroom
      · -- a `join` before the listing is due
        obtain ⟨p, hp, hu⟩ := (Option.any_eq_true _ _).mp hu
        exact absurd (Or.inr ⟨p, hp, Or.inl (by simpa using hu)⟩) hd
  | switch => exact absurd (Or.inr ⟨_, rfl, Or.inl rfl⟩) hd
  | creating => exact absurd (Or.inl rfl) hd
  | dropped hl' hp hx =>
      rcases hx with hcl | ⟨d, hr⟩
      · cases hcl.symm.trans hc
      · subst hl'
        exact absurd ht (Sys.rollover_threw hs hp hr)
  | @renewed p r token d hl' hp hr hcl =>
      obtain ⟨-, htg, prev, current, rest, hb, -⟩ := hF.renewing p hp
      refine ⟨r.toSessionIdent, rfl, ?_⟩
      rw [show r.toSessionIdent.roomId = p.next.roomId from CreatePc.targets_done hr htg]
      exact congrArg DailyRoom.roomId (hF.room _ hb).1
  | waits hp hu hu' => exact absurd (Or.inr ⟨_, rfl, Or.inl hu'⟩) hd
  | ended hp hk =>
      refine hI (fun hdue => ?_) hj hc
      have hm := hk.due hp hF hdue hj hc
      cases hm
  | @batch p current rest hp hk hcur =>
      refine hI (fun hdue => hd ?_) hj hc
      rcases List.mem_append.mp (hk.due hp hF hdue hj hc) with hm | hm
      · -- a connection of the current batch is being renewed
        obtain ⟨r, hrec⟩ := hH.record_eq hj
        have hne : (s.conn k).record ≠ none := fun h =>
          Option.some_ne_none r (hrec.symm.trans h)
        exact Or.inl (Option.isSome_iff_ne_none.mpr (hcur hm hj hc hne))
      · exact Or.inr ⟨_, rfl, Or.inr hm⟩
  | begins => exact absurd (Or.inl rfl) hd
  | @batched prev next current rest hp hx =>
      refine hI (fun hdue => hd ?_) hj hc
      rcases hdue with hq | ⟨p, hp', hu | hm⟩
      · exact Or.inl hq
      · cases hp.symm.trans hp'
        cases hu
      · cases hp.symm.trans hp'
        exact Or.inr ⟨_, rfl, Or.inr hm⟩

theorem abreast_of_reaches {env : Env} {s : Sys}
    (h : (system env).Reaches (fun s l => s.entersToday l = true) s) :
    ∀ k, s.Opened k → (s.toCore.berth k).Abreast k.seq := by
  refine Machine.Reaches.invariant_of (J := fun s => Seats s.toCore ∧ Born s.toCore ∧
      Renewals s.toCore ∧ (∀ k, (s.toCore.berth k).Holds) ∧ s.Polite)
    (I := fun s => ∀ k, s.Opened k → (s.toCore.berth k).Abreast k.seq)
    (fun s hs => ⟨seats_of_reaches hs, born_of_reaches hs, renewals_of_reaches hs,
      holds_of_reaches hs, Sys.polite_of_reaches hs⟩) ?_ ?_ h
  · rintro s ⟨t, rfl⟩ k ho
    cases ho
  · rintro s l t ⟨hS, hB, hR, hH, hP⟩ hI hl hs k ho
    rcases Sys.step_opened hP hs ho with ho' | hj
    · exact ((Sys.coreStep hs).shift hS k).abreast hs hB hR (hH k) ho hl (hI k ho')
    · intro _ hj'
      exact absurd (hj.symm.trans hj') Bool.false_ne_true

/-- **The day boundary.** In every run in which each `join` takes up a session of the room in
force, or does so before the joined connections are listed: while no rollover of its server is
in progress, the session of every open joined connection is of the server's room. -/
theorem current_of_reaches {env : Env} {s : Sys}
    (h : (system env).Reaches (fun s l => s.entersToday l = true) s) {k : ConnKey}
    (hr : (s.srv k.inst).rolling = none) (hj : (s.conn k).joined = true)
    (hc : (s.conn k).closed = false) (ho : s.Opened k) :
    ∃ r, (s.conn k).record = some r ∧ r.roomId = (s.srv k.inst).room.roomId := by
  refine abreast_of_reaches h k ho ?_ hj hc
  rintro (hq | ⟨p, hp, -⟩)
  · obtain ⟨q, hq⟩ := Option.isSome_iff_exists.mp hq
    obtain ⟨-, -, prev, current, rest, hb, -⟩ := ((renewals_of_reaches h).fits k).renewing q hq
    cases hr.symm.trans hb
  · cases hr.symm.trans hp

/-- A quiet joined connection: no rollover of its server and no handler of its own is in
progress, and its socket is open. -/
def Sys.idlesIn (s : Sys) (k : ConnKey) : Bool :=
  decide ((s.srv k.inst).rolling = none) && decide ((s.conn k).handler = none) &&
    (s.conn k).joined && !(s.conn k).closed && decide ((s.side k).socket.state = .opened)

theorem Sys.idlesIn_spec {s : Sys} {k : ConnKey} (h : s.idlesIn k = true) :
    (s.srv k.inst).rolling = none ∧ (s.conn k).handler = none ∧ (s.conn k).joined = true ∧
      (s.conn k).closed = false ∧ s.Opened k := by
  simpa [idlesIn, Opened, and_assoc] using h

/-- A run of the theorem: a client that joined at noon is of the new room after midnight. -/
theorem current_oneJoined : ∃ s,
    (system (Demo.env none)).Reaches (fun s l => s.entersToday l = true) s ∧
      (s.srv 0).resets = 1 ∧
      ∃ r, (s.conn (Demo.conn 1)).record = some r ∧ r.roomId = (s.srv 0).room.roomId := by
  obtain ⟨s, hs, hP⟩ := exists_reached (Demo.env none) Sys.entersToday
    (fun s => s.idlesIn (Demo.conn 1) && decide ((s.srv 0).resets = 1)) Demo.noon
    (Demo.oneJoined ++ switchesRoom ++ cleansUp ++ renews (Demo.conn 1)
      ++ [.resume (.reset 0), .resume (.reset 0)]) (by decide +kernel)
  obtain ⟨hidle, hone⟩ := Bool.and_eq_true_iff.mp hP
  obtain ⟨hr, -, hj, hc, ho⟩ := Sys.idlesIn_spec hidle
  exact ⟨s, hs, of_decide_eq_true hone, current_of_reaches hs hr hj hc ho⟩

/-- Midnight passes while a `join` waits for the block lookup, and the joined connections are
listed before it goes on. -/
def joinsLate : List Label :=
  [.start 0] ++ Demo.request 0 "a" ++ Demo.handshake 0 ++ Demo.joinChecked (Demo.conn 1)
    ++ switchesRoom ++ cleansUp ++ [.resume (.handler (Demo.conn 1))]
    ++ Demo.turns (Demo.conn 1) 1

/-- Without the condition a connection keeps yesterday's session: nothing is in progress, and
its session is not of the server's room. -/
theorem current_yesterday : ∃ s, (system (Demo.env none)).Reaches Free s ∧
    (s.srv 0).rolling = none ∧ (s.conn (Demo.conn 1)).handler = none ∧
    (s.conn (Demo.conn 1)).joined = true ∧ (s.conn (Demo.conn 1)).closed = false ∧
    s.Opened (Demo.conn 1) ∧
    ∃ r, (s.conn (Demo.conn 1)).record = some r ∧ r.roomId ≠ (s.srv 0).room.roomId := by
  obtain ⟨s, hs, hP⟩ := exists_reached_free (Demo.env none)
    (fun s => s.idlesIn (Demo.conn 1) && (s.conn (Demo.conn 1)).record.any fun r =>
      decide (r.roomId ≠ (s.srv 0).room.roomId)) Demo.noon joinsLate (by decide +kernel)
  obtain ⟨hidle, hrec⟩ := Bool.and_eq_true_iff.mp hP
  obtain ⟨hr, hh, hj, hc, ho⟩ := Sys.idlesIn_spec hidle
  obtain ⟨r, hrec, hne⟩ := (Option.any_eq_true _ _).mp hrec
  exact ⟨s, hs, hr, hh, hj, hc, ho, r, hrec, of_decide_eq_true hne⟩

end RoomBackend
