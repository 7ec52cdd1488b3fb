import RoomBackend.Copies

/-! # Saves and the enforcement fields

A save writes the whole record of a session, so it takes back what another connection has
stored in the meantime: a block that was counted, a challenge that was issued or passed. It
takes nothing back as long as whoever saves has seen the enforcement fields that are stored. -/

namespace RoomBackend

open Async Day Lts

/-! ### Saves that have seen what is stored -/

/-- The save of a thread finds nothing stored, or enforcement fields that the connection's own save
was the last to change, or the revision its copy was read from, or the very fields it saves. The
verdict that was the last to assign the challenge flag is one of the fields: a save changes them
also when it stores the same flag as of another verdict. -/
def Core.savesSeen (c : Core) (th : Thread) : Bool :=
  match c.saving th with
  | none => true
  | some (k, req) =>
      match c.world.stored req.record.sid with
      | none => true
      | some (_, st) =>
          decide (st.author = k) || decide (st.rev = req.record.base) ||
            c.world.sameStanding req.record

/-- Whoever saves its copy of a session has seen the enforcement fields that are stored. -/
def Sys.savesSeen (s : Sys) : Label → Bool
  | .settle th o _ => !o.applied || s.toCore.savesSeen th
  | _ => true

theorem World.stored_eq_some {w : World} {sid : Sid} {old : SessionRecord} {st : SaveStamp}
    (h : w.stored sid = some (old, st)) :
    ∃ e, w.store.sess sid = some e ∧ e.v = old ∧ w.lastSave sid = some st := by
  obtain ⟨e, he, h⟩ := Option.bind_eq_some_iff.mp h
  obtain ⟨st', hst, h⟩ := Option.map_eq_some_iff.mp h
  obtain ⟨rfl, rfl⟩ := Prod.mk.inj h
  exact ⟨e, he, rfl, hst⟩

/-- A save by another connection than the last author takes nothing back. -/
theorem Copied.save_precedes {c : Core} {th : Thread} {k : ConnKey} {req : SaveReq}
    {old : SessionRecord} {st : SaveStamp} (h : Copied c) (hs : c.saving th = some (k, req))
    (hst : c.world.stored req.record.sid = some (old, st)) (hne : st.author ≠ k)
    (hseen : c.savesSeen th = true) : old.toStanding.Precedes req.record.toStanding := by
  obtain ⟨e, he, rfl, hlast⟩ := World.stored_eq_some hst
  simp only [Core.savesSeen, hs, hst, Bool.or_eq_true, decide_eq_true_eq] at hseen
  rcases hseen with (hk | hrev) | hsame
  · exact absurd hk hne
  · -- the copy was read from the stored revision
    obtain ⟨-, st', n, hlast', hn, hR⟩ := h.stamped _ e he
    obtain rfl : st' = st := Option.some.inj (hlast'.symm.trans hlast)
    obtain ⟨k', t, hR', hp⟩ := (h.saving hs).since n (hrev.symm.trans hn)
    exact (hR.same hR').precedes.trans hp
  · obtain ⟨e', he', hsm⟩ := World.sameStanding_spec hsame
    obtain rfl : e' = e := Option.some.inj (he'.symm.trans he)
    exact hsm.precedes

/-! ### Runs -/

/-- Every save so far over fields that another connection was the last to change. -/
def World.Enforced (w : World) : Prop :=
  ∀ (i : ℕ) (k : ConnKey) (r old : SessionRecord) (st : SaveStamp),
    w.journal[i]? = some (.saved k r (some (old, st))) → st.author ≠ k →
    old.toStanding.Precedes r.toStanding ∧ w.Flags r.sid r.toStanding ∧ r.flagged ≤ i

theorem World.Enforced.step {env : Env} {s : Sys} {l : Label} {c' : Core}
    (hs : CoreStep env s.up s.toCore l c') (hC : Copied s.toCore) (hl : s.savesSeen l = true)
    (h : s.world.Enforced) : c'.world.Enforced := by
  obtain ⟨log, hlog, hj⟩ := hs.world.log
  intro i k r old st hi hne
  by_cases hlt : i < s.world.journal.length
  · rw [hj, List.getElem?_append_left hlt] at hi
    obtain ⟨hp, hf, hle⟩ := h i k r old st hi hne
    exact ⟨hp, hf.mono hj, hle⟩
  · -- the save is that of this step
    rw [hj, List.getElem?_append_right (not_lt.mp hlt)] at hi
    have hm : Obs.saved k r (some (old, st)) ∈ log := List.mem_of_getElem? hi
    cases hlog with
    | @saved th o v k' req hl' ho hsv =>
        obtain ⟨rfl, rfl, hst⟩ : k = k' ∧ r = req.record ∧
            some (old, st) = s.world.stored req.record.sid := by
          simpa using hm
        subst hl'
        have hseen : s.toCore.savesSeen th = true := by
          simpa [Sys.savesSeen, ho] using hl
        have hc := hC.saving hsv
        exact ⟨hC.save_precedes hsv hst.symm hne hseen, hc.flags.mono hj,
          hc.flags.le.trans (not_lt.mp hlt)⟩
    | act hl' hh hlog => cases hlog <;> simp at hm
    | handle hl' hk hh hlog => cases hlog <;> simp at hm
    | _ => simp at hm

theorem enforcedSaves_of_reaches {env : Env} {s : Sys}
    (h : (system env).Reaches (fun s l => s.savesSeen l = true) s) : s.world.Enforced := by
  refine Machine.Reaches.invariant_of (J := fun s => Copied s.toCore)
    (I := fun s => s.world.Enforced) (fun s hs => copied_of_reaches hs) ?_ ?_ h
  · rintro s ⟨t, rfl⟩ i k r old st hi
    cases hi
  · intro s l t hC hI hl hs
    exact hI.step (Sys.coreStep hs) hC hl

/-- **No enforcement update is lost.** In every run in which whoever saves its copy of a session
has seen the enforcement fields that are stored (the blocks, and the challenge flag with the verdict
that was the last to assign it): no save over fields that another connection was the last to change
lowers the number of blocks; it clears the challenge flag only if a challenge
of the session was passed after the stored flag was assigned, and sets it only if one was issued
after that. -/
theorem enforced_of_reaches {env : Env} {s : Sys}
    (h : (system env).Reaches (fun s l => s.savesSeen l = true) s) {i : ℕ} {k : ConnKey}
    {r old : SessionRecord} {st : SaveStamp}
    (hi : s.world.journal[i]? = some (.saved k r (some (old, st)))) (hne : st.author ≠ k) :
    old.blocks ≤ r.blocks ∧
    (old.challengePending = true → r.challengePending = false →
      ∃ n k', old.flagged ≤ n ∧ n < i ∧ s.world.journal[n]? = some (.passed k' r.sid)) ∧
    (old.challengePending = false → r.challengePending = true →
      ∃ n k', old.flagged ≤ n ∧ n < i ∧ s.world.journal[n]? = some (.issued k' r.sid)) := by
  obtain ⟨hp, hf, hle⟩ := enforcedSaves_of_reaches h i k r old st hi hne
  -- a flag that differs was assigned later
  have later : old.challengePending ≠ r.challengePending → ∃ n k', old.flagged ≤ n ∧ n < i ∧
      s.world.journal[n]? =
        some (if r.challengePending then .issued k' r.sid else .passed k' r.sid) := by
    intro hd
    rcases hp.flag with ⟨he, -⟩ | hlt
    · exact absurd he.symm hd
    · obtain ⟨n, hn⟩ := Nat.exists_eq_succ_of_ne_zero (Nat.ne_zero_of_lt hlt)
      obtain ⟨k', hk'⟩ := hf n hn
      exact ⟨n, k', by omega, by omega, hk'⟩
  refine ⟨hp.blocks, fun ho hr => ?_, fun ho hr => ?_⟩
  · obtain ⟨n, k', hn, hni, hk'⟩ := later (by rw [ho, hr]; decide)
    rw [hr] at hk'
    exact ⟨n, k', hn, hni, hk'⟩
  · obtain ⟨n, k', hn, hni, hk'⟩ := later (by rw [ho, hr]; decide)
    rw [hr] at hk'
    exact ⟨n, k', hn, hni, hk'⟩

/-! ### Two connections of one session -/

/-- An upgrade request of a scripted client: no `Origin`, a telling user agent. -/
def botRequest (n : ℕ) : List Label :=
  [.upgrade 0 { path := "/ws", origin := none, ip := "a", automatedUA := true, ipCountry := none }]
    ++ Demo.turn (.upgrade n) ++ Demo.turn (.upgrade n) ++ Demo.turn (.upgrade n)

/-- A client joins with a resume token. -/
def rejoins (k : ConnKey) (token : Token) : List Label :=
  Demo.receive k (.join (some token) none) ++ Demo.turns k 5

/-- A scripted client joins. -/
def botJoined : List Label :=
  [.start 0] ++ botRequest 0 ++ Demo.handshake 0 ++ Demo.joined (Demo.conn 1)

/-- A second connection resumes its session. -/
def twoJoined : List Label :=
  botJoined ++ Demo.request 1 "b" ++ Demo.handshake 1 ++ rejoins (Demo.conn 2) 1

/-- Four binary frames and a message: the session is blocked, up to the save. -/
def misbehaves : List Label :=
  List.replicate 4 (.frame (Demo.conn 1) .binary)
    ++ Demo.receive (Demo.conn 1) (.send { clientId := "c", text := "x", day := none })
    ++ Demo.turns (Demo.conn 1) 3 ++ [.settle (.handler (Demo.conn 1)) .answered false]

/-- The last entry of the journal is a save by this connection over fields that another one was
the last to change. -/
def World.lastSaved (w : World) (k : ConnKey) :
    Option (ℕ × SessionRecord × SessionRecord × SaveStamp) :=
  match w.journal.getLast? with
  | some (.saved k' r (some (old, st))) =>
      if k' = k ∧ st.author ≠ k then some (w.journal.length - 1, r, old, st) else none
  | _ => none

theorem World.lastSaved_spec {w : World} {k : ConnKey} {i : ℕ} {r old : SessionRecord}
    {st : SaveStamp} (h : w.lastSaved k = some (i, r, old, st)) :
    w.journal[i]? = some (.saved k r (some (old, st))) ∧ st.author ≠ k := by
  unfold World.lastSaved at h
  split at h
  · rename_i k' r' old' st' hl
    split at h
    · rename_i hk
      cases h
      obtain ⟨rfl, hne⟩ := hk
      rw [List.getLast?_eq_getElem?] at hl
      exact ⟨hl, hne⟩
    · cases h
  · cases h

/-- A run of the theorem: a second connection resumes a session and saves it. -/
theorem enforced_twoJoined : ∃ s,
    (system (Demo.env none)).Reaches (fun s l => s.savesSeen l = true) s ∧
      ∃ (i : ℕ) (r old : SessionRecord) (st : SaveStamp),
        s.world.journal[i]? = some (.saved (Demo.conn 2) r (some (old, st))) ∧
        st.author = Demo.conn 1 ∧ old.blocks ≤ r.blocks := by
  obtain ⟨s, hs, hP⟩ := exists_reached (Demo.env none) Sys.savesSeen
    (fun s => (s.world.lastSaved (Demo.conn 2)).any fun x => x.2.2.2.author = Demo.conn 1)
    Demo.noon
    (twoJoined ++ [.persistTimeout (Demo.conn 2), .settle (.task 0) .answered false])
    (by decide +kernel)
  obtain ⟨⟨i, r, old, st⟩, hl, ha⟩ := (Option.any_eq_true _ _).mp hP
  obtain ⟨hi, hne⟩ := World.lastSaved_spec hl
  exact ⟨s, hs, i, r, old, st, hi, of_decide_eq_true ha, (enforced_of_reaches hs hi hne).1⟩

/-- Without the condition the second connection's delayed save takes back the block that the
first has just stored. -/
theorem enforced_lost : ∃ s, (system (Demo.env none)).Reaches Free s ∧
    ∃ (i : ℕ) (r old : SessionRecord) (st : SaveStamp),
      s.world.journal[i]? = some (.saved (Demo.conn 2) r (some (old, st))) ∧
      st.author = Demo.conn 1 ∧ r.blocks < old.blocks := by
  obtain ⟨s, hs, hP⟩ := exists_reached_free (Demo.env none)
    (fun s => (s.world.lastSaved (Demo.conn 2)).any fun x =>
      decide (x.2.2.2.author = Demo.conn 1 ∧ x.2.1.blocks < x.2.2.1.blocks)) Demo.noon
    (twoJoined ++ misbehaves
      ++ [.persistTimeout (Demo.conn 2), .settle (.task 0) .answered false])
    (by decide +kernel)
  obtain ⟨⟨i, r, old, st⟩, hl, hb⟩ := (Option.any_eq_true _ _).mp hP
  obtain ⟨ha, hlt⟩ := of_decide_eq_true hb
  exact ⟨s, hs, i, r, old, st, (World.lastSaved_spec hl).1, ha, hlt⟩

end RoomBackend
