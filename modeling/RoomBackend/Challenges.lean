import RoomBackend.Copies
import RoomBackend.Succession
import RoomBackend.Enforcement

/-! # Challenges and the renewal of a session

`Connection.rollover` copies the challenge flag before it waits for the new session, while
`startChallenge` and `challengeResponse` assign the flag of a record they captured before their
own awaits. The flag of the session held tells whether a challenge is outstanding on the
connection as long as no challenge is issued or passed while a rollover of it is under way, and
a challenge that is passed is one of the session still held. -/

namespace RoomBackend

open Async Day Lts

/-! ### Outstanding challenges -/

/-- What an entry of the journal makes of the challenge of a connection. -/
def Obs.verdict (k : ConnKey) : Obs → Option Bool
  | .issued j _ => if j = k then some true else none
  | .passed j _ => if j = k then some false else none
  | _ => none

/-- A challenge was issued on the connection and has not been passed since. -/
def outstandingAfter (k : ConnKey) (b : Bool) (log : List Obs) : Bool :=
  log.foldl (fun b o => (o.verdict k).getD b) b

def World.outstanding (w : World) (k : ConnKey) : Bool := outstandingAfter k false w.journal

theorem World.outstanding_append {w w' : World} {log : List Obs} (k : ConnKey)
    (hw : w'.journal = w.journal ++ log) :
    w'.outstanding k = outstandingAfter k (w.outstanding k) log := by
  rw [outstanding, outstanding, outstandingAfter, outstandingAfter, hw, List.foldl_append]
  rfl

/-- Entries that say nothing of the connection's challenge. -/
theorem outstandingAfter_quiet {k : ConnKey} {b : Bool} {log : List Obs}
    (h : ∀ o ∈ log, o.verdict k = none) : outstandingAfter k b log = b := by
  induction log generalizing b with
  | nil => rfl
  | cons o log ih =>
      have ho := h o List.mem_cons_self
      show outstandingAfter k ((o.verdict k).getD b) log = b
      rw [ho]
      exact ih fun o' ho' => h o' (List.mem_cons_of_mem _ ho')

/-- A challenge is outstanding when one was issued after which none was passed. -/
theorem outstandingAfter_iff {k : ConnKey} {log : List Obs} :
    outstandingAfter k false log = true ↔ ∃ (i : ℕ) (sid : Sid), log[i]? = some (.issued k sid) ∧
      ∀ (j : ℕ) (sid' : Sid), i < j → log[j]? ≠ some (.passed k sid') := by
  induction log using List.reverseRecOn with
  | nil => simp [outstandingAfter]
  | append_singleton log o ih =>
      have hfold : outstandingAfter k false (log ++ [o]) =
          (o.verdict k).getD (outstandingAfter k false log) := by
        rw [outstandingAfter, List.foldl_append]
        rfl
      rw [hfold]
      have hlast : (log ++ [o])[log.length]? = some o := by simp
      -- entries before the last one are those of the shorter journal
      have hlt : ∀ {i : ℕ}, i < log.length → (log ++ [o])[i]? = log[i]? := fun h => by
        rw [List.getElem?_append_left h]
      have hle : ∀ {i : ℕ} {a : Obs}, (log ++ [o])[i]? = some a → i < log.length ∨ i = log.length :=
        fun h => by
          have := (List.getElem?_eq_some_iff.mp h).1
          rw [List.length_append, List.length_singleton] at this
          omega
      cases hv : o.verdict k with
      | none =>
          show outstandingAfter k false log = true ↔ _
          rw [ih]
          constructor
          · rintro ⟨i, sid, hi, hj⟩
            have hil := (List.getElem?_eq_some_iff.mp hi).1
            refine ⟨i, sid, (hlt hil).trans hi, fun j sid' hij hp => ?_⟩
            rcases hle hp with hjl | rfl
            · exact hj j sid' hij ((hlt hjl).symm.trans hp)
            · obtain rfl := Option.some.inj (hlast.symm.trans hp)
              simp [Obs.verdict] at hv
          · rintro ⟨i, sid, hi, hj⟩
            rcases hle hi with hil | rfl
            · refine ⟨i, sid, (hlt hil).symm.trans hi, fun j sid' hij hp => ?_⟩
              have hjl := (List.getElem?_eq_some_iff.mp hp).1
              exact hj j sid' hij ((hlt hjl).trans hp)
            · obtain rfl := Option.some.inj (hlast.symm.trans hi)
              simp [Obs.verdict] at hv
      | some b =>
          show b = true ↔ _
          cases o with
          | issued j sid =>
              have hjb : j = k ∧ true = b := by simpa [Obs.verdict] using hv
              obtain ⟨rfl, rfl⟩ := hjb
              refine iff_of_true rfl ⟨log.length, sid, hlast, fun i sid' hi hp => ?_⟩
              rcases hle hp with h | h <;> omega
          | passed j sid =>
              have hjb : j = k ∧ false = b := by simpa [Obs.verdict] using hv
              obtain ⟨rfl, rfl⟩ := hjb
              refine iff_of_false Bool.false_ne_true ?_
              rintro ⟨i, sid', hi, hj⟩
              rcases hle hi with hil | rfl
              · exact hj _ sid hil hlast
              · cases Option.some.inj (hlast.symm.trans hi)
          | _ => simp [Obs.verdict] at hv

/-- The step issues or passes a challenge on the connection. -/
def Sys.judges (env : Env) (k : ConnKey) (s : Sys) (l : Label) : Bool :=
  (s.step env l).any fun t : Sys =>
    (t.world.journal.drop s.world.journal.length).any fun o => (o.verdict k).isSome

/-- The challenge that a suspended `challengeResponse` of the connection may pass is one of the
session the connection holds. -/
def Core.answersOwn (c : Core) (k : ConnKey) : Bool :=
  match (c.conn k).handler with
  | some (.challenge (.verify _ r _ _)) => decide ((c.conn k).record = some r)
  | _ => true

/-- No challenge is issued or passed on the connection while a rollover of it is under way, a
challenge that is passed is one of the session still held, and the `join` takes up a session
that is not challenge-pending. -/
def Sys.challengesOwn (env : Env) (k : ConnKey) (s : Sys) (l : Label) : Bool :=
  (!s.judges env k l || (s.conn k).rolling.isNone && s.answersOwn k) &&
    (decide (l ≠ .resume (.handler k)) || (s.entering k).all fun r => !r.challengePending)

/-! ### The invariant -/

/-- The challenge flag of the session that `create` makes. -/
def CreatePc.pending : CreatePc → Bool
  | claim _ input _ _ _ _ => input.challengePending
  | save _ record _ _ | link _ record _ _ _ => record.challengePending

theorem CreatePc.settle_pending {now : ℤ} {k : ConnKey} {o : Outcome} {w w' : World}
    {p p' : CreatePc} (hs : p.settle now k o w = some (p', w')) : p'.pending = p.pending := by
  cases p with
  | _ =>
      obtain ⟨q, -, he⟩ := Option.map_eq_some_iff.mp hs
      rw [← (Prod.mk.inj he).1]
      rfl

theorem CreatePc.wait_pending {env : Env} {d d' : ℕ} {p p' : CreatePc}
    (hr : p.resume env d = some (.wait p', d')) : p'.pending = p.pending := by
  unfold CreatePc.resume at hr
  split at hr
  · split at hr
    · cases hr
    · cases hr
    · cases hr
      rfl
    · split at hr
      · cases hr
        rfl
      · cases hr
  · split at hr
    · cases hr
    · cases hr
      rfl
    · cases hr
      rfl
  · split at hr
    · cases hr
    · cases hr
    · split at hr <;> cases hr

theorem CreatePc.done_pending {env : Env} {d d' : ℕ} {p : CreatePc} {r : SessionRecord}
    {token : Token} (hr : p.resume env d = some (.done r token, d')) :
    r.challengePending = p.pending := by
  unfold CreatePc.resume at hr
  split at hr
  · split at hr
    · cases hr
    · cases hr
    · cases hr
    · split at hr <;> cases hr
  · split at hr <;> cases hr
  · split at hr
    · cases hr
    · cases hr
    · split at hr
      · cases hr
        rfl
      · cases hr

/-- The challenge flags that count for a connection, of the session it holds and of the one
being created for it, tell whether a challenge is outstanding. -/
structure Conn.Owes (x : Conn) (b : Bool) : Prop where
  unheld : x.record = none → b = false
  held : ∀ r, x.record = some r → (x.standing r.sid).challengePending = b
  rolling : ∀ p, x.rolling = some p → p.create.pending = b
  passing : ∀ req p, x.handler = some (.challenge (.passed req p)) → b = false

namespace Conn.Owes

variable {x y : Conn} {b : Bool}

/-- The session and the renewal stay, and so do the challenge flags. -/
theorem of_eq (h : x.Owes b) (hr : y.record = x.record) (hq : y.rolling = x.rolling)
    (hs : ∀ sid, (y.standing sid).challengePending = (x.standing sid).challengePending)
    (hh : ∀ req p, y.handler ≠ some (.challenge (.passed req p))) : y.Owes b := by
  refine ⟨fun hn => h.unheld (hr ▸ hn), fun r hy => ?_, fun p hp => h.rolling p (hq ▸ hp),
    fun req p hp => absurd hp (hh req p)⟩
  rw [hs]
  exact h.held r (hr ▸ hy)

/-- The flag of the session held is assigned while no renewal is under way. -/
theorem assign {b' : Bool} {r : SessionIdent} {t : Standing} (hr : y.record = some r)
    (hq : y.rolling = none) (hs : y.standing r.sid = t) (ht : t.challengePending = b')
    (hh : ∀ req p, y.handler = some (.challenge (.passed req p)) → b' = false) : y.Owes b' := by
  refine ⟨fun hn => ?_, fun r' hy => ?_, fun p hp => ?_, hh⟩
  · rw [hr] at hn
    cases hn
  · obtain rfl : r' = r := Option.some.inj (hy.symm.trans hr)
    rw [hs]
    exact ht
  · rw [hq] at hp
    cases hp

end Conn.Owes

/-! ### Stretches of a handler -/

/-- The flags of all records stay. -/
def Conn.SamePending (x y : Conn) : Prop :=
  y.record = x.record ∧ y.rolling = x.rolling ∧
    ∀ sid, (y.standing sid).challengePending = (x.standing sid).challengePending

theorem Conn.SamePending.trans {x y z : Conn} (h : x.SamePending y) (h' : y.SamePending z) :
    x.SamePending z :=
  ⟨h'.1.trans h.1, h'.2.1.trans h.2.1, fun sid => (h'.2.2 sid).trans (h.2.2 sid)⟩

/-- One record is assigned, but not its challenge flag. -/
theorem Conn.samePending_update {x y : Conn} {sid : Sid} {t : Standing} (hr : y.record = x.record)
    (hq : y.rolling = x.rolling) (hs : y.standing = Function.update x.standing sid t)
    (ht : t.challengePending = (x.standing sid).challengePending) : x.SamePending y := by
  refine ⟨hr, hq, fun sid' => ?_⟩
  rw [hs]
  exact forall_update
    (P := fun sid (t : Standing) => t.challengePending = (x.standing sid).challengePending)
    (fun _ => rfl) ht sid'

theorem Core.fail_samePending (c : Core) (k : ConnKey) (r : SessionIdent) :
    (c.conn k).SamePending ((c.fail k r).conn k) := by
  rw [Core.fail_conn]
  exact Conn.samePending_update rfl rfl rfl rfl

theorem Core.tempBlock_samePending (c : Core) (k : ConnKey) (r : SessionIdent) (reason : String) :
    (c.conn k).SamePending ((c.tempBlock k r reason).1.conn k) := by
  rw [Core.tempBlock_conn]
  exact Conn.samePending_update rfl rfl rfl rfl

/-- What a handler may do to the challenge of its connection `k`: nothing; issue one; pass the
one it was waiting for; take up a session. -/
inductive Judges (k : ConnKey) (c c₁ : Core) (h h' : Option Handler) : Prop
  | quiet (log : List Obs) (hw : c₁.world = c.world.note log) (hlog : ∀ o ∈ log, o.verdict k = none)
      (hs : (c.conn k).SamePending (c₁.conn k))
      (hh : ∀ req p, h' ≠ some (.challenge (.passed req p)))
  | issued (log : List Obs) (r : SessionIdent) (t : Standing)
      (hw : c₁.world = c.world.note (log ++ [.issued k r.sid]))
      (hlog : ∀ o ∈ log, o.verdict k = none) (hr : (c.conn k).record = some r)
      (hr' : (c₁.conn k).record = some r) (hq : (c₁.conn k).rolling = (c.conn k).rolling)
      (hs : (c₁.conn k).standing r.sid = t) (ht : t.challengePending = true)
      (hh : ∀ req p, h' ≠ some (.challenge (.passed req p)))
  | passed (token : String) (r : SessionIdent) (now : ℤ) (p : Promise Bool) (t : Standing)
      (hh : h = some (.challenge (.verify token r now p)))
      (hw : c₁.world = c.world.note [.passed k r.sid]) (hr : (c₁.conn k).record = (c.conn k).record)
      (hq : (c₁.conn k).rolling = (c.conn k).rolling) (hs : (c₁.conn k).standing r.sid = t)
      (ht : t.challengePending = false)
  | enters (r : SessionRecord) (token : Token) (he : c.entering k = some r)
      (hc : c₁ = c.enter k r token) (hh : ∀ req p, h' ≠ some (.challenge (.passed req p)))

theorem Escalates.judges {c d c' : Core} {k : ConnKey} {e : EscalatePc} {h h' : Option Handler}
    {L : List Obs} (he : Escalates d k c' e) (hd : d.world = c.world.note L)
    (hlog : ∀ o ∈ L, o.verdict k = none) (hconn : d.conn k = c.conn k)
    (hh : ∀ req p, h' ≠ some (.challenge (.passed req p))) : Judges k c c' h h' := by
  cases he with
  | quiet =>
      refine Judges.quiet L hd hlog ?_ hh
      rw [hconn]
      exact ⟨rfl, rfl, fun _ => rfl⟩
  | @challenge r q hr =>
      refine Judges.issued L r _ ?_ hlog (hconn ▸ hr) ?_ ?_ rfl ?_ hh
      · show d.world.note [.issued k r.sid] = _
        rw [hd, World.note_note]
      · rw [Core.issue_conn]
        exact hr
      · rw [Core.issue_conn, hconn]
      · simp
  | @block r reason hr =>
      refine Judges.quiet L hd hlog ?_ hh
      rw [← hconn]
      exact d.tempBlock_samePending k r reason

theorem Act.judges {env : Env} {k : ConnKey} {up : Bool} {c c₁ : Core} {h h' : Option Handler}
    (ha : Act env k up c h c₁ h') (hh : (c.conn k).handler = h) : Judges k c c₁ h h' := by
  -- a stretch that leaves the flags alone and writes no verdict
  have quiet : ∀ {L : List Obs}, c₁.world = c.world.note L → (∀ o ∈ L, o.verdict k = none) →
      c₁.conn k = c.conn k → (∀ req p, h' ≠ some (.challenge (.passed req p))) →
      Judges k c c₁ h h' := by
    intro L hw hlog hc hp
    refine Judges.quiet L hw hlog ?_ hp
    rw [hc]
    exact ⟨rfl, rfl, fun _ => rfl⟩
  have nil : ∀ o ∈ ([] : List Obs), o.verdict k = none := fun o ho => absurd ho List.not_mem_nil
  have one : ∀ {o : Obs}, o.verdict k = none → ∀ o' ∈ [o], o'.verdict k = none := by
    intro o ho o' hm
    rw [List.mem_singleton.mp hm]
    exact ho
  have note : c.world = c.world.note [] := (World.note_nil _).symm
  cases ha with
  | joinBlocked hp ht =>
      refine Judges.quiet [] note nil ?_ (by intro _ _ h; cases h)
      rw [Core.mute_conn]
      exact ⟨rfl, rfl, fun _ => rfl⟩
  | joinEnter hp ht =>
      exact Judges.enters _ _ (Core.entering_eq hh hp ht) rfl (by intro _ _ h; cases h)
  | joinWelcome hp =>
      refine Judges.quiet [] note nil ?_ (by intro _ _ h; cases h)
      rw [Core.announce_conn]
      exact ⟨rfl, rfl, fun _ => rfl⟩
  | @sendReject r e reason hint hr hj =>
      exact quiet (L := [.deciding k (c.conn k).handled e]) rfl (one rfl) rfl
        (by intro _ _ h; cases h)
  | @sendSwitch r e hr hj =>
      refine quiet (L := [.deciding k (c.conn k).handled e]) ?_ (one rfl) ?_
        (by intro _ _ h; cases h)
      · rw [Core.checkRoom_frame]
        rfl
      · rw [Core.checkRoom_conn]
        rfl
  | @sendOpen l hl =>
      exact quiet (L := [.deciding k (c.conn k).handled l.event]) rfl (one rfl) rfl
        (by intro _ _ h; cases h)
  | @sendLimited l c' e hl he =>
      exact he.judges (L := [.deciding k (c.conn k).handled l.event]) rfl (one rfl) rfl
        (by intro _ _ h; cases h)
  | sendEscalate hh' he => exact he.judges note nil rfl (by intro _ _ h; cases h)
  | sendEscalating he =>
      cases he with
      | challenged => exact quiet note nil rfl (by intro _ _ h; cases h)
      | block => exact quiet note nil rfl (by intro _ _ h; cases h)
      | @blocked b req p hp =>
          refine Judges.quiet [.blocked k b] rfl (one rfl) ?_ (by intro _ _ h; cases h)
          rw [Core.blockEnd_conn]
          exact ⟨rfl, rfl, fun _ => rfl⟩
  | @sendReply e reply =>
      cases up with
      | true =>
          exact quiet (L := [.replied k (c.conn k).handled reply]) rfl (one rfl) rfl
            (by intro _ _ h; cases h)
      | false => exact quiet note nil rfl (by intro _ _ h; cases h)
  | @passed token r now until_ p q =>
      refine Judges.passed token r now p _ rfl rfl ?_ ?_ rfl ?_
      · rw [Core.pass_conn]
      · rw [Core.pass_conn]
      · simp
  | failed q => exact Judges.quiet [] note nil (c.fail_samePending k _) (by intro _ _ h; cases h)
  | failedOver => exact Judges.quiet [] note nil (c.fail_samePending k _) (by intro _ _ h; cases h)
  | failedBlock reason hr =>
      exact Judges.quiet [] note nil
        ((c.fail_samePending k _).trans ((c.fail k _).tempBlock_samePending k _ reason))
        (by intro _ _ h; cases h)
  | @challengeBlocked b req p hp =>
      refine Judges.quiet [.blocked k b] rfl (one rfl) ?_ (by intro _ _ h; cases h)
      rw [Core.blockEnd_conn]
      exact ⟨rfl, rfl, fun _ => rfl⟩
  | _ => exact quiet note nil rfl (by intro _ _ h; cases h)

/-! ### Steps -/

theorem ActLog.verdict_ne {j k : ConnKey} {up : Bool} {c : Core} {h : Option Handler}
    {log : List Obs} (hlog : ActLog j up c h log) (hj : j ≠ k) :
    ∀ o ∈ log, o.verdict k = Option.none := by
  cases hlog <;> simp [Obs.verdict, hj]

/-- Only the handlers of a connection issue or pass its challenges. -/
theorem StepLog.verdict_none {env : Env} {up : ConnKey → Bool} {c : Core} {l : Label}
    {log : List Obs} {k : ConnKey} (h : StepLog env up c l log)
    (hl : ¬ (l = .resume (.handler k) ∨ l = .handle k)) : ∀ o ∈ log, o.verdict k = Option.none := by
  cases h with
  | @act j h' log hl' hh hlog =>
      refine hlog.verdict_ne fun hj => hl (Or.inl ?_)
      rw [hl', hj]
  | @handle j log hl' hk hh hlog =>
      refine hlog.verdict_ne fun hj => hl (Or.inr ?_)
      rw [hl', hj]
  | flushed hl' =>
      intro o ho
      rcases List.mem_append.mp ho with ho | ho
      · obtain ⟨a, -, rfl⟩ := List.mem_map.mp ho
        rfl
      · rw [List.mem_singleton.mp ho]
        rfl
  | _ => simp [Obs.verdict]

/-- A challenge of another connection is not one of this connection's verdicts. -/
theorem Judges.owes {c c₁ : Core} {k : ConnKey} {h' : Option Handler} {log : List Obs} {b : Bool}
    (hj : Judges k c c₁ (c.conn k).handler h') (hw : c₁.world.journal = c.world.journal ++ log)
    (hI : (c.conn k).Owes b)
    (hv : (∃ o ∈ log, (o.verdict k).isSome = true) →
      (c.conn k).rolling = none ∧ c.answersOwn k = true)
    (he : ∀ r, c.entering k = some r → (c.conn k).record = none ∧ (c.conn k).rolling = none ∧
      r.challengePending = false) :
    ({ c₁.conn k with handler := h' } : Conn).Owes (outstandingAfter k b log) := by
  have log_eq : ∀ {log' : List Obs}, c₁.world = c.world.note log' → log = log' := by
    intro log' h
    rw [h] at hw
    exact (List.append_cancel_left hw).symm
  cases hj with
  | quiet log' hw' hlog hs hh =>
      obtain rfl := log_eq hw'
      rw [outstandingAfter_quiet hlog]
      exact hI.of_eq hs.1 hs.2.1 hs.2.2 hh
  | issued log' r t hw' hlog hr hr' hq hs ht hh =>
      obtain rfl := log_eq hw'
      obtain ⟨hroll, -⟩ := hv ⟨_, List.mem_append_right _ (List.mem_singleton_self _), by
        simp [Obs.verdict]⟩
      have hb : outstandingAfter k b (log' ++ [.issued k r.sid]) = true := by
        rw [outstandingAfter, List.foldl_append]
        simp [Obs.verdict]
      rw [hb]
      exact Conn.Owes.assign hr' (hq.trans hroll) hs ht fun req p hp => absurd hp (hh req p)
  | passed token r now p t hh hw' hr hq hs ht =>
      obtain rfl := log_eq hw'
      obtain ⟨hroll, hown⟩ := hv ⟨_, List.mem_singleton_self _, by simp [Obs.verdict]⟩
      have hrec : (c.conn k).record = some r := by
        simpa [Core.answersOwn, hh] using hown
      have hb : outstandingAfter k b [.passed k r.sid] = false := by
        simp [outstandingAfter, Obs.verdict]
      rw [hb]
      exact Conn.Owes.assign (hr.trans hrec) (hq.trans hroll) hs ht fun _ _ _ => rfl
  | enters r token hent hc hh =>
      subst hc
      obtain rfl : log = [] := log_eq (World.note_nil _).symm
      obtain ⟨hrec, hroll, hpend⟩ := he r hent
      have hb : b = false := hI.unheld hrec
      rw [Core.enter_conn]
      refine Conn.Owes.assign (r := r.toSessionIdent) (t := r.toStanding) rfl hroll
        (Function.update_self ..) ?_ fun req p hp => absurd hp (hh req p)
      show r.challengePending = b
      rw [hpend, hb]

theorem Sys.judges_of_mem {env : Env} {s t : Sys} {l : Label} {k : ConnKey} {log : List Obs}
    (hs : s.step env l = some t) (hw : t.world.journal = s.world.journal ++ log)
    (ho : ∃ o ∈ log, (o.verdict k).isSome = true) : s.judges env k l = true := by
  rw [Sys.judges, hs, Option.any_some, hw, List.drop_left, List.any_eq_true]
  exact ho

theorem Sys.owes_step {env : Env} {s t : Sys} {l : Label} {k : ConnKey}
    (hs : s.step env l = some t) (hB : Born s.toCore) (hJ : JoinsOnce s.toCore)
    (hR : Renewals s.toCore)
    (hH : (s.toCore.berth k).Holds) (hl : s.challengesOwn env k l = true)
    (hI : (s.conn k).Owes (s.world.outstanding k)) : (t.conn k).Owes (t.world.outstanding k) := by
  have hc := Sys.coreStep hs
  obtain ⟨log, hlog, hw⟩ := hc.world.log
  rw [World.outstanding_append k hw]
  obtain ⟨hjudge, henter⟩ := Bool.and_eq_true_iff.mp hl
  have hv : (∃ o ∈ log, (o.verdict k).isSome = true) →
      (s.conn k).rolling = none ∧ s.answersOwn k = true := by
    intro ho
    rw [Sys.judges_of_mem hs hw ho] at hjudge
    obtain ⟨hr, hown⟩ := Bool.and_eq_true_iff.mp hjudge
    exact ⟨Option.isNone_iff_eq_none.mp hr, hown⟩
  by_cases hlk : l = .resume (.handler k) ∨ l = .handle k
  · rcases hc.stretch hlk with he | ⟨d, c₁, h', hstart, ha, he⟩
    · rw [he] at hw ⊢
      obtain rfl : log = [] := List.append_cancel_left (hw.symm.trans (List.append_nil _).symm)
      exact hI
    · have hw' : c₁.world.journal = s.world.journal ++ log := by
        rw [he] at hw
        exact hw
      rw [he, Core.setHandler_conn]
      rcases hstart with ⟨hl', rfl⟩ | ⟨hnone, rfl⟩
      · refine (ha.judges rfl).owes hw' hI hv fun r hr => ?_
        have hun := hJ.unjoined hr
        have hrec : (s.toCore.berth k).record = none := by
          have hj := hH.joined
          rw [show (s.toCore.berth k).joined = false from hun] at hj
          exact Option.isNone_iff_eq_none.mp (by simpa using hj.symm)
        refine ⟨hrec, ?_, ?_⟩
        · cases hq : (s.conn k).rolling with
          | none => rfl
          | some q =>
              have := ((hR.fits k).renewing q hq).1
              rw [show (s.toCore.berth k).joined = false from hun] at this
              cases this
        · have hpend : ((s.entering k).all fun r => !r.challengePending) = true := by
            simpa [hl'] using henter
          rw [hr] at hpend
          simpa using hpend
      · have hd : ((s.toCore.take k).conn k).Owes (s.world.outstanding k) := by
          rw [Core.take_conn]
          exact ⟨hI.unheld, hI.held, hI.rolling, hI.passing⟩
        have hhand : ((s.toCore.take k).conn k).handler = (s.conn k).handler := by
          rw [Core.take_conn]
        refine Judges.owes (c := s.toCore.take k) (hhand ▸ ha.judges hhand) hw' hd ?_ ?_
        · intro ho
          obtain ⟨hr, -⟩ := hv ho
          refine ⟨?_, ?_⟩
          · rw [Core.take_conn]
            exact hr
          · rw [Core.answersOwn, hhand, hnone]
        · intro r hr
          rw [Core.entering, hhand, hnone] at hr
          cases hr
  · rw [outstandingAfter_quiet (hlog.verdict_none hlk)]
    have hx := hc.conn k
    generalize t.conn k = x at hx
    cases hx with
    | act hl' => exact absurd (Or.inl hl') hlk
    | handle hl' => exact absurd (Or.inr hl') hlk
    | @settled h h' o v w hl' hh hset =>
        refine ⟨hI.unheld, hI.held, hI.rolling, fun req p hp => ?_⟩
        obtain rfl := Option.some.inj hp
        cases h with
        | challenge q =>
            obtain ⟨⟨q', w'⟩, hq, he⟩ := Option.map_eq_some_iff.mp hset
            obtain ⟨hq', -⟩ := Prod.mk.inj he
            cases q with
            | passed req' p' => exact hI.passing _ _ hh
            | _ =>
                obtain ⟨x, -, he'⟩ := Option.map_eq_some_iff.mp hq
                rw [← (Prod.mk.inj he').1] at hq'
                cases hq'
        | _ =>
            obtain ⟨q, -, he⟩ := Option.map_eq_some_iff.mp hset
            cases (Prod.mk.inj he).1
    | @accepted n u hl' hk =>
        have hun : s.conn k = Conn.unborn := by
          rw [hk]
          exact hB.next u.inst
        have hb : s.world.outstanding k = false := hI.unheld (by rw [hun]; rfl)
        refine ⟨fun _ => hb, fun r hr => ?_, fun p hp => ?_, fun req p hp => ?_⟩
        · cases hr
        · cases hp
        · cases hp
    | @begins next input d hd hj hcl hi =>
        refine ⟨hI.unheld, hI.held, fun p hp => ?_, hI.passing⟩
        cases hp
        obtain ⟨r, hr⟩ := hH.record_eq hj
        exact (hi r hr).trans (hI.held r hr)
    | @rolling p p' o v w hl' hp hset =>
        refine ⟨hI.unheld, hI.held, fun q hq => ?_, hI.passing⟩
        cases hq
        obtain ⟨⟨x, w'⟩, hr, he⟩ := Option.map_eq_some_iff.mp hset
        rw [← (Prod.mk.inj he).1]
        exact (CreatePc.settle_pending hr).trans (hI.rolling p hp)
    | @creating p p' d hp hr =>
        refine ⟨hI.unheld, hI.held, fun q hq => ?_, hI.passing⟩
        cases hq
        exact (CreatePc.wait_pending hr).trans (hI.rolling p hp)
    | rolled hp =>
        refine ⟨hI.unheld, hI.held, fun p hp => ?_, hI.passing⟩
        cases hp
    | @renewed p r token d hl' hp hr hcl =>
        refine ⟨fun hn => ?_, fun r' hr' => ?_, fun q hq => ?_, hI.passing⟩
        · cases hn
        · cases hr'
          have hstand : Function.update (s.conn k).standing r.sid r.toStanding r.sid =
              r.toStanding := Function.update_self ..
          show (Function.update (s.conn k).standing r.sid r.toStanding r.sid).challengePending = _
          rw [hstand]
          exact (CreatePc.done_pending hr).trans (hI.rolling p hp)
        · cases hq
    | _ => exact ⟨hI.unheld, hI.held, hI.rolling, hI.passing⟩

theorem owes_of_reaches {env : Env} {k : ConnKey} {s : Sys}
    (h : (system env).Reaches (fun s l => s.challengesOwn env k l = true) s) :
    (s.conn k).Owes (s.world.outstanding k) := by
  refine Machine.Reaches.invariant_of (J := fun s => Born s.toCore ∧ JoinsOnce s.toCore ∧
      Renewals s.toCore ∧ (s.toCore.berth k).Holds)
    (I := fun s => (s.conn k).Owes (s.world.outstanding k))
    (fun s hs => ⟨born_of_reaches hs, joinsOnce_of_reaches hs, renewals_of_reaches hs,
      holds_of_reaches hs k⟩) ?_ ?_ h
  · rintro s ⟨t, rfl⟩
    refine ⟨fun _ => rfl, fun r hr => ?_, fun p hp => ?_, fun req p hp => ?_⟩
    · cases hr
    · cases hp
    · cases hp
  · rintro s l t ⟨hB, hJ, hR, hH⟩ hI hl hs
    exact Sys.owes_step hs hB hJ hR hH hl hI

/-! ### Runs -/

/-- **Challenges.** In every run in which no challenge is issued or passed on the connection
while its rollover is under way, a challenge that is passed is one of the session held, and the
`join` takes up a session that is not challenge-pending: the record in force is
challenge-pending if and only if a challenge was issued on the connection and none was passed
since; and when `challenge_result` is about to be sent, it is not. -/
theorem challenges_of_reaches {env : Env} {k : ConnKey} {s : Sys}
    (h : (system env).Reaches (fun s l => s.challengesOwn env k l = true) s) {r : SessionIdent}
    (hr : (s.conn k).record = some r) :
    (((s.conn k).standing r.sid).challengePending = true ↔
      ∃ (i : ℕ) (sid : Sid), s.world.journal[i]? = some (.issued k sid) ∧
        ∀ (j : ℕ) (sid' : Sid), i < j → s.world.journal[j]? ≠ some (.passed k sid')) ∧
    ∀ req p, (s.conn k).handler = some (.challenge (.passed req p)) →
      ((s.conn k).standing r.sid).challengePending = false := by
  have hI := owes_of_reaches h
  have hheld := hI.held r hr
  refine ⟨?_, fun req p hp => ?_⟩
  · rw [hheld]
    exact outstandingAfter_iff
  · rw [hheld]
    exact hI.passing req p hp

/-! ### A challenge issued at midnight -/

/-- Two binary frames and a message: the score reaches the challenge threshold, up to the answer
of the hit. -/
def provokes : List Label :=
  botJoined ++ List.replicate 2 (.frame (Demo.conn 1) .binary)
    ++ Demo.receive (Demo.conn 1) (.send { clientId := "c", text := "x", day := none })
    ++ [.settle (.handler (Demo.conn 1)) .answered false]

/-- The challenge is issued and saved. -/
def challenged : List Label := [.resume (.handler (Demo.conn 1))] ++ Demo.turns (Demo.conn 1) 1

/-- The session held, if the connection was renewed. -/
def Conn.renewedRecord (x : Conn) : Option SessionIdent :=
  if x.held.length = 2 then x.record else none

/-- A run of the theorem: a challenge issued before midnight is still outstanding after it. -/
theorem challenges_kept : ∃ s, (system (Demo.env (some .mock))).Reaches
      (fun s l => s.challengesOwn (Demo.env (some .mock)) (Demo.conn 1) l = true) s ∧
    ∃ r, (s.conn (Demo.conn 1)).record = some r ∧ (s.conn (Demo.conn 1)).held.length = 2 ∧
      ∃ (i : ℕ) (sid : Sid), s.world.journal[i]? = some (.issued (Demo.conn 1) sid) := by
  obtain ⟨s, hs, hP⟩ := exists_reached (Demo.env (some .mock))
    (Sys.challengesOwn (Demo.env (some .mock)) (Demo.conn 1))
    (fun s => (s.conn (Demo.conn 1)).renewedRecord.any fun r =>
      ((s.conn (Demo.conn 1)).standing r.sid).challengePending)
    (Demo.midnight - 1) (provokes ++ challenged ++ switchesRoom ++ cleansUp ++ renews (Demo.conn 1))
    (by decide +kernel)
  obtain ⟨r, hr, hpend⟩ := (Option.any_eq_true _ _).mp hP
  rw [Conn.renewedRecord] at hr
  split at hr
  · rename_i hlen
    obtain ⟨i, sid, hi, -⟩ := (challenges_of_reaches hs hr).1.mp hpend
    exact ⟨s, hs, r, hr, hlen, i, sid, hi⟩
  · cases hr

/-- Without the condition a challenge issued while the new session is being created is
forgotten: the record in force after the rollover is not challenge-pending. -/
theorem challenges_forgotten : ∃ s, (system (Demo.env (some .mock))).Reaches Free s ∧
    ∃ r, (s.conn (Demo.conn 1)).record = some r ∧ (s.conn (Demo.conn 1)).held.length = 2 ∧
      ((s.conn (Demo.conn 1)).standing r.sid).challengePending = false ∧
      ∃ (i : ℕ) (sid : Sid), s.world.journal[i]? = some (.issued (Demo.conn 1) sid) ∧
        ∀ (j : ℕ) (sid' : Sid), i < j →
          s.world.journal[j]? ≠ some (.passed (Demo.conn 1) sid') := by
  obtain ⟨s, hs, hP⟩ := exists_reached_free (Demo.env (some .mock))
    (fun s => s.world.outstanding (Demo.conn 1) && (s.conn (Demo.conn 1)).renewedRecord.any fun r =>
      !((s.conn (Demo.conn 1)).standing r.sid).challengePending)
    (Demo.midnight - 1)
    (provokes ++ switchesRoom ++ cleansUp ++ [.resume (.handler (Demo.conn 1))]
      ++ renews (Demo.conn 1))
    (by decide +kernel)
  obtain ⟨hout, hP⟩ := Bool.and_eq_true_iff.mp hP
  obtain ⟨r, hr, hpend⟩ := (Option.any_eq_true _ _).mp hP
  rw [Conn.renewedRecord] at hr
  split at hr
  · rename_i hlen
    exact ⟨s, hs, r, hr, hlen, by simpa using hpend, outstandingAfter_iff.mp hout⟩
  · cases hr

end RoomBackend
