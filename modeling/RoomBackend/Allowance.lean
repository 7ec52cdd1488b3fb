import RoomBackend.Calendar
import RoomBackend.Spending

/-! # The message allowance of a session

A message is charged to the bucket of the connection that sends it when the handling of its frame
begins; it is accepted when it is appended. The messages of a session that were charged within an
interval are those appended since and those that still wait to be. They are charged within one day,
in which rounding adds next to nothing to the tokens. -/

namespace RoomBackend

open Async Day RateLimit Lts

/-! ### Sends that have been granted a token -/

/-- A granted send was granted before, or the frame has just passed the checks of `decide`. -/
theorem Act.granted {env : Env} {k : ConnKey} {up : Bool} {c c₁ : Core} {h h' : Option Handler}
    (ha : Act env k up c h c₁ h') {x : SendLocals} (hx : h'.bind Handler.granted = some x) :
    h.bind Handler.granted = some x ∨
      h = none ∧ c₁ = c.observe (.deciding k (c.conn k).handled x.event) ∧ Opens env c₁ k x := by
  cases ha with
  | sendOpen ho =>
      obtain rfl := Option.some.inj hx
      exact Or.inr ⟨rfl, rfl, ho⟩
  | sendEscalate hh he =>
      obtain rfl := Option.some.inj hx
      rcases hh with ⟨p, rfl⟩ | ⟨p, rfl⟩
      · exact Or.inl rfl
      · exact Or.inl rfl
  | sendDup => exact Or.inl hx
  | sendAccept => exact Or.inl hx
  | @sendEscalating l site e e' c' he =>
      cases site with
      | limited => cases hx
      | accept => exact Or.inl hx
  | _ => cases hx

/-- A send whose message has been appended, or has failed to be, waits no longer. -/
theorem Handler.settle_append {env : Env} {now : ℤ} {v : Bool} {k : ConnKey} {n : ℕ}
    {info : AdmitInfo} {o : Outcome} {l : SendLocals} {room : DailyRoom} {m : StoredMessage}
    {q : Promise Unit} {h' : Handler} {w w' : World}
    (hs : (Handler.send (.append l room m q)).settle env now v k n info o w = some (h', w')) :
    h'.granted = none := by
  obtain ⟨⟨p', w₁⟩, hp, he⟩ := Option.map_eq_some_iff.mp hs
  obtain ⟨rfl, rfl⟩ := Prod.mk.inj he
  obtain ⟨⟨r, w₂⟩, hr, he⟩ := Option.map_eq_some_iff.mp hp
  obtain ⟨rfl, rfl⟩ := Prod.mk.inj he
  obtain ⟨rfl, rfl, rfl⟩ := Promise.settle_eq_some.mp hr
  cases o with
  | answered => rfl
  | refused => rfl
  | timedOut => rfl

/-- The operation a handler waits for leaves a granted send alone, or appends its message. -/
theorem Handler.settle_granted {env : Env} {now : ℤ} {v : Bool} {k : ConnKey} {n : ℕ}
    {info : AdmitInfo} {o : Outcome} {h h' : Handler} {w w' : World}
    (hs : h.settle env now v k n info o w = some (h', w')) {x : SendLocals}
    (hx : h'.granted = some x) : h.granted = some x := by
  cases h with
  | send p =>
      obtain ⟨⟨p', w₁⟩, hp, he⟩ := Option.map_eq_some_iff.mp hs
      obtain ⟨rfl, rfl⟩ := Prod.mk.inj he
      cases p with
      | reply e reply => cases hp
      | append l room m q =>
          rw [Handler.settle_append hs] at hx
          cases hx
      | publish l room m q =>
          obtain ⟨r, hr, he⟩ := Option.map_eq_some_iff.mp hp
          obtain ⟨rfl, rfl⟩ := Prod.mk.inj he
          cases hx
      | escalate l site e =>
          obtain ⟨r, hr, he⟩ := Option.map_eq_some_iff.mp hp
          obtain ⟨rfl, rfl⟩ := Prod.mk.inj he
          cases site with
          | limited => cases hx
          | accept => exact hx
      | _ =>
          obtain ⟨r, hr, he⟩ := Option.map_eq_some_iff.mp hp
          obtain ⟨rfl, rfl⟩ := Prod.mk.inj he
          exact hx
  | _ =>
      obtain ⟨r, hr, he⟩ := Option.map_eq_some_iff.mp hs
      obtain ⟨rfl, rfl⟩ := Prod.mk.inj he
      cases hx

/-- An entry that shows a message appended, of a send that `p` tells. -/
def Obs.files (p : SendLocals → Bool) : Obs → Bool
  | .appended _ _ l _ _ => p l
  | _ => false

theorem ActLog.not_files {k : ConnKey} {up : Bool} {c : Core} {h : Option Handler}
    {log : List Obs} (hlog : ActLog k up c h log) (p : SendLocals → Bool) {o : Obs} (ho : o ∈ log) :
    o.files p = false := by
  have ha := hlog.accepting ho
  cases o with
  | appended => cases ha
  | _ => rfl

namespace Sys

variable {env : Env} {s t u : Sys} {l : Label} {k : ConnKey} {p : SendLocals → Bool} {n : ℕ}

/-- The send of a frame that is handled between `s` and `t` is granted a token. -/
structure Charges (env : Env) (s t : Sys) (k : ConnKey) (x : SendLocals) : Prop where
  granted : t.granted k = some x
  record : (s.conn k).record = some x.record
  today : (env.roomAt s.clock).roomId = x.record.roomId
  mark : x.mark = s.world.journal.length + 1

theorem granted_step (h : s.step env l = some t) {x : SendLocals}
    (hx : t.granted k = some x) : s.granted k = some x ∨
      l = .handle k ∧ Charges env s t k x := by
  have hg := hx
  have hc := (coreStep h).conn k
  unfold granted at hx ⊢
  generalize t.conn k = y at hc hx
  cases hc with
  | act hl hh ha =>
      rcases ha.granted hx with ho | ⟨ho, -⟩
      · exact Or.inl (by rw [hh]; exact ho)
      · cases ho
  | handle hl hk hh ha =>
      rcases ha.granted hx with ho | ⟨-, rfl, ho⟩
      · cases ho
      · refine Or.inr ⟨hl, hg, ?_, ho.today.trans ho.ours.symm, ?_⟩
        · have hr := ho.record
          rwa [Core.observe, Core.take_conn] at hr
        · have hm := ho.mark
          simpa [Core.observe, Core.take, Core.updConn, World.record] using hm
  | settled hl hh hs =>
      refine Or.inl ?_
      rw [hh]
      exact Handler.settle_granted hs hx
  | accepted => cases hx
  | _ => exact Or.inl hx

/-- The frame of a granted send has been taken. -/
def Marked (s : Sys) : Prop := ∀ k x, s.granted k = some x → x.mark ≤ s.world.journal.length

theorem Marked.step (hI : s.Marked) (h : s.step env l = some t) : t.Marked := by
  intro k x hx
  have hgrow : s.world.journal.length ≤ t.world.journal.length := (coreStep h).world.length_le
  rcases granted_step h hx with ho | ⟨rfl, -⟩
  · exact (hI k x ho).trans hgrow
  · have hc := coreStep h
    unfold granted at hx
    generalize t.toCore = c' at hc hx hgrow ⊢
    cases hc with
    | same => exact hI k x hx
    | handle hk hh ha =>
        rw [Core.setHandler_conn] at hx
        rcases ha.granted hx with ho | ⟨-, -, ho⟩
        · cases ho
        · exact ho.mark.le

/-- The messages appended after the `n`-th entry of the journal, of sends that `p` tells. -/
def filed (p : SendLocals → Bool) (n : ℕ) (s : Sys) : ℕ := (s.since n).countP (Obs.files p)

/-- The connections with a granted send that `p` tells and that is not appended yet. -/
def waiting (p : SendLocals → Bool) (s : Sys) : Finset ConnKey :=
  s.accepted.toFinset.filter fun j => (s.granted j).any p

/-- The messages that have been charged to a bucket. -/
def charged (p : SendLocals → Bool) (n : ℕ) (s : Sys) : ℕ := s.filed p n + (s.waiting p).card

theorem mem_waiting (hB : Born s.toCore) : k ∈ s.waiting p ↔ (s.granted k).any p = true := by
  unfold waiting
  rw [Finset.mem_filter, List.mem_toFinset, and_iff_right_iff_imp]
  intro hg
  by_contra hk
  have hnone : s.granted k = none := by
    unfold granted
    rw [hB.unborn k hk]
    rfl
  rw [hnone] at hg
  cases hg

/-- A message is appended by the operation that its send waits for. -/
theorem filed_step (hB : Born s.toCore) (h : s.step env l = some t)
    (hn : n ≤ s.world.journal.length) : t.filed p n = s.filed p n ∨
      ∃ k ∈ s.waiting p, t.granted k = none ∧ t.filed p n = s.filed p n + 1 := by
  obtain ⟨log, hlog, hsince⟩ := since_step h hn
  have quiet : (∀ o ∈ log, o.files p = false) → t.filed p n = s.filed p n := by
    intro hq
    have hz : log.countP (Obs.files p) = 0 :=
      List.countP_eq_zero.mpr fun o ho => by rw [hq o ho]; exact Bool.false_ne_true
    unfold filed
    rw [hsince, List.countP_append, hz, Nat.add_zero]
  cases hlog with
  | @appended k o v l' room m hl ho hh =>
      by_cases hp : p l' = true
      · refine Or.inr ⟨k, (mem_waiting hB).mpr ?_, ?_, ?_⟩
        · unfold granted
          rw [hh]
          exact hp
        · -- the promise of the append is settled
          subst hl
          obtain ⟨c', hs, rfl⟩ := Option.map_eq_some_iff.mp h
          obtain ⟨x, hx, hs⟩ := Option.bind_eq_some_iff.mp hs
          obtain ⟨⟨x', w⟩, hr, rfl⟩ := Option.map_eq_some_iff.mp hs
          obtain rfl := Option.some.inj (hx.symm.trans hh)
          have hconn : (({ s.toCore with world := w } : Core).suspend k x').conn k =
              { s.conn k with handler := some x' } := Core.setHandler_conn _ k (some x')
          unfold granted
          dsimp only
          rw [hconn]
          exact Handler.settle_append hr
        · unfold filed
          rw [hsince, List.countP_append]
          have hone : [Obs.appended k (s.conn k).handled l' room.roomId m].countP (Obs.files p) =
              1 := by
            simp [Obs.files, hp]
          rw [hone]
      · refine Or.inl (quiet fun o ho => ?_)
        obtain rfl := List.mem_singleton.mp ho
        exact Bool.eq_false_iff.mpr hp
  | none => exact Or.inl (quiet fun o ho => by cases ho)
  | act hl hh hact => exact Or.inl (quiet fun o ho => hact.not_files p ho)
  | handle hl hk hh hact => exact Or.inl (quiet fun o ho => hact.not_files p ho)
  | flushed hl =>
      refine Or.inl (quiet fun o ho => ?_)
      rcases List.mem_append.mp ho with ho | ho
      · obtain ⟨m, -, rfl⟩ := List.mem_map.mp ho
        rfl
      · obtain rfl := List.mem_singleton.mp ho
        rfl
  | _ =>
      refine Or.inl (quiet fun o ho => ?_)
      obtain rfl := List.mem_singleton.mp ho
      rfl

/-- A message is charged when the handling of its frame begins. -/
theorem charged_step (hB : Born s.toCore) (hB' : Born t.toCore) (h : s.step env l = some t)
    (hn : n ≤ s.world.journal.length) : t.charged p n ≤ s.charged p n ∨
      ∃ k x, l = .handle k ∧ Charges env s t k x ∧ p x = true ∧
        t.charged p n ≤ s.charged p n + 1 := by
  -- the sends that are granted now, and those that were
  have hsub : t.waiting p ⊆ s.waiting p ∨
      ∃ k x, l = .handle k ∧ Charges env s t k x ∧ p x = true ∧
        t.waiting p ⊆ insert k (s.waiting p) := by
    by_cases hnew : ∃ k x, l = .handle k ∧ Charges env s t k x ∧ p x = true
    · obtain ⟨k, x, rfl, hx, hp⟩ := hnew
      refine Or.inr ⟨k, x, rfl, hx, hp, fun j hj => ?_⟩
      obtain ⟨y, hy, hpy⟩ := (Option.any_eq_true _ _).mp ((mem_waiting hB').mp hj)
      rcases granted_step h hy with ho | ⟨ho, -⟩
      · exact Finset.mem_insert_of_mem ((mem_waiting hB).mpr (by rw [ho]; exact hpy))
      · obtain rfl := Label.handle.inj ho
        exact Finset.mem_insert_self _ _
    · refine Or.inl fun j hj => ?_
      obtain ⟨y, hy, hpy⟩ := (Option.any_eq_true _ _).mp ((mem_waiting hB').mp hj)
      rcases granted_step h hy with ho | ⟨rfl, hc⟩
      · exact (mem_waiting hB).mpr (by rw [ho]; exact hpy)
      · exact absurd ⟨j, y, rfl, hc, hpy⟩ hnew
  unfold charged
  rcases filed_step hB h hn with hf | ⟨i, hi, hgone, hf⟩
  · rw [hf]
    rcases hsub with hsub | ⟨k, x, hl, hx, hp, hsub⟩
    · have := Finset.card_le_card hsub
      exact Or.inl (by omega)
    · have := (Finset.card_le_card hsub).trans (Finset.card_insert_le k _)
      exact Or.inr ⟨k, x, hl, hx, hp, by omega⟩
  · -- the connection that is done waits no longer
    have hout : i ∉ t.waiting p := by
      rw [mem_waiting hB', hgone]
      exact Bool.false_ne_true
    have hcard := Finset.card_erase_of_mem hi
    have hpos := Finset.card_pos.mpr ⟨i, hi⟩
    rw [hf]
    rcases hsub with hsub | ⟨k, x, hl, hx, hp, hsub⟩
    · have := Finset.card_le_card (Finset.subset_erase.mpr ⟨hsub, hout⟩)
      exact Or.inl (by omega)
    · have hsub' : t.waiting p ⊆ insert k ((s.waiting p).erase i) := by
        intro j hj
        rcases Finset.mem_insert.mp (hsub hj) with rfl | hj'
        · exact Finset.mem_insert_self _ _
        · refine Finset.mem_insert_of_mem (Finset.mem_erase.mpr ⟨?_, hj'⟩)
          rintro rfl
          exact hout hj
      have := (Finset.card_le_card hsub').trans (Finset.card_insert_le k _)
      exact Or.inr ⟨k, x, hl, hx, hp, by omega⟩

/-! ### The connections of a session -/

/-- The connection holds the session, or has held it. -/
def heldBy (sid : Sid) (s : Sys) (k : ConnKey) : Bool :=
  (s.conn k).held.any fun r => r.sid = sid

end Sys

/-- A stretch gives its connection a session if it is a `join` that takes one up. -/
theorem Act.held {env : Env} {k : ConnKey} {up : Bool} {c c₁ : Core} {h h' : Option Handler}
    (ha : Act env k up c h c₁ h') (hh : h = (c.conn k).handler) :
    (c₁.conn k).held = (c.conn k).held ∨
      ∃ r, c.entering k = some r ∧ (c₁.conn k).held = (c.conn k).held ++ [r.toSessionIdent] := by
  subst hh
  generalize hh : (c.conn k).handler = h at ha
  cases ha.roster with
  | same hc => exact Or.inl (congrArg (fun d => (d.conn k).held) hc)
  | switch hj hnext hr hn hc => exact Or.inl (congrArg (fun d => (d.conn k).held) hc)
  | enter hp ht => exact Or.inr ⟨_, Core.entering_eq hh hp ht, by simp⟩
  | welcome hp => exact Or.inl (by simp)

namespace Sys

variable {env : Env} {s t u : Sys} {l : Label} {j k : ConnKey} {p : SendLocals → Bool} {n : ℕ}
  {sid : Sid}

/-- A step leaves the sessions of a connection alone, unless it takes one up. -/
theorem held_step (hB : Born s.toCore) (h : s.step env l = some t) (k : ConnKey) :
    (t.conn k).held = (s.conn k).held ∨ ∃ r : SessionIdent, s.takesUp env k l = some r.sid ∧
      (t.conn k).held = (s.conn k).held ++ [r] := by
  have hx := (coreStep h).conn k
  generalize t.conn k = x at hx
  cases hx with
  | act hl hh ha =>
      rcases ha.held hh.symm with he | ⟨r, he, hr⟩
      · exact Or.inl he
      · refine Or.inr ⟨r.toSessionIdent, ?_, hr⟩
        rw [hl, takesUp, if_pos rfl, he]
        rfl
  | handle hl hk hh ha =>
      have hheld := ha.held (by rw [Core.take_conn]; exact hh.symm)
      rw [Core.take_conn] at hheld
      rcases hheld with he | ⟨r, he, -⟩
      · exact Or.inl he
      · unfold Core.entering at he
        rw [Core.take_conn, hh] at he
        cases he
  | accepted hl hj =>
      rw [show s.conn k = Conn.unborn from hj ▸ hB.next _]
      exact Or.inl rfl
  | renewed hl hp hd hc =>
      refine Or.inr ⟨_, ?_, rfl⟩
      rw [hl]
      show s.renews env k (.resume (.rollover k)) = _
      rw [renews, if_pos rfl, hp, Option.bind_some, hd]
  | _ => exact Or.inl rfl

theorem heldBy_mono (hB : Born s.toCore) (h : s.step env l = some t)
    (hk : s.heldBy sid k = true) : t.heldBy sid k = true := by
  unfold heldBy at hk ⊢
  rcases held_step hB h k with he | ⟨r, -, he⟩
  · rw [he]
    exact hk
  · rw [he, List.any_append, hk, Bool.true_or]

theorem heldBy_step (hB : Born s.toCore) (h : s.step env l = some t)
    (hk : t.heldBy sid k = true) : s.heldBy sid k = true ∨ s.takesUp env k l = some sid := by
  unfold heldBy at hk ⊢
  rcases held_step hB h k with he | ⟨r, hr, he⟩
  · rw [he] at hk
    exact Or.inl hk
  · rw [he, List.any_append, Bool.or_eq_true] at hk
    rcases hk with hk | hk
    · exact Or.inl hk
    · have hsid : r.sid = sid := by simpa using hk
      exact Or.inr (hsid ▸ hr)

/-- A step takes up a session for one connection at most. -/
theorem takesUp_unique {a b : Sid} (hj : s.takesUp env j l = some a)
    (hk : s.takesUp env k l = some b) : j = k := by
  have acting : ∀ {i : ConnKey} {a : Sid}, s.takesUp env i l = some a →
      l = .resume (.handler i) ∨ l = .resume (.rollover i) := by
    intro i a hi
    unfold takesUp at hi
    split at hi
    · split at hi
      · rename_i he
        exact Or.inl (by rw [he])
      · cases hi
    · unfold renews at hi
      split at hi
      · split at hi
        · rename_i he
          exact Or.inr (by rw [he])
        · cases hi
      · cases hi
  rcases acting hj with rfl | rfl
  · rcases acting hk with he | he
    · simpa using he
    · cases he
  · rcases acting hk with he | he
    · cases he
    · simpa using he

/-- A connection that has held a session stays closed. -/
theorem closed_step (hB : Born s.toCore) (h : s.step env l = some t)
    (hk : s.heldBy sid k = true) (hc : (s.conn k).closed = true) : (t.conn k).closed = true := by
  have hx := (coreStep h).conn k
  generalize t.conn k = x at hx
  cases hx with
  | act hl hh ha => exact ha.kept.closed.trans hc
  | handle hl hacc hh ha =>
      have hcl := ha.kept.closed
      rw [Core.take_conn] at hcl
      exact hcl.trans hc
  | accepted hl hj =>
      unfold heldBy at hk
      rw [show s.conn k = Conn.unborn from hj ▸ hB.next _] at hk
      cases hk
  | shut => rfl
  | _ => exact hc

/-! ### The bound -/

/-- An entry that shows a challenge passed on a connection that `q` tells. -/
def passing (q : ConnKey → Bool) : Obs → Bool
  | .passed k _ => q k
  | _ => false

/-- The challenges passed, after the `n`-th entry of the journal, on connections that hold the
session or have held it. -/
def passes (sid : Sid) (n : ℕ) (s : Sys) : ℕ := (s.since n).countP (passing (s.heldBy sid))

/-- A connection that takes the session up finds the others that have held it closed, and brings no
more tokens with it than each of them would have now. -/
def passesOn (env : Env) (sid : Sid) (s : Sys) (l : Label) : Bool :=
  s.accepted.all fun k => decide (s.takesUp env k l ≠ some sid) ||
    s.accepted.all fun j => decide (j = k) || !s.heldBy sid j ||
      (s.conn j).closed &&
        (s.step env l).all fun t : Sys => decide (t.tokens env.round k ≤ t.tokens env.round j)

theorem accepted_of_heldBy (hB : Born s.toCore) (hk : s.heldBy sid k = true) :
    k ∈ s.accepted := by
  by_contra hn
  unfold heldBy at hk
  rw [hB.unborn k hn] at hk
  cases hk

theorem accepted_of_takesUp (hB : Born s.toCore) (hk : s.takesUp env k l = some sid) :
    k ∈ s.accepted := by
  by_contra hn
  unfold takesUp at hk
  split at hk
  · split at hk
    · unfold Core.entering at hk
      rw [hB.unborn k hn] at hk
      cases hk
    · cases hk
  · unfold renews at hk
    split at hk
    · split at hk
      · rw [hB.unborn k hn] at hk
        cases hk
      · cases hk
    · cases hk

theorem passesOn_at (hB : Born s.toCore) (hl : s.passesOn env sid l = true)
    (h : s.step env l = some t) (hk : s.takesUp env k l = some sid) (hj : s.heldBy sid j = true)
    (hne : j ≠ k) :
    (s.conn j).closed = true ∧ t.tokens env.round k ≤ t.tokens env.round j := by
  unfold passesOn at hl
  have hk' := List.all_eq_true.mp hl k (accepted_of_takesUp hB hk)
  simp only [hk, Bool.or_eq_true, decide_eq_true_eq, ne_eq, not_true_eq_false, false_or] at hk'
  have hj' := List.all_eq_true.mp hk' j (accepted_of_heldBy hB hj)
  simp only [hj, hne, Bool.or_eq_true, Bool.and_eq_true, decide_eq_true_eq, Bool.not_eq_true',
    Bool.true_eq_false, false_or, h, Option.all_some] at hj'
  exact hj'

/-- All but one of the connections that have held the session are closed. -/
def Alone (sid : Sid) (s : Sys) (k : ConnKey) : Prop :=
  ∀ j, s.heldBy sid j = true → j ≠ k → (s.conn j).closed = true

/-- A connection that takes the session up is the one that is left. -/
theorem alone_of_takesUp (hB : Born s.toCore) (h : s.step env l = some t)
    (hl : s.passesOn env sid l = true) (hk : s.takesUp env k l = some sid) : t.Alone sid k := by
  intro j hj hne
  rcases heldBy_step hB h hj with hj' | hj'
  · exact closed_step hB h hj' (passesOn_at hB hl h hk hj' hne).1
  · exact absurd (takesUp_unique hj' hk) hne

theorem Alone.step (hB : Born s.toCore) (hI : s.Alone sid k) (h : s.step env l = some t)
    (hl : s.passesOn env sid l = true) : ∃ i, t.Alone sid i := by
  by_cases hi : ∃ i, s.takesUp env i l = some sid
  · obtain ⟨i, hi⟩ := hi
    exact ⟨i, alone_of_takesUp hB h hl hi⟩
  · refine ⟨k, fun j hj hne => ?_⟩
    rcases heldBy_step hB h hj with hj' | hj'
    · exact closed_step hB h hj' (hI j hj' hne)
    · exact absurd ⟨j, hj'⟩ hi

/-- All buckets have the limits of a tier. -/
def Bounded (env : Env) (s : Sys) : Prop := ∀ k, (s.bucket k).Sound env.round

theorem Bounded.step (hI : s.Bounded env) (hP : s.Polite) (hJ : JoinsOnce s.toCore)
    (hB : Born s.toCore) (h : s.step env l = some t) : t.Bounded env := by
  intro k
  rcases step_bucket hP hJ hB h k with hs | ⟨hs, -⟩
  · exact hs.sound (hI k)
  · exact hs (hI k)

theorem bounded_of_reaches {C : Sys → Label → Prop} (h : (system env).Reaches C s) :
    s.Bounded env := by
  refine Machine.Reaches.invariant_of
    (J := fun s : Sys => s.Polite ∧ JoinsOnce s.toCore ∧ Born s.toCore)
    (I := fun s : Sys => s.Bounded env)
    (fun s hs => ⟨polite_of_reaches hs, joinsOnce_of_reaches hs, born_of_reaches hs⟩) ?_ ?_ h
  · rintro s ⟨t, rfl⟩ k
    exact TokenBucket.sound_new _ .normal _
  · intro s l t hJ hI _ hs
    exact hI.step hJ.1 hJ.2.1 hJ.2.2 hs

theorem alone_of_reaches (h : (system env).Reaches (fun s l => s.passesOn env sid l = true) s) :
    ∃ k, s.Alone sid k := by
  refine Machine.Reaches.invariant_of (J := fun s : Sys => Born s.toCore)
    (I := fun s : Sys => ∃ k, s.Alone sid k) (fun s hs => born_of_reaches hs) ?_ ?_ h
  · rintro s ⟨t, rfl⟩
    refine ⟨⟨0, 0⟩, fun j hj => ?_⟩
    cases hj
  · rintro s l t hB ⟨k, hI⟩ hl hs
    exact hI.step hB hs hl

/-! ### One step of the bucket that is in use -/

/-- A frame that is handled spends a token if its send is granted one. -/
theorem fair_step (h : s.step env (.handle k) = some t) : Fair env s t k := by
  obtain ⟨-, h⟩ := Option.ite_none_right_eq_some.mp h
  unfold handleNext at h
  split at h
  · cases h
    refine Calm.fair_handle ?_ _
    exact ((Calm.refl env s).onCore (·.take k) rfl).quiet
      (Quiet.refl.updSide (by exact fun _ => ⟨rfl, ⟨rfl, rfl⟩⟩))
  · cases h

theorem joined_of_heldBy (hH : (s.toCore.berth k).Holds) (hk : s.heldBy sid k = true) :
    (s.conn k).joined = true := by
  by_contra hj
  have hnil : (s.conn k).held = [] := hH.held_eq_nil (Bool.eq_false_iff.mpr hj)
  unfold heldBy at hk
  rw [hnil] at hk
  cases hk

theorem heldBy_of_record (hH : (s.toCore.berth k).Holds) {r : SessionIdent}
    (hr : (s.conn k).record = some r) (hsid : r.sid = sid) : s.heldBy sid k = true := by
  have hlast : (s.conn k).record = (s.conn k).held.getLast? := hH.record
  have hmem : r ∈ (s.conn k).held := List.mem_of_getLast? (hlast ▸ hr)
  exact List.any_eq_true.mpr ⟨r, hmem, by simpa using hsid⟩

theorem passes_step (hB : Born s.toCore) (h : s.step env l = some t)
    (hn : n ≤ s.world.journal.length) : s.passes sid n +
      (t.since s.world.journal.length).countP (passing (t.heldBy sid)) ≤ t.passes sid n := by
  obtain ⟨log, hlog, hsince⟩ := since_step h hn
  obtain ⟨log', hlog', hsince'⟩ := since_step h le_rfl
  have hnil := s.since_length
  have hsame : log' = log := by
    have hj := congrArg (List.drop (s.since n).length) hsince
    have hlen : (s.since n).length = s.world.journal.length - n := List.length_drop
    rw [List.drop_left] at hj
    rw [← hj, hlen]
    rw [hnil, List.nil_append] at hsince'
    rw [← hsince']
    unfold since
    rw [List.drop_drop]
    congr 1
    omega
  unfold passes
  rw [hsince, List.countP_append, hsince', hnil, List.nil_append, hsame]
  refine Nat.add_le_add_right (List.countP_mono_left fun o ho hp => ?_) _
  cases o with
  | passed k sid' => exact heldBy_mono hB h hp
  | _ => cases hp

/-! ### Runs -/

/-- Neither the journal nor the clock has gone back. -/
structure Before (s t : Sys) : Prop where
  journal : s.world.journal.length ≤ t.world.journal.length
  clock : s.clock ≤ t.clock

theorem Before.refl (s : Sys) : s.Before s := ⟨le_rfl, le_rfl⟩

theorem Before.trans (h : s.Before t) (h' : t.Before u) : s.Before u :=
  ⟨h.journal.trans h'.journal, h.clock.trans h'.clock⟩

/-- What a session may be charged from the instant `a` to `c`, with the challenges passed since the
`n`-th entry of the journal. -/
def allowance (env : Env) (sid : Sid) (n : ℕ) (a c : ℤ) (s : Sys) : ℚ :=
  10 + ((c - a : ℤ) : ℚ) * TokenBucket.inflow env.round + 10 * s.passes sid n

theorem ten_le_allowance {a c : ℤ} (h : a ≤ c) : 10 ≤ s.allowance env sid n a c := by
  have hd : (0 : ℚ) ≤ ((c - a : ℤ) : ℚ) := by exact_mod_cast sub_nonneg.mpr h
  have hin := mul_nonneg hd (TokenBucket.inflow_nonneg env.round)
  have hp : (0 : ℚ) ≤ (s.passes sid n : ℚ) := Nat.cast_nonneg _
  unfold allowance
  linarith

/-- The allowance grows with the time and with each challenge that is passed. -/
theorem allowance_step {a c c' : ℤ} {m : ℕ} (hm : s.passes sid n + m ≤ t.passes sid n) :
    s.allowance env sid n a c + ((c' - c : ℤ) : ℚ) * TokenBucket.inflow env.round + 10 * m ≤
      t.allowance env sid n a c' := by
  have hm' : (s.passes sid n : ℚ) + m ≤ t.passes sid n := by exact_mod_cast hm
  have hc : ((c' - a : ℤ) : ℚ) = ((c - a : ℤ) : ℚ) + ((c' - c : ℤ) : ℚ) := by
    push_cast
    ring
  unfold allowance
  rw [hc, add_mul]
  linarith

/-- The tokens of a connection that has held the session grow with the time, or a challenge is
passed on it. -/
theorem tokens_step {C : Sys → Label → Prop} (hs : (system env).Reaches C s)
    (h : s.step env l = some t) (hk : s.heldBy sid k = true) :
    t.tokens env.round k ≤ s.tokens env.round k +
        ((t.clock - s.clock : ℤ) : ℚ) * TokenBucket.inflow env.round ∨
      t.tokens env.round k ≤ 10 ∧
        0 < (t.since s.world.journal.length).countP (passing (t.heldBy sid)) := by
  have hB := born_of_reaches hs
  have hS := bounded_of_reaches hs
  rcases step_bucket (polite_of_reaches hs) (joinsOnce_of_reaches hs) hB h k with
    hb | ⟨hb, hj | ⟨sid', hpass⟩⟩
  · refine Or.inl ?_
    rcases (clock_mono h).eq_or_lt with hc | hlt
    · rw [← hc, sub_self, Int.cast_zero, zero_mul, add_zero]
      unfold tokens
      rw [← hc]
      exact hb.avail (hS k)
    · have hnext : (s.clock : ℚ) + 1 ≤ t.clock := by exact_mod_cast hlt
      have hlater := TokenBucket.avail_later (hb.sound (hS k)) hnext
      rw [← Int.cast_sub] at hlater
      exact hlater.trans (add_le_add_left (hb.avail (hS k)) _)
  · rw [joined_of_heldBy (holds_of_reaches hs k) hk] at hj
    cases hj
  · refine Or.inr ⟨TokenBucket.avail_le (hb (hS k)), ?_⟩
    exact List.countP_pos_iff.mpr ⟨_, hpass, heldBy_mono hB h hk⟩

/-- Only the connection that is not closed can be charged, and it pays with a token. -/
theorem Charges.pays {C : Sys → Label → Prop} (hs : (system env).Reaches C s) {i : ConnKey}
    (h : s.step env (.handle i) = some t) {x : SendLocals} (hx : Charges env s t i x)
    (hsid : x.record.sid = sid) (hA : s.Alone sid k) : s.heldBy sid i = true ∧ i = k ∧
      t.clock = s.clock ∧ t.tokens env.round i + 1 ≤ s.tokens env.round i := by
  have hheld : s.heldBy sid i = true := heldBy_of_record (holds_of_reaches hs i) hx.record hsid
  have hclock : t.clock = s.clock := clock_step h fun _ he => by cases he
  refine ⟨hheld, ?_, hclock, ?_⟩
  · by_contra hne
    have hnone := handle_closed h (hA i hheld hne)
    have hg := hx.granted
    unfold Sys.granted at hg
    rw [hnone] at hg
    cases hg
  · rcases (fair_step h).2 with hnone | htake
    · cases hnone.symm.trans hx.granted
    · unfold tokens
      rw [hclock]
      exact htake (bounded_of_reaches hs i)

/-- What is charged to the connection that holds the session is paid for with its tokens. -/
theorem paid_step {C : Sys → Label → Prop} (hs : (system env).Reaches C s)
    (ht : (system env).Reaches C t) (h : s.step env l = some t)
    (hp : ∀ x, p x = true → x.record.sid = sid) {a : ℤ} (hn : n ≤ s.world.journal.length)
    (hk : s.heldBy sid k = true) (hA : s.Alone sid k)
    (hpaid : (s.charged p n : ℚ) + s.tokens env.round k ≤ s.allowance env sid n a s.clock) :
    (t.charged p n : ℚ) + t.tokens env.round k ≤ t.allowance env sid n a t.clock := by
  have hB := born_of_reaches hs
  have hpasses : s.passes sid n +
      (t.since s.world.journal.length).countP (passing (t.heldBy sid)) ≤ t.passes sid n :=
    passes_step hB h hn
  have hall : s.allowance env sid n a s.clock +
      ((t.clock - s.clock : ℤ) : ℚ) * TokenBucket.inflow env.round + 10 * (0 : ℕ) ≤
        t.allowance env sid n a t.clock :=
    allowance_step (le_trans (Nat.le_add_right _ _) hpasses)
  rw [Nat.cast_zero, mul_zero, add_zero] at hall
  rcases charged_step (p := p) hB (born_of_reaches ht) h hn with hc | ⟨i, x, rfl, hx, hpx, hc⟩
  · have hc' : (t.charged p n : ℚ) ≤ s.charged p n := by exact_mod_cast hc
    rcases tokens_step hs h hk with htok | ⟨htok, hpos⟩
    · linarith
    · -- a challenge passed pays for a full bucket
      have hall' : s.allowance env sid n a s.clock +
          ((t.clock - s.clock : ℤ) : ℚ) * TokenBucket.inflow env.round + 10 * (1 : ℕ) ≤
            t.allowance env sid n a t.clock :=
        allowance_step (le_trans (Nat.add_le_add_left hpos _) hpasses)
      have hnow : 0 ≤ s.tokens env.round k := TokenBucket.avail_nonneg (bounded_of_reaches hs k)
      have hd : (0 : ℚ) ≤ ((t.clock - s.clock : ℤ) : ℚ) := by
        exact_mod_cast sub_nonneg.mpr (clock_mono h)
      have hin := mul_nonneg hd (TokenBucket.inflow_nonneg env.round)
      rw [Nat.cast_one, mul_one] at hall'
      linarith
  · obtain ⟨-, rfl, hclock, hspent⟩ := hx.pays hs h (hp x hpx) hA
    have hc' : (t.charged p n : ℚ) ≤ s.charged p n + 1 := by exact_mod_cast hc
    rw [hclock, sub_self, Int.cast_zero, zero_mul, add_zero, ← hclock] at hall
    rw [hclock] at hall ⊢
    linarith

/-- The messages of the session that have been charged were charged from the instant `a` to `c`,
within its day. They are within the allowance for this time, and the bucket of the connection that
holds the session covers what is left of the allowance now. -/
structure Within (env : Env) (sid : Sid) (p : SendLocals → Bool) (n : ℕ) (a c : ℤ) (s : Sys) :
    Prop where
  order : a ≤ c
  past : c ≤ s.clock
  room : ∃ f, Dated env f s.toCore ∧ f sid = some (env.roomAt a).roomId
  today : (env.roomAt c).roomId = (env.roomAt a).roomId
  total : (s.charged p n : ℚ) ≤ s.allowance env sid n a c
  lead : ∃ k, s.heldBy sid k = true ∧ s.Alone sid k ∧
    (s.charged p n : ℚ) + s.tokens env.round k ≤ s.allowance env sid n a s.clock

/-- The room of a session stays. -/
theorem room_step {C : Sys → Label → Prop} (hs : (system env).Reaches C s)
    (h : s.step env l = some t) {roomId : String}
    (hr : ∃ f, Dated env f s.toCore ∧ f sid = some roomId) :
    ∃ f, Dated env f t.toCore ∧ f sid = some roomId := by
  obtain ⟨f, hf, hsid⟩ := hr
  have hg := hf.step (coreStep h) (seats_of_reaches hs) (born_of_reaches hs)
    (renewals_of_reaches hs)
  exact ⟨_, hg, assign_extends _ _ hsid⟩

/-- A connection that takes the session up covers no more than the one before it. -/
theorem lead_step {C : Sys → Label → Prop} (hs : (system env).Reaches C s)
    (ht : (system env).Reaches C t) (h : s.step env l = some t)
    (hl : s.passesOn env sid l = true) (hp : ∀ x, p x = true → x.record.sid = sid) {a : ℤ}
    (hn : n ≤ s.world.journal.length)
    (hlead : ∃ k, s.heldBy sid k = true ∧ s.Alone sid k ∧
      (s.charged p n : ℚ) + s.tokens env.round k ≤ s.allowance env sid n a s.clock) :
    ∃ k, t.heldBy sid k = true ∧ t.Alone sid k ∧
      (t.charged p n : ℚ) + t.tokens env.round k ≤ t.allowance env sid n a t.clock := by
  have hB := born_of_reaches hs
  obtain ⟨k, hk, hA, hpaid⟩ := hlead
  have hpaid' := paid_step hs ht h hp hn hk hA hpaid
  by_cases htake : ∃ i, s.takesUp env i l = some sid ∧ t.heldBy sid i = true
  · obtain ⟨i, hi, hheld⟩ := htake
    refine ⟨i, hheld, alone_of_takesUp hB h hl hi, ?_⟩
    by_cases hki : k = i
    · rwa [hki] at hpaid'
    · have hle := (passesOn_at hB hl h hi hk hki).2
      linarith
  · refine ⟨k, heldBy_mono hB h hk, fun j hj hne => ?_, hpaid'⟩
    have hback : s.heldBy sid j = true :=
      (heldBy_step hB h hj).resolve_right fun hj' => htake ⟨j, hj', hj⟩
    exact closed_step hB h hback (hA j hback hne)

/-- The first message that is charged. -/
theorem Within.start (hs : (system env).Reaches (fun s l => s.passesOn env sid l = true) s)
    {i : ConnKey} (h : s.step env (.handle i) = some t)
    (hp : ∀ x, p x = true → x.record.sid = sid) {x : SendLocals} (hx : Charges env s t i x)
    (hpx : p x = true) (hc : t.charged p n ≤ 1) : t.Within env sid p n s.clock s.clock := by
  have hB := born_of_reaches hs
  obtain ⟨k, hA⟩ := alone_of_reaches hs
  obtain ⟨hheld, rfl, hclock, hspent⟩ := hx.pays hs h (hp x hpx) hA
  have hc' : (t.charged p n : ℚ) ≤ 1 := by exact_mod_cast hc
  have hten : 10 ≤ t.allowance env sid n s.clock s.clock := ten_le_allowance le_rfl
  have hfull : s.tokens env.round i ≤ 10 := TokenBucket.avail_le (bounded_of_reaches hs i)
  refine ⟨le_rfl, hclock.ge, ?_, rfl, by linarith, i, heldBy_mono hB h hheld, ?_, ?_⟩
  · obtain ⟨f, hf⟩ := dated_of_reaches hs
    have hfits : f x.record.sid = some x.record.roomId := hf.held i x.record hx.record
    rw [hp x hpx, ← hx.today] at hfits
    exact room_step hs h ⟨f, hf, hfits⟩
  · intro j hj hne
    rcases heldBy_step hB h hj with hj' | hj'
    · exact closed_step hB h hj' (hA j hj' hne)
    · cases hj'
  · rw [hclock]
    linarith

theorem Within.step {C : Sys → Label → Prop} (hs : (system env).Reaches C s)
    (ht : (system env).Reaches C t) {a c : ℤ} (hI : s.Within env sid p n a c)
    (hp : ∀ x, p x = true → x.record.sid = sid) (hn : n ≤ s.world.journal.length)
    (h : s.step env l = some t) (hl : s.passesOn env sid l = true) :
    ∃ c', t.Within env sid p n a c' := by
  have hlead := lead_step hs ht h hl hp hn hI.lead
  have hroom := room_step hs h hI.room
  have hpasses : s.passes sid n + 0 ≤ t.passes sid n :=
    le_trans (Nat.le_add_right _ _) (passes_step (born_of_reaches hs) h hn)
  rcases charged_step (p := p) (born_of_reaches hs) (born_of_reaches ht) h hn with
    hc | ⟨i, x, rfl, hx, hpx, -⟩
  · refine ⟨c, hI.order, hI.past.trans (clock_mono h), hroom, hI.today, ?_, hlead⟩
    have hall : s.allowance env sid n a c +
        ((c - c : ℤ) : ℚ) * TokenBucket.inflow env.round + 10 * (0 : ℕ) ≤
          t.allowance env sid n a c := allowance_step hpasses
    rw [sub_self, Int.cast_zero, zero_mul, Nat.cast_zero, mul_zero, add_zero, add_zero] at hall
    have hc' : (t.charged p n : ℚ) ≤ s.charged p n := by exact_mod_cast hc
    exact hc'.trans (hI.total.trans hall)
  · -- it is charged in the day of the session, and paid for
    have hclock : t.clock = s.clock := clock_step h fun _ he => by cases he
    refine ⟨t.clock, hI.order.trans (hI.past.trans hclock.ge), le_rfl, hroom, ?_, ?_, hlead⟩
    · obtain ⟨f, hf, hsid⟩ := hI.room
      have hfits : f x.record.sid = some x.record.roomId := hf.held i x.record hx.record
      rw [hp x hpx, hsid] at hfits
      rw [hclock, hx.today]
      exact (Option.some.inj hfits).symm
    · obtain ⟨k, -, -, hpaid⟩ := hlead
      have htok : 0 ≤ t.tokens env.round k := TokenBucket.avail_nonneg (bounded_of_reaches ht k)
      linarith

/-- The sends of a session whose frame was taken after the first `n` entries of the journal and
within the first `m`. -/
def between (sid : Sid) (n m : ℕ) (x : SendLocals) : Bool :=
  decide (x.record.sid = sid) && decide (n < x.mark) && decide (x.mark ≤ m)

end Sys

/-- Within a day, rounding adds less than a thousandth of a token to a bucket. -/
def Env.Precise (env : Env) : Prop :=
  ∀ a c : ℤ, a ≤ c → (env.roomAt c).roomId = (env.roomAt a).roomId →
    1000 * (((c - a : ℤ) : ℚ) * TokenBucket.drift env.round) < 1

theorem Env.precise_of_exact {env : Env} (h : env.round = .exact) : env.Precise := by
  intro a c _ _
  rw [h, TokenBucket.drift_exact, mul_zero, mul_zero]
  exact zero_lt_one

namespace Demo

/-- A second connection resumes the session of the first. -/
def resumed : List Label := request 1 "b" ++ handshake 1 ++ rejoins (conn 2) 1

/-- The messages of the first session that are accepted by the end of a run. -/
def accepts (s u : Sys) : ℕ :=
  u.filed (Sys.between 0 s.world.journal.length u.world.journal.length) s.world.journal.length

end Demo

end RoomBackend
