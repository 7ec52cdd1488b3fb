import RoomBackend.Attempts
import RoomBackend.Histories

/-! # What a session has deserved

The record of a session says until when it is trusted and how often it was blocked. A client
cannot choose either: whatever handlers, saves and rollovers interleave, every copy of the record,
stored or held, names as the start of its trust the instant of a challenge response of this session
that the verifier confirmed, and counts no block that was not begun for it (`Deserved`). So trust is
earned less than half an hour ago (`trust_earned`), and the first block of a session lasts ten
minutes (`blocks_earned`). -/

namespace RoomBackend

open Async Day Lts Expiring

/-! ### The deeds of a run -/

/-- The challenges that were passed, with the instants of the responses, and the sessions that
temporary blocks were begun for. -/
structure Deeds where
  passed : List (Sid × ℤ)
  blocked : List Sid

namespace Sys

/-- The right response that the step goes on with: its session and its instant. -/
def confirmed (s : Sys) : Label → Option (Sid × ℤ)
  | .resume (.handler k) =>
      match (s.conn k).handler with
      | some (.challenge (.verify _ r now p)) =>
          if !(s.conn k).closed ∧ p.orElse false = some true then some (r.sid, now) else none
      | _ => none
  | _ => none

/-- The deeds, after a step to `t`. -/
def deeds (s : Sys) (l : Label) (t : Sys) (g : Deeds) : Deeds :=
  { passed := (s.confirmed l).toList ++ g.passed
    blocked := ((t.blocking l).map fun b => b.record.sid).toList ++ g.blocked }

end Sys

/-- The system, with the deeds so far. -/
def judging (env : Env) : Machine (Sys × Deeds) Label := (system env).beside ⟨[], []⟩ Sys.deeds

/-- The trust was earned and the blocks were served. -/
structure Deserved (g : Deeds) (sid : Sid) (t : Standing) : Prop where
  trust : t.trustedUntil = 0 ∨ ∃ now, (sid, now) ∈ g.passed ∧
    t.trustedUntil = now + TRUST_WINDOW_MS
  blocks : t.blocks ≤ g.blocked.count sid

/-- More was done. -/
structure Deeds.Grows (g g' : Deeds) : Prop where
  passed : g.passed ⊆ g'.passed
  blocked : ∀ sid, g.blocked.count sid ≤ g'.blocked.count sid

namespace Deserved

variable {g g' : Deeds} {sid : Sid} {s t : Standing}

theorem grow (h : Deserved g sid t) (hg : g.Grows g') : Deserved g' sid t := by
  refine ⟨?_, h.blocks.trans (hg.blocked sid)⟩
  rcases h.trust with h0 | ⟨now, hp, ht⟩
  · exact Or.inl h0
  · exact Or.inr ⟨now, hg.passed hp, ht⟩

/-- The other fields do not matter. -/
theorem same (h : Deserved g sid s) (ht : t.trustedUntil = s.trustedUntil)
    (hb : t.blocks = s.blocks) : Deserved g sid t := by
  refine ⟨?_, hb ▸ h.blocks⟩
  rw [ht]
  exact h.trust

theorem fresh (ht : t.trustedUntil = 0) (hb : t.blocks = 0) : Deserved g sid t :=
  ⟨Or.inl ht, hb ▸ Nat.zero_le _⟩

end Deserved

/-- All of the records are deserved. -/
def Deeds.Covers (g : Deeds) (rs : List SessionRecord) : Prop :=
  ∀ r ∈ rs, Deserved g r.sid r.toStanding

/-- Whatever a connection holds is deserved. -/
def Deeds.Bears (g : Deeds) (x : Conn) : Prop := ∀ sid, Deserved g sid (x.standing sid)

section deeds

variable {g g' : Deeds}

theorem Deeds.Covers.grow {rs : List SessionRecord} (h : g.Covers rs) (hg : g.Grows g') :
    g'.Covers rs := fun r hr => (h r hr).grow hg

theorem Deeds.covers_nil : g.Covers [] := fun _ hr => absurd hr List.not_mem_nil

theorem Deeds.covers_singleton {r : SessionRecord} (h : Deserved g r.sid r.toStanding) :
    g.Covers [r] := by
  intro r' hr
  rw [List.mem_singleton.mp hr]
  exact h

theorem Deeds.Bears.of_eq {x y : Conn} (h : g.Bears x) (hs : y.standing = x.standing) :
    g.Bears y := by
  intro sid
  rw [hs]
  exact h sid

/-- One record is assigned. -/
theorem Deeds.Bears.update {x y : Conn} {sid : Sid} {t : Standing} (h : g.Bears x)
    (hs : y.standing = Function.update x.standing sid t) (ht : Deserved g sid t) : g.Bears y := by
  show ∀ sid', Deserved g sid' (y.standing sid')
  rw [hs]
  exact forall_update h ht

theorem Deeds.Bears.grow {x : Conn} (h : g.Bears x) (hg : g.Grows g') : g'.Bears x :=
  fun sid => (h sid).grow hg

/-- What `persist` saves is deserved. -/
theorem Deeds.Bears.saveReq {c : Core} {k : ConnKey} (h : g.Bears (c.conn k)) (q : Rating) :
    g.Covers (savedCopies (c.saveReq k q)) := by
  intro r hr
  unfold Core.saveReq at hr
  split at hr
  · cases hr
  · rename_i r' _
    split at hr
    · cases hr
    · cases List.mem_singleton.mp hr
      exact h r'.sid

end deeds

/-! ### Stretches of a function -/

section resume

variable {env : Env} {g : Deeds}

theorem CreatePc.wait_covers {d d' : ℕ} {p p' : CreatePc}
    (hr : p.resume env d = some (.wait p', d')) (h : g.Covers p.copies) : g.Covers p'.copies := by
  unfold CreatePc.resume at hr
  split at hr
  · split at hr
    · cases hr
    · cases hr
    · cases hr
      exact Deeds.covers_singleton (.fresh rfl rfl)
    · split at hr
      · cases hr
        exact Deeds.covers_nil
      · cases hr
  · split at hr
    · cases hr
    · cases hr
      exact h
    · cases hr
      exact h
  · split at hr
    · cases hr
    · cases hr
    · split at hr <;> cases hr

theorem JoinMove.covers {c : Core} {k : ConnKey} {p p' : JoinPc} {d : ℕ}
    (hm : JoinMove env c k p p' d) (h : g.Covers p.copies) : g.Covers p'.copies := by
  cases hm with
  | @resume j token r r' hr =>
      show g.Covers r'.copies
      rw [ResumePc.wait_copies hr]
      exact Deeds.covers_nil
  | unknown => exact Deeds.covers_nil
  | found hr => exact Deeds.covers_singleton (h _ (ResumePc.done_copies hr))
  | create => exact Deeds.covers_nil
  | creating hp => exact CreatePc.wait_covers hp h
  | created hp => exact Deeds.covers_singleton (h _ (CreatePc.done_copies hp))
  | rejoined => exact h
  | retryCreated => exact Deeds.covers_nil
  | retryRejoined => exact Deeds.covers_nil

end resume

section acts

variable {env : Env} {g g' : Deeds} {c c' c₁ : Core} {k : ConnKey} {up : Bool}
  {h h' : Option Handler}

theorem BlockMove.covers {b b' : BlockPc} (hb : BlockMove c k b b') (hc : g.Bears (c.conn k)) :
    g.Covers b'.copies := by
  cases hb with
  | net => exact Deeds.covers_nil
  | save q hp => exact hc.saveReq q
  | saveNet q hp => exact hc.saveReq q

theorem Deeds.Bears.issue (hc : g.Bears (c.conn k)) (r : SessionIdent) :
    g.Bears ((c.issue k r).conn k) :=
  hc.update (congrArg Conn.standing (c.issue_conn k r)) ((hc r.sid).same rfl rfl)

theorem Deeds.Bears.fail (hc : g.Bears (c.conn k)) (r : SessionIdent) :
    g.Bears ((c.fail k r).conn k) :=
  hc.update (congrArg Conn.standing (c.fail_conn k r)) ((hc r.sid).same rfl rfl)

theorem Deeds.Bears.pass (hc : g.Bears (c.conn k)) {r : SessionIdent} {now : ℤ}
    (hp : (r.sid, now) ∈ g.passed) : g.Bears ((c.pass k r (now + TRUST_WINDOW_MS)).conn k) :=
  hc.update (congrArg Conn.standing (c.pass_conn k r _)) ⟨Or.inr ⟨now, hp, rfl⟩, (hc r.sid).blocks⟩

/-- A block that begins is one of the deeds. -/
theorem Deeds.Bears.tempBlock (hc : g.Bears (c.conn k)) (hg : g.Grows g') {r : SessionIdent}
    (hb : g'.blocked = r.sid :: g.blocked) (reason : String) :
    g'.Bears ((c.tempBlock k r reason).1.conn k) := by
  refine (hc.grow hg).update (congrArg Conn.standing (c.tempBlock_conn k r reason)) ?_
  refine ⟨((hc r.sid).grow hg).trust, ?_⟩
  rw [hb, List.count_cons_self]
  exact Nat.succ_le_succ (hc r.sid).blocks

theorem Escalates.covers {e : EscalatePc} (he : Escalates c k c' e) (hc : g.Bears (c.conn k))
    (hg : g.Grows g')
    (hb : ∀ b, e = .block (.sess b .pending) → g'.blocked = b.record.sid :: g.blocked) :
    g'.Bears (c'.conn k) ∧ g'.Covers e.copies := by
  cases he with
  | quiet => exact ⟨hc.grow hg, Deeds.covers_nil⟩
  | challenge q hr => exact ⟨(hc.issue _).grow hg, ((hc.issue _).saveReq q).grow hg⟩
  | block reason hr => exact ⟨hc.tempBlock hg (hb _ rfl) reason, Deeds.covers_nil⟩

theorem EscalateMove.covers {e e' : EscalatePc} (he : EscalateMove c k e c' e')
    (hc : g.Bears (c.conn k)) : g.Bears (c'.conn k) ∧ g.Covers e'.copies := by
  cases he with
  | challenged => exact ⟨hc, Deeds.covers_nil⟩
  | block hb => exact ⟨hc, hb.covers hc⟩
  | blocked => exact ⟨hc.of_eq (by rw [Core.blockEnd_conn]), Deeds.covers_nil⟩

/-- A stretch of a handler leaves deserved records behind: trust is given for a response that
`g'` notes, and the block that it begins is noted too. -/
theorem Act.covers (ha : Act env k up c h c₁ h') (hc : g.Bears (c.conn k))
    (hh : g.Covers (handlerCopies h)) (hg : g.Grows g')
    (hpass : ∀ token r now p until_, h = some (.challenge (.verify token r now p)) →
      c₁ = c.pass k r until_ → (r.sid, now) ∈ g'.passed ∧ until_ = now + TRUST_WINDOW_MS)
    (hblock : ∀ b, h'.bind Handler.begun = some b → g'.blocked = b.record.sid :: g.blocked) :
    g'.Bears (c₁.conn k) ∧ g'.Covers (handlerCopies h') := by
  -- nothing that is held changes, and no copy is carried on
  have quiet : (c₁.conn k).standing = (c.conn k).standing → handlerCopies h' = [] →
      g'.Bears (c₁.conn k) ∧ g'.Covers (handlerCopies h') := by
    intro hs hn
    rw [hn]
    exact ⟨(hc.of_eq hs).grow hg, Deeds.covers_nil⟩
  cases ha with
  | joinMove hp => exact ⟨hc.grow hg, (hp.covers hh).grow hg⟩
  | joinBlocked => exact quiet (by rw [Core.mute_conn]) rfl
  | joinEnter hp ht =>
      refine ⟨?_, Deeds.covers_nil⟩
      exact ((hc.update (congrArg Conn.standing (c.enter_conn k _ _))
        (hh _ (List.mem_singleton_self _))).grow hg)
  | joinWelcome hp => exact quiet (by rw [Core.announce_conn]) rfl
  | @sendSwitch r e hr hj =>
      refine quiet ?_ rfl
      rw [Core.checkRoom_conn]
      rfl
  | sendLimited hl he =>
      exact he.covers (g := g) hc hg fun b hb => hblock b (by rw [hb]; rfl)
  | sendEscalate hh' he => exact he.covers hc hg fun b hb => hblock b (by rw [hb]; rfl)
  | sendEscalating he =>
      obtain ⟨hb, hr⟩ := he.covers hc
      exact ⟨hb.grow hg, hr.grow hg⟩
  | sendReply => split <;> exact ⟨hc.grow hg, Deeds.covers_nil⟩
  | @passed token r now until_ p q =>
      obtain ⟨hp, rfl⟩ := hpass _ _ _ _ _ rfl rfl
      exact ⟨(hc.grow hg).pass hp, ((hc.grow hg).pass hp).saveReq q⟩
  | failed q => exact ⟨(hc.fail _).grow hg, ((hc.fail _).saveReq q).grow hg⟩
  | failedOver => exact ⟨(hc.fail _).grow hg, Deeds.covers_nil⟩
  | failedBlock reason hr =>
      exact ⟨(hc.fail _).tempBlock hg (hblock _ rfl) reason, Deeds.covers_nil⟩
  | challengeBlock hb => exact ⟨hc.grow hg, (hb.covers hc).grow hg⟩
  | challengeBlocked => exact quiet (by rw [Core.blockEnd_conn]) rfl
  | _ => exact quiet rfl rfl

end acts

/-! ### A verification that goes well -/

namespace Sys

variable {env : Env} {s t : Sys} {k : ConnKey} {token : String} {r : SessionIdent} {now : ℤ}
  {p : Promise Bool}

/-- A wrong answer leaves no line in the journal. -/
theorem journal_challengeFailed (r : SessionIdent) :
    (s.challengeFailed env k r).world.journal = s.world.journal := by
  unfold challengeFailed
  dsimp only
  split
  · split <;> rfl
  · rw [toCore_suspend, toCore_persist]
    rfl

/-- Trust is given by the step that goes on with a right answer, from the instant of the response
on. -/
theorem confirmed_of_pass {until_ : ℤ} {h' : Option Handler}
    (hs : s.step env (.resume (.handler k)) = some t)
    (hh : (s.conn k).handler = some (.challenge (.verify token r now p)))
    (ht : t.toCore = (s.toCore.pass k r until_).setHandler k h') :
    s.confirmed (.resume (.handler k)) = some (r.sid, now) ∧ until_ = now + TRUST_WINDOW_MS := by
  obtain ⟨x, hx, hu⟩ := Option.bind_eq_some_iff.mp hs
  obtain rfl := Option.some.inj (hh.symm.trans hx)
  obtain ⟨ok, hp, hu⟩ := Option.map_eq_some_iff.mp
    (show s.challengeResume env k (.verify token r now p) = some t from hu)
  have hj : t.world.journal = s.world.journal ++ [.passed k r.sid] := by
    rw [ht]
    rfl
  -- the other branches leave the journal as it is
  have quiet : t.world.journal ≠ s.world.journal := by
    rw [hj]
    simp
  by_cases hc : (s.conn k).closed = true
  · rw [if_pos hc] at hu
    exact absurd (congrArg (fun t : Sys => t.world.journal) hu.symm) quiet
  · rw [if_neg hc] at hu
    cases ok with
    | false => exact absurd (hu ▸ journal_challengeFailed r) quiet
    | true =>
        refine ⟨?_, ?_⟩
        · unfold confirmed
          dsimp only
          rw [hh]
          simp [hc, hp]
        · have hmine : t.toCore = (s.toCore.pass k r (now + TRUST_WINDOW_MS)).setHandler k
              ((s.challengePassed env k r now).conn k).handler := by
            rw [← hu, if_pos rfl]
            unfold challengePassed
            dsimp only
            rw [toCore_suspend, toCore_persist, Core.setHandler_conn]
            rfl
          have hst := congrArg (fun c : Core => ((c.conn k).standing r.sid).trustedUntil)
            (ht.symm.trans hmine)
          simpa [Core.setHandler_conn] using hst

end Sys

/-! ### Steps -/

/-- Every copy of a session record is deserved. -/
structure Earned (c : Core) (g : Deeds) : Prop where
  stored : ∀ sid e, c.world.store.sess sid = some e → Deserved g e.v.sid e.v.toStanding
  held : ∀ k, g.Bears (c.conn k)
  handler : ∀ k, g.Covers (handlerCopies (c.conn k).handler)
  rolling : ∀ k p, (c.conn k).rolling = some p → g.Covers p.create.copies
  task : ∀ n b, c.task n = some b → g.Covers b.copies

theorem Sys.grows_deeds (s : Sys) (l : Label) (t : Sys) (g : Deeds) : g.Grows (s.deeds l t g) := by
  refine ⟨List.subset_append_right .., fun sid => ?_⟩
  unfold deeds
  dsimp only
  rw [List.count_append]
  omega

/-- The deeds are added up at the end of a stretch. -/
theorem Sys.blocked_deeds {s t : Sys} {l : Label} {g : Deeds} {b : BlockLocals}
    (hb : t.blocking l = some b) : (s.deeds l t g).blocked = b.record.sid :: g.blocked := by
  unfold deeds
  simp [hb]

namespace Earned

variable {env : Env} {s t : Sys} {l : Label} {g : Deeds}

/-- A save under way is that of a copy. -/
theorem saving {c : Core} (h : Earned c g) {th : Thread} {k : ConnKey} {q : SaveReq}
    (hs : c.saving th = some (k, q)) : Deserved g q.record.sid q.record.toStanding := by
  cases th with
  | handler j =>
      obtain ⟨q', hq, he⟩ := Option.map_eq_some_iff.mp hs
      obtain ⟨rfl, rfl⟩ := Prod.mk.inj he
      obtain ⟨x, hx, hq⟩ := Option.bind_eq_some_iff.mp hq
      refine h.handler j _ ?_
      rw [hx]
      exact Handler.mem_copies hq
  | rollover j =>
      obtain ⟨q', hq, he⟩ := Option.map_eq_some_iff.mp hs
      obtain ⟨rfl, rfl⟩ := Prod.mk.inj he
      obtain ⟨p, hp, hq⟩ := Option.bind_eq_some_iff.mp hq
      exact h.rolling _ p hp _ (CreatePc.mem_copies hq)
  | task n =>
      simp only [Core.saving] at hs
      split at hs
      · rename_i j req p hb
        obtain ⟨q', hq, he⟩ := Option.map_eq_some_iff.mp hs
        obtain ⟨rfl, rfl⟩ := Prod.mk.inj he
        have hm := mem_savedCopies_of_unsaved hq
        exact h.task n _ hb _ hm
      · cases hs
  | reset i => cases hs
  | upgrade n => cases hs
  | chore n => cases hs

/-- A record read from the store; only its revision is noted. -/
theorem load {c : Core} (h : Earned c g) {now : ℤ} {sid : Sid} {r : SessionRecord}
    (hr : (World.load now sid c.world).1 = some r) : Deserved g r.sid r.toStanding := by
  obtain ⟨r₀, hl, rfl⟩ := Option.map_eq_some_iff.mp hr
  replace hl : (c.world.store.sess.read now sid).1 = some r₀ := hl
  rw [Map.read_fst] at hl
  obtain ⟨e, he, -, rfl⟩ := Map.lookup_eq_some.mp hl
  exact (h.stored sid e he).same rfl rfl

theorem stored_step {up : ConnKey → Bool} {c c' : Core} (hs : CoreStep env up c l c')
    (h : Earned c g) (sid : Sid) (e : Entry SessionRecord) (he : c'.world.store.sess sid = some e) :
    Deserved g e.v.sid e.v.toStanding := by
  have hw := hs.world
  generalize c'.world = w at hw he
  cases hw with
  | settled hl ho hx =>
      cases hx with
      | @save k req hsv =>
          replace he : c.world.store.sess.write req.record.sid req.record req.expireAt sid =
            some e := he
          by_cases hsid : sid = req.record.sid
          · subst hsid
            rw [Map.write_same] at he
            cases he
            exact h.saving hsv
          · rw [Map.write_ne _ _ _ hsid] at he
            exact h.stored sid e he
      | load => exact h.stored sid e (Map.read_snd_eq_some he)
      | other hk =>
          rw [hk.sess] at he
          exact h.stored sid e he
      | _ => exact h.stored sid e he
  | _ => exact h.stored sid e he

/-- What a connection holds and carries on after a stretch of its handler. -/
theorem stretch_step (hs : s.step env l = some t) (h : Earned s.toCore g) {k : ConnKey}
    (hl : l = .resume (.handler k) ∨ l = .handle k) :
    (s.deeds l t g).Bears (t.conn k) ∧
      (s.deeds l t g).Covers (handlerCopies (t.conn k).handler) := by
  have hg := s.grows_deeds l t g
  rcases (Sys.coreStep hs).stretch hl with he | ⟨d, c₁, h', hstart, ha, ht⟩
  · rw [show t.conn k = s.conn k from congrFun (congrArg Core.conn he) k]
    exact ⟨(h.held k).grow hg, (h.handler k).grow hg⟩
  · have hconn : t.conn k = { c₁.conn k with handler := h' } :=
      (congrFun (congrArg Core.conn ht) k).trans (Core.setHandler_conn ..)
    have hd : g.Bears (d.conn k) := by
      rcases hstart with ⟨-, rfl⟩ | ⟨-, rfl⟩
      · exact h.held k
      · exact (h.held k).of_eq (by rw [Core.take_conn])
    rw [hconn]
    refine ha.covers hd (h.handler k) hg (fun token r now p until_ hh hc => ?_) fun b hb => ?_
    · rcases hstart with ⟨rfl, rfl⟩ | ⟨hn, -⟩
      · subst hc
        obtain ⟨hc, hu⟩ := Sys.confirmed_of_pass hs hh ht
        refine ⟨?_, hu⟩
        unfold Sys.deeds
        simp [hc]
      · rw [hn] at hh
        cases hh
    · refine Sys.blocked_deeds ?_
      have hblock : (t.conn k).handler.bind Handler.begun = some b := by
        rw [hconn]
        exact hb
      rcases hl with rfl | rfl <;> exact hblock

theorem held_step (hs : s.step env l = some t) (h : Earned s.toCore g) (k : ConnKey) :
    (s.deeds l t g).Bears (t.conn k) := by
  have hg := s.grows_deeds l t g
  by_cases hl : l = .resume (.handler k) ∨ l = .handle k
  · exact (h.stretch_step hs hl).1
  · have same : (s.deeds l t g).Bears (s.conn k) := (h.held k).grow hg
    have hx := (Sys.coreStep hs).conn k
    generalize t.conn k = x at hx
    cases hx with
    | act hl' => exact absurd (Or.inl hl') hl
    | handle hl' => exact absurd (Or.inr hl') hl
    | accepted => exact fun sid => Deserved.fresh rfl rfl
    | @renewed p r token d hl' hp hr hc =>
        exact same.update rfl ((h.rolling k p hp r (CreatePc.done_copies hr)).grow hg)
    | _ => exact same

theorem handler_step (hs : s.step env l = some t) (h : Earned s.toCore g) (k : ConnKey) :
    (s.deeds l t g).Covers (handlerCopies (t.conn k).handler) := by
  have hg := s.grows_deeds l t g
  by_cases hl : l = .resume (.handler k) ∨ l = .handle k
  · exact (h.stretch_step hs hl).2
  · have hcore := Sys.coreStep hs
    by_cases hset : ∃ o v, l = .settle (.handler k) o v
    · obtain ⟨o, v, rfl⟩ := hset
      rcases hcore.settledHandler with he | ⟨x, x', hx, hx', hr⟩
      · rw [show t.conn k = s.conn k from congrFun (congrArg Core.conn he) k]
        exact (h.handler k).grow hg
      · intro r hm
        rw [show (t.conn k).handler = some x' from hx'] at hm
        rcases Handler.settle_copies hr hm with hm | ⟨sid, hload⟩
        · refine (h.handler k r ?_).grow hg
          rw [show (s.conn k).handler = some x from hx]
          exact hm
        · exact (h.load hload).grow hg
    · have hx := hcore.conn k
      generalize t.conn k = x at hx
      cases hx with
      | act hl' => exact absurd (Or.inl hl') hl
      | handle hl' => exact absurd (Or.inr hl') hl
      | settled hl' => exact absurd ⟨_, _, hl'⟩ hset
      | accepted => exact Deeds.covers_nil
      | _ => exact (h.handler k).grow hg

theorem rolling_step {up : ConnKey → Bool} {c c' : Core} (hs : CoreStep env up c l c')
    (h : Earned c g) (k : ConnKey) (p : RolloverPc) (hp : (c'.conn k).rolling = some p) :
    g.Covers p.create.copies := by
  have hx := hs.conn k
  generalize c'.conn k = x at hx hp
  cases hx with
  | act hl' hh ha =>
      rw [show _ = (c.conn k).rolling from ha.kept.rolling] at hp
      exact h.rolling k p hp
  | handle hl' hk hh ha =>
      rw [show _ = ((c.take k).conn k).rolling from ha.kept.rolling, Core.take_conn] at hp
      exact h.rolling k p hp
  | begins =>
      cases hp
      exact Deeds.covers_nil
  | @rolling q q' o v w hl' hq hset =>
      cases hp
      obtain ⟨⟨x, w'⟩, hr, he⟩ := Option.map_eq_some_iff.mp hset
      rw [← (Prod.mk.inj he).1]
      show g.Covers x.copies
      rw [CreatePc.settle_copies hr]
      exact h.rolling k q hq
  | creating hq hr =>
      cases hp
      exact CreatePc.wait_covers hr (h.rolling k _ hq)
  | accepted => cases hp
  | rolled => cases hp
  | renewed => cases hp
  | _ => exact h.rolling k p hp

theorem task_step {up : ConnKey → Bool} {c c' : Core} (hs : CoreStep env up c l c')
    (h : Earned c g) (n : ℕ) (b : Task) (hb : c'.task n = some b) : g.Covers b.copies := by
  have hx := hs.task_step n
  rw [hb] at hx
  generalize hob : some b = ob at hx
  cases hx with
  | same => exact h.task n b hob.symm
  | settled hl' hb' hset =>
      cases hob
      rw [Task.settle_copies hset]
      exact h.task n _ hb'
  | ended => cases hob
  | admin =>
      cases hob
      exact Deeds.covers_nil
  | @save k q req hq =>
      cases hob
      have hc := (h.held k).saveReq (c := c) q
      rw [hq] at hc
      exact hc

theorem step (hs : s.step env l = some t) (h : Earned s.toCore g) :
    Earned t.toCore (s.deeds l t g) := by
  have hg := s.grows_deeds l t g
  have hcore := Sys.coreStep hs
  exact ⟨fun sid e he => (h.stored_step hcore sid e he).grow hg, h.held_step hs,
    h.handler_step hs, fun k p hp => (h.rolling_step hcore k p hp).grow hg,
    fun n b hb => (h.task_step hcore n b hb).grow hg⟩

end Earned

/-! ### Instants -/

/-- The responses lie in the past, those that are being verified too. -/
structure Bygone (c : Core) (g : Deeds) : Prop where
  passed : ∀ sid now, (sid, now) ∈ g.passed → now ≤ c.clock
  verify : ∀ k token r now p,
    (c.conn k).handler = some (.challenge (.verify token r now p)) → now ≤ c.clock

/-- What was confirmed is the response that was being verified. -/
theorem Sys.confirmed_eq {s : Sys} {l : Label} {sid : Sid} {now : ℤ}
    (h : s.confirmed l = some (sid, now)) : ∃ k token r p,
      (s.conn k).handler = some (.challenge (.verify token r now p)) ∧ r.sid = sid := by
  unfold confirmed at h
  split at h
  · split at h
    · rename_i k _ token r now' p hh
      split at h
      · cases h
        exact ⟨k, token, r, p, hh, rfl⟩
      · cases h
    · cases h
  · cases h

theorem Bygone.step {env : Env} {s t : Sys} {l : Label} {g : Deeds} (hs : s.step env l = some t)
    (h : Bygone s.toCore g) : Bygone t.toCore (s.deeds l t g) := by
  have hle : s.clock ≤ t.clock := Sys.clock_mono hs
  refine ⟨fun sid now hm => ?_, fun k token r now p hv => ?_⟩
  · refine le_trans ?_ hle
    rcases List.mem_append.mp hm with hm | hm
    · obtain ⟨k, token, r, p, hh, -⟩ := Sys.confirmed_eq (Option.mem_toList.mp hm)
      exact h.verify k token r now p hh
    · exact h.passed sid now hm
  · refine le_trans ?_ hle
    have hx := (Sys.coreStep hs).conn k
    have old : ∀ q, (s.conn k).handler = some (.challenge (.verify token r now q)) →
        now ≤ s.clock := fun q hq => h.verify k token r now q hq
    generalize t.conn k = y at hx hv
    cases hx with
    | act hl' hh ha =>
        cases hv
        cases ha
    | handle hl' hk hh ha =>
        cases hv
        cases ha
        exact le_rfl
    | settled hl' hh hset =>
        cases hv
        obtain ⟨q, rfl⟩ := Handler.settle_verify hset
        exact old q hh
    | accepted => cases hv
    | _ => exact old p hv

/-! ### Runs -/

theorem earned_of_reaches {env : Env} {x : Sys × Deeds}
    (h : (judging env).Reaches (fun _ _ => True) x) :
    Earned x.1.toCore x.2 ∧ Bygone x.1.toCore x.2 := by
  refine Machine.Reaches.beside (I := fun s g => Earned s.toCore g ∧ Bygone s.toCore g) ?_ ?_ h
  · rintro s ⟨t, rfl⟩
    refine ⟨⟨fun sid e he => ?_, fun k sid => Deserved.fresh rfl rfl, fun k => Deeds.covers_nil,
      fun k p hp => ?_, fun n b hb => ?_⟩, fun sid now hm => absurd hm List.not_mem_nil,
      fun k token r now p hv => ?_⟩
    · cases he
    · cases hp
    · cases hb
    · cases hv
  · rintro s g l t - hs ⟨hE, hD⟩
    exact ⟨hE.step hs, hD.step hs⟩

/-- The deserved trust that still lasts began less than half an hour ago. -/
theorem Deserved.recent {c : Core} {g : Deeds} {sid : Sid} {t : Standing} (h : Deserved g sid t)
    (hD : Bygone c g) (h0 : 0 ≤ c.clock) (ht : c.clock < t.trustedUntil) :
    ∃ now, (sid, now) ∈ g.passed ∧ now ≤ c.clock ∧ c.clock < now + TRUST_WINDOW_MS := by
  rcases h.trust with hz | ⟨now, hp, hu⟩
  · omega
  · exact ⟨now, hp, hD.passed sid now hp, hu ▸ ht⟩

/-- **Trust.** In every reachable state after the epoch, a connection that counts as trusted holds a
session of which the verifier has confirmed a challenge response, one that was begun on less than
half an hour ago. The same holds of a session whose stored record says that it is trusted. -/
theorem trust_earned {env : Env} {s : Sys} {g : Deeds}
    (h : (judging env).Reaches Free (s, g)) (h0 : 0 ≤ s.clock) :
    (∀ k, (s.conn k).trusted s.clock = true → ∃ r now, (s.conn k).record = some r ∧
      (r.sid, now) ∈ g.passed ∧ now ≤ s.clock ∧ s.clock < now + TRUST_WINDOW_MS) ∧
    ∀ sid e, s.world.store.sess sid = some e → s.clock < e.v.trustedUntil →
      ∃ now, (sid, now) ∈ g.passed ∧ now ≤ s.clock ∧ s.clock < now + TRUST_WINDOW_MS := by
  obtain ⟨hE, hT⟩ := earned_of_reaches h
  refine ⟨fun k hk => ?_, fun sid e he ht => ?_⟩
  · unfold Conn.trusted at hk
    split at hk
    · simp only [decide_eq_true_eq] at hk
      omega
    · rename_i r hr
      obtain ⟨now, hnow⟩ := (hE.held k r.sid).recent hT h0 (of_decide_eq_true hk)
      exact ⟨r, now, hr, hnow⟩
  · have hsid : e.v.sid = sid := (sourced_of_reaches h.fst).world.sids sid e he
    exact hsid ▸ (hE.stored sid e he).recent hT h0 ht

namespace Demo

/-- A challenged client answers, and the verifier finds it right. -/
def passes : List Label :=
  provokes ++ challenged ++ List.replicate 2 (.resume (.handler (conn 1))) ++
    [.clock (noon + 2000)] ++ receive (conn 1) (.challengeResponse "x") ++
    [.settle (.handler (conn 1)) .answered true, .resume (.handler (conn 1))] ++ turns (conn 1) 1

end Demo

/-- A run of the theorem: a client that has passed its challenge is trusted, and its stored record
says so. -/
theorem trust_earned_passed : ∃ (s : Sys) (g : Deeds) (now : ℤ) (sid : Sid),
    (judging (Demo.env (some .mock))).Reaches Free (s, g) ∧
    (s.conn (Demo.conn 1)).trusted s.clock = true ∧ (sid, now) ∈ g.passed ∧
    now = Demo.noon + 2000 := by
  have hdemo : ((judging (Demo.env (some .mock))).execs (fun _ _ => true)
      (Sys.initial Demo.noon, ⟨[], []⟩) Demo.passes).any
      (fun x => (x.1.conn (Demo.conn 1)).trusted x.1.clock && decide (0 ≤ x.1.clock) &&
        x.2.passed.all fun d => decide (d.2 = Demo.noon + 2000)) = true := by
    decide +kernel
  obtain ⟨⟨s, g⟩, hs, hP⟩ := (Option.any_eq_true _ _).mp hdemo
  obtain ⟨hP, hall⟩ := Bool.and_eq_true_iff.mp hP
  obtain ⟨ht, h0⟩ := Bool.and_eq_true_iff.mp hP
  have hreach := Machine.reaches_of_execs (M := judging (Demo.env (some .mock))) (C := Free)
    (fun _ _ _ => trivial) ⟨⟨Demo.noon, rfl⟩, rfl⟩ hs
  obtain ⟨r, now, -, hp, -⟩ := (trust_earned hreach (of_decide_eq_true h0)).1 _ ht
  exact ⟨s, g, now, r.sid, hreach, ht, hp, of_decide_eq_true (List.all_eq_true.mp hall _ hp)⟩

/-! ### The length of a block -/

/-- The block that a stretch begins is as long as the number of blocks says that its connection
then counts. -/
theorem Act.begun_ttl {env : Env} {k : ConnKey} {up : Bool} {c c₁ : Core} {h h' : Option Handler}
    {b : BlockLocals} (ha : Act env k up c h c₁ h') (hb : h'.bind Handler.begun = some b) :
    1 ≤ ((c₁.conn k).standing b.record.sid).blocks ∧
      b.ttl =
        Core.blockDuration ((c₁.conn k).standing b.record.sid).blocks (c₁.roomOf k) c₁.clock := by
  have fresh : ∀ (d : Core) (r : SessionIdent) (reason : String),
      1 ≤ (((d.tempBlock k r reason).1.conn k).standing r.sid).blocks := by
    intro d r reason
    rw [Core.tempBlock_conn]
    simp
  cases ha with
  | sendLimited hl he =>
      cases he with
      | block reason hr =>
          cases hb
          exact ⟨fresh _ _ _, rfl⟩
      | _ => cases hb
  | sendEscalate hh he =>
      cases he with
      | block reason hr =>
          cases hb
          exact ⟨fresh _ _ _, rfl⟩
      | _ => cases hb
  | failedBlock reason hr =>
      cases hb
      exact ⟨fresh _ _ _, rfl⟩
  | sendEscalating he =>
      cases he with
      | challenged => cases hb
      | blocked => cases hb
      | block hm => cases hm <;> cases hb
  | challengeBlock hm => cases hm <;> cases hb
  | _ => cases hb

/-- A block begins in a stretch of a handler. -/
theorem Sys.begun_step {env : Env} {s t : Sys} {l : Label} {b : BlockLocals}
    (hs : s.step env l = some t) (hb : t.blocking l = some b) :
    ∃ k, (l = .resume (.handler k) ∨ l = .handle k) ∧
      1 ≤ ((t.conn k).standing b.record.sid).blocks ∧
      b.ttl =
        Core.blockDuration ((t.conn k).standing b.record.sid).blocks (t.roomOf k) t.clock := by
  have hact : ∀ {k : ConnKey} {up : Bool} {c : Core} {x : Option Handler},
      Acts env k up c x t → t.begun k = some b →
      1 ≤ ((t.conn k).standing b.record.sid).blocks ∧ b.ttl =
        Core.blockDuration ((t.conn k).standing b.record.sid).blocks (t.roomOf k) t.clock := by
    rintro k up c x ⟨c₁, h', ha, ht⟩ hk
    have hconn : t.conn k = { c₁.conn k with handler := h' } :=
      (congrFun (congrArg Core.conn ht) k).trans (Core.setHandler_conn ..)
    have hclock : t.clock = c₁.clock := (congrArg Core.clock ht :)
    have hroom : t.roomOf k = c₁.roomOf k := (congrArg (fun c : Core => c.roomOf k) ht :)
    unfold begun at hk
    rw [hconn] at hk
    rw [hconn, hclock, hroom]
    exact ha.begun_ttl hk
  unfold blocking at hb
  split at hb
  · rename_i k
    obtain ⟨x, -, hu⟩ := Option.bind_eq_some_iff.mp hs
    exact ⟨k, Or.inl rfl, hact (acts_handlerResume hu) hb⟩
  · rename_i k
    obtain ⟨-, hn⟩ := Option.ite_none_right_eq_some.mp hs
    unfold handleNext at hn
    split at hn
    · cases hn
      exact ⟨k, Or.inr rfl, hact (acts_handle _ true) hb⟩
    · cases hn
  · cases hb

/-- **Blocks.** In every reachable state, no stored record counts more blocks than were begun for
its session; and a block that a step begins lasts as long as the `n`-th block does, for an `n` that
is at most the number of the blocks begun for its session. So the first lasts ten minutes, and no
client is blocked for the day that has not been blocked twice before. -/
theorem blocks_earned {env : Env} {x : Sys × Deeds} (h : (judging env).Reaches Free x) :
    (∀ sid e, x.1.world.store.sess sid = some e → e.v.blocks ≤ x.2.blocked.count sid) ∧
    ∀ l y b, (judging env).step x l = some y → y.1.blocking l = some b →
      ∃ k n, (l = .resume (.handler k) ∨ l = .handle k) ∧ 1 ≤ n ∧
        n ≤ y.2.blocked.count b.record.sid ∧
        b.ttl = Core.blockDuration n (y.1.roomOf k) y.1.clock := by
  obtain ⟨hE, -⟩ := earned_of_reaches h
  refine ⟨fun sid e he => ?_, fun l y b hs hb => ?_⟩
  · have hsid : e.v.sid = sid := (sourced_of_reaches h.fst).world.sids sid e he
    exact hsid ▸ (hE.stored sid e he).blocks
  · obtain ⟨t, ht, rfl⟩ := Option.map_eq_some_iff.mp hs
    obtain ⟨k, hl, hn, httl⟩ := Sys.begun_step ht hb
    exact ⟨k, _, hl, hn, (hE.held_step ht k b.record.sid).blocks, httl⟩

/-- A run of the theorem: the first block of a session, which is the only one begun for it. -/
theorem blocks_earned_first : ∃ (x y : Sys × Deeds) (l : Label) (b : BlockLocals) (n : ℕ)
    (room : DailyRoom),
    (judging (Demo.env (some .mock))).step x l = some y ∧ y.1.blocking l = some b ∧
    n ≤ y.2.blocked.count b.record.sid ∧ b.ttl = Core.blockDuration n room y.1.clock ∧
    b.ttl = 600000 := by
  have hdemo : ((judging (Demo.env (some .mock))).execs (fun _ _ => true)
      (Sys.initial Demo.noon, ⟨[], []⟩) Demo.failsThrice).any (fun x =>
        ((judging (Demo.env (some .mock))).step x (.resume (.handler (Demo.conn 1)))).any fun y =>
          (y.1.blocking (.resume (.handler (Demo.conn 1)))).any fun b =>
            decide (b.ttl = 600000)) = true := by
    decide +kernel
  obtain ⟨x, hx, h⟩ := (Option.any_eq_true _ _).mp hdemo
  obtain ⟨y, hs, h⟩ := (Option.any_eq_true _ _).mp h
  obtain ⟨b, hb, h⟩ := (Option.any_eq_true _ _).mp h
  have hreach := Machine.reaches_of_execs (M := judging (Demo.env (some .mock))) (C := Free)
    (fun _ _ _ => trivial) ⟨⟨Demo.noon, rfl⟩, rfl⟩ hx
  obtain ⟨k, n, -, -, hn, httl⟩ := (blocks_earned hreach).2 _ _ _ hs hb
  exact ⟨x, y, _, b, n, _, hs, hb, hn, httl, of_decide_eq_true h⟩

end RoomBackend
