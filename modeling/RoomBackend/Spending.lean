import RoomBackend.Blocks
import RoomBackend.Buckets

/-! # Who spends tokens

Methods that add to the suspicion score may change the limits of a bucket, which lets no more
through. A bucket is spent by `decide` alone, for the frame just taken; it is replaced when a
challenge is passed, and set up when a connection is made and when its `join` takes up a
session. -/

namespace RoomBackend

open Async Day RateLimit Suspicion Lts

/-! ### Limiters -/

namespace Limiter

open TokenBucket

variable {env : Env} {now : ℤ}

/-- `applyTier` changes the limits, if at all, and refills the bucket at the instant it is given. -/
theorem applyTier_cases (env : Env) (now : ℤ) (x : Limiter) :
    (x.applyTier env now).bucket = x.bucket ∨ ∃ tier : Tier, (x.applyTier env now).bucket =
      x.bucket.reconfigure env.round tier.capacity tier.refillPerSec now := by
  unfold applyTier
  split
  · exact Or.inr ⟨_, rfl⟩
  · exact Or.inl rfl

theorem slows_signal (env : Env) (now : ℤ) (x : Limiter) (trusted : Bool) (name : Signal) :
    Slows env.round now x.bucket (x.signal env now trusted name).bucket := by
  unfold signal
  rcases applyTier_cases env now
    { x with score := x.score.add env.halfPow name.points now trusted } with he | ⟨tier, he⟩
  · rw [he]
    exact .refl _ _ _
  · rw [he]
    exact slows_reconfigure _ _ tier

/-- A `join` that takes a session up changes the limits as of the instant it began. -/
theorem sound_enter {x : Limiter} (h : x.bucket.Sound env.round) (now : ℤ) (r : SessionRecord) :
    (x.enter env now r).bucket.Sound env.round := by
  unfold enter
  rcases applyTier_cases env now { x with score := x.carry env now r } with he | ⟨tier, he⟩
  · rw [he]
    exact h
  · rw [he]
    exact Sound.reconfigure h tier now

/-- A passed challenge fills the bucket. -/
theorem sound_pass (x : Limiter) (now : ℤ) : (x.pass env now).bucket.Sound env.round :=
  sound_new _ (x.pass env now).tier now

end Limiter

/-! ### Tokens -/

/-- The send that a handler has been granted a token for, and that has not been appended yet. -/
def Handler.granted : Handler → Option SendLocals
  | .send (.hit l _) => some l
  | .send (.dup l _) => some l
  | .send (.escalate l .accept _) => some l
  | .send (.append l _ _ .pending) => some l
  | _ => none

namespace Sys

/-- The bucket of a connection. -/
def bucket (s : Sys) (k : ConnKey) : TokenBucket := (s.side k).conduct.bucket

/-- The tokens a connection could spend now. -/
def tokens (r : Rounding) (s : Sys) (k : ConnKey) : ℚ := (s.bucket k).avail r s.clock

/-- No bucket lets more through in `t` than in `s`, at the instant of `s`. -/
def Slow (env : Env) (s t : Sys) : Prop :=
  ∀ k, TokenBucket.Slows env.round s.clock (s.bucket k) (t.bucket k)

/-- The same, and it is still that instant. -/
structure Calm (env : Env) (s t : Sys) : Prop where
  clock : t.clock = s.clock
  slow : Slow env s t

/-- The send of a connection that has been granted a token and has not been appended. -/
def granted (s : Sys) (k : ConnKey) : Option SendLocals :=
  (s.conn k).handler.bind Handler.granted

/-- Between `s` and `t` the connection has spent a token. -/
def Takes (env : Env) (s t : Sys) (k : ConnKey) : Prop :=
  (s.bucket k).Sound env.round →
    (t.bucket k).avail env.round s.clock + 1 ≤ (s.bucket k).avail env.round s.clock

/-- A token is spent if a send has been granted one. -/
def Fair (env : Env) (s t : Sys) (k : ConnKey) : Prop :=
  Slow env s t ∧ (t.granted k = none ∨ Takes env s t k)

namespace Calm

variable {s t u : Sys} {k : ConnKey} {env : Env}

theorem refl (env : Env) (s : Sys) : Calm env s s := ⟨rfl, fun _ => .refl _ _ _⟩

/-- A change of anything but the sides and the clock. -/
theorem of_side (h : Calm env s t) (hc : u.clock = t.clock) (hu : u.side = t.side) :
    Calm env s u := by
  refine ⟨hc.trans h.clock, fun k => ?_⟩
  unfold bucket
  rw [hu]
  exact h.slow k

theorem updSide (h : Calm env s t) {f : Side → Side}
    (hf : TokenBucket.Slows env.round s.clock (t.bucket k) (f (t.side k)).conduct.bucket) :
    Calm env s (t.updSide k f) := by
  refine ⟨h.clock, fun j => ?_⟩
  unfold bucket Sys.updSide
  dsimp only
  by_cases hj : j = k
  · subst hj
    rw [Function.update_self]
    exact (h.slow j).trans hf
  · rw [Function.update_of_ne hj]
    exact h.slow j

/-- Quiet changes let no more through: points may tighten the limits, and nothing is spent. -/
theorem moved {j : Option (Env × ConnKey)} (h : Calm env s t) (hq : Quiet j t u)
    (hj : ∀ e k, j = some (e, k) → e = env) : Calm env s u := by
  induction hq with
  | refl => exact h
  | state _ hc hu ih => exact ih.of_side hc hu
  | @updSide t k f _ hf ih =>
      refine ih.updSide ?_
      rw [(hf (t.side k)).conduct.bucket]
      exact .refl _ _ _
  | @signal e t k he _ name ih =>
      obtain rfl := hj _ _ he
      refine ih.updSide (f := fun d => { d with
        conduct := d.conduct.signal e t.clock ((t.conn k).trusted t.clock)
          (t.conn k).record.isSome name }) ?_
      rw [← ih.clock]
      have hb := congrArg Limiter.bucket (Conduct.limiter_signal e (t.side k).conduct t.clock
        ((t.conn k).trusted t.clock) (t.conn k).record.isSome name)
      refine TokenBucket.Slows.trans ?_ (TokenBucket.slows_of_eq hb)
      exact Limiter.slows_signal e t.clock (t.side k).conduct.limiter _ name
  | send _ e he ih =>
      exact ih.updSide (f := fun d => { d with socket := d.socket.sendRaw e }) (.refl _ _ _)
  | @cache t k _ e reply _ ih =>
      exact ih.updSide (f := fun d => { d with conduct :=
        { d.conduct with replies := cacheReply d.conduct.replies e.clientId reply } }) (.refl _ _ _)
  | @shut t k g _ _ ih =>
      exact ih.updSide (f := fun d => { d with socket := g d.socket }) (.refl _ _ _)

theorem quiet (h : Calm env s t) (hq : Quiet none t u) : Calm env s u :=
  h.moved hq fun _ _ he => by cases he

theorem tuned (h : Calm env s t) (hq : Quiet (some (env, k)) t u) : Calm env s u :=
  h.moved hq fun _ _ he => by
    cases he
    rfl

section methods

variable (h : Calm env s t)
include h

/-- Whatever the frame, the bucket is left alone. -/
theorem hand (e : ServerEvent) : Calm env s (t.send k e) :=
  h.updSide (f := fun d => { d with socket := d.socket.sendRaw e }) (.refl _ _ _)

theorem onCore (f : Core → Core) (hf : (f t.toCore).clock = t.toCore.clock) :
    Calm env s (t.onCore f) := h.of_side hf rfl

end methods

/-! ### The frame just taken -/

section frames

variable (h : Calm env s t)
include h

theorem fair_suspend (x : Handler) (hx : x.granted = none) : Fair env s (t.suspend k x) k := by
  refine ⟨(h.quiet (Quiet.refl.suspend x)).slow, Or.inl ?_⟩
  unfold granted
  rw [toCore_suspend, Core.setHandler_conn]
  exact hx

theorem fair_finish : Fair env s (t.finish k) k := by
  refine ⟨(h.quiet Quiet.refl.finish).slow, Or.inl ?_⟩
  unfold granted
  rw [toCore_finish, Core.setHandler_conn]
  rfl

theorem fair_decideRate {l : SendLocals} (hl : l.now = t.clock) :
    Fair env s (t.decideRate env k l) k := by
  unfold Sys.decideRate
  dsimp only
  split
  · split
    · refine Calm.fair_suspend ?_ _ rfl
      exact h.tuned (((Quiet.refl.updConduct _ (by exact fun _ => ⟨rfl, rfl⟩)).signal
        rfl _).escalate _)
    · exact h.fair_suspend _ rfl
  · rw [hl, h.clock]
    have htake := h.updSide (k := k) (f := fun d => { d with
      conduct := { d.conduct with bucket := ((t.bucket k).take env.round s.clock 1).2 } })
      (TokenBucket.slows_take _ _)
    split
    · refine Calm.fair_suspend ?_ _ rfl
      refine Calm.tuned ?_ ((Quiet.refl.signal rfl _).escalate _)
      exact htake.updSide (f := fun d => { d with conduct := { d.conduct with
        strikes := _, lastStrikeAt := _, cooldownUntil := _ } }) (.refl _ _ _)
    · -- the token is spent
      rename_i hz
      refine ⟨(htake.quiet (Quiet.refl.suspend _)).slow, Or.inr fun hs => ?_⟩
      have hspent := TokenBucket.avail_take (h.slow k) hs hz
      have hb : ((t.updSide k fun d => { d with conduct := { d.conduct with
          bucket := ((t.bucket k).take env.round s.clock 1).2 } }).bucket k) =
            ((t.bucket k).take env.round s.clock 1).2 := by
        unfold bucket Sys.updSide
        dsimp only
        rw [Function.update_self]
      exact le_trans
        (le_of_eq (congrArg (fun b : TokenBucket => b.avail env.round s.clock + 1) hb)) hspent

theorem fair_decideSend (e : SendEvent) (r : SessionIdent) :
    Fair env s (t.decideSend env k e r) k := by
  unfold Sys.decideSend
  dsimp only
  split
  · refine ⟨h.slow, Or.inl ?_⟩
    unfold granted Sys.decided
    rw [toCore_suspend, Core.setHandler_conn]
    rfl
  · split
    · exact h.fair_suspend _ rfl
    · split
      · exact h.fair_suspend _ rfl
      · split
        · exact h.fair_suspend _ rfl
        · split
          · exact h.fair_suspend _ rfl
          · split
            · exact (h.quiet (Quiet.refl.sendChallenge false)).fair_suspend _ rfl
            · split
              · exact h.fair_suspend _ rfl
              · exact h.fair_decideRate rfl

theorem fair_handleSend (e : SendEvent) : Fair env s (t.handleSend env k e) k := by
  unfold Sys.handleSend
  dsimp only
  split
  · exact (h.tuned ((Quiet.refl.signal rfl _).send _ (by rfl))).fair_finish
  · split
    · exact (h.tuned ((Quiet.refl.signal rfl _).send _ (by rfl))).fair_finish
    · split
      · exact (h.hand _).fair_finish
      · exact (h.onCore _ rfl).fair_decideSend _ _

theorem fair_handle (raw : Raw) : Fair env s (t.handle env k raw) k := by
  unfold Sys.handle
  split
  · exact h.fair_finish
  · cases raw with
    | binary => exact (h.tuned (Quiet.refl.invalid true)).fair_finish
    | notJson => exact (h.tuned (Quiet.refl.invalid false)).fair_finish
    | notEvent => exact (h.tuned (Quiet.refl.invalid false)).fair_finish
    | event e =>
        cases e with
        | join resume verification =>
            refine ⟨h.slow, Or.inl ?_⟩
            unfold granted
            rw [toCore_onCore]
            unfold Core.join
            split
            · exact congrArg (Option.bind · Handler.granted)
                (congrArg Conn.handler (Core.setHandler_conn _ k none))
            · unfold Core.joinAttempt
              split
              · exact congrArg (Option.bind · Handler.granted)
                  (congrArg Conn.handler (Core.setHandler_conn _ k (some _)))
              · exact congrArg (Option.bind · Handler.granted)
                  (congrArg Conn.handler (Core.setHandler_conn _ k (some _)))
        | send e => exact h.fair_handleSend e
        | challengeResponse token =>
            dsimp only
            unfold Sys.challengeResponse
            dsimp only
            split
            · exact h.fair_finish
            · split
              · exact h.fair_finish
              · split
                · exact h.fair_finish
                · refine Calm.fair_suspend ?_ _ rfl
                  exact h.quiet (Quiet.refl.updConduct _ (by exact fun _ => ⟨rfl, rfl⟩))
        | ping ts =>
            dsimp only
            refine ⟨(h.tuned (Quiet.refl.ping ts)).slow, Or.inl ?_⟩
            unfold Sys.ping granted
            dsimp only
            rw [toCore_finish, Core.setHandler_conn]
            rfl
        | report id reason =>
            dsimp only
            unfold Sys.report
            split
            · exact h.fair_finish
            · exact h.fair_suspend _ rfl

end frames

end Calm

/-! ### Steps -/

section steps

variable {env : Env} {s t : Sys} {l : Label} {k : ConnKey}

/-- What a step makes of the bucket of a connection: it lets no more through, or it is replaced,
before the connection has joined or when a challenge is passed. -/
def BucketStep (env : Env) (s t : Sys) (k : ConnKey) : Prop :=
  TokenBucket.Slows env.round s.clock (s.bucket k) (t.bucket k) ∨
    ((s.bucket k).Sound env.round → (t.bucket k).Sound env.round) ∧
      ((s.conn k).joined = false ∨ ∃ sid, .passed k sid ∈ t.since s.world.journal.length)

/-- What a step does to a limiter lets no more through, unless a session is taken up or a
challenge is passed. -/
theorem Tunes.cases_bucket {x y : Limiter} (h : s.Tunes env l k x y) :
    TokenBucket.Slows env.round s.clock x.bucket y.bucket ∨
      (x.bucket.Sound env.round → y.bucket.Sound env.round) ∧ ∃ h,
        l = .resume (.handler k) ∧ (s.conn k).handler = some h ∧
          ((∃ j r token p, h = .join (.block j r token p)) ∨
            ∃ token r now p, h = .challenge (.verify token r now p)) := by
  cases h with
  | signal _ trusted name => exact Or.inl (Limiter.slows_signal env _ x trusted name)
  | take _ => exact Or.inl (TokenBucket.slows_take _ _)
  | strike _ wait => exact Or.inl (.refl _ _ _)
  | @enter j r token p hl hh =>
      exact Or.inr ⟨fun hx => Limiter.sound_enter hx j.now r, _, hl, hh,
        Or.inl ⟨j, r, token, p, rfl⟩⟩
  | @pass token r now p hl hh =>
      exact Or.inr ⟨fun _ => Limiter.sound_pass x now, _, hl, hh, Or.inr ⟨token, r, now, p, rfl⟩⟩
  | verify _ _ => exact Or.inl (.refl _ _ _)

theorem Tunes.sound {x y : Limiter} (h : s.Tunes env l k x y) (hx : x.bucket.Sound env.round) :
    y.bucket.Sound env.round := by
  rcases h.cases_bucket with hs | ⟨hs, -⟩
  · exact hs.sound hx
  · exact hs hx

theorem passed_challengePassed (r : SessionIdent) (now : ℤ) :
    .passed k r.sid ∈ (s.challengePassed env k r now).since s.world.journal.length := by
  have hw : (s.challengePassed env k r now).world.journal =
      s.world.journal ++ [.passed k r.sid] := by
    unfold challengePassed
    dsimp only
    rw [toCore_suspend, toCore_persist]
    rfl
  unfold since
  rw [hw, List.drop_left]
  exact List.mem_singleton_self _

/-- Either the answer to a challenge passed, or the buckets are left alone. -/
theorem bucket_verify {token : String} {r : SessionIdent} {now : ℤ} {p : Promise Bool}
    (hu : s.challengeResume env k (.verify token r now p) = some t) :
    Slow env s t ∨ .passed k r.sid ∈ t.since s.world.journal.length := by
  obtain ⟨a, -, rfl⟩ := Option.map_eq_some_iff.mp hu
  split
  · exact Or.inl ((Calm.refl env s).quiet Quiet.refl.finish).slow
  · split
    · exact Or.inr (passed_challengePassed r now)
    · exact Or.inl ((Calm.refl env s).quiet (Quiet.refl.challengeFailed r)).slow

theorem step_bucket (hP : s.Polite) (hJ : JoinsOnce s.toCore) (hB : Born s.toCore)
    (h : s.step env l = some t) (k : ConnKey) : BucketStep env s t k := by
  rcases step_sides hP h k with hm | ⟨n, u, -, hk, -, hm⟩
  · have hsound : (s.bucket k).Sound env.round → (t.bucket k).Sound env.round :=
      hm.limiter_induct (I := fun x => x.bucket.Sound env.round) fun x y hxy hx => hxy.sound hx
    by_cases hex : ∃ h, l = .resume (.handler k) ∧ (s.conn k).handler = some h ∧
        ((∃ j r token p, h = .join (.block j r token p)) ∨
          ∃ token r now p, h = .challenge (.verify token r now p))
    · obtain ⟨x, rfl, hx, ⟨j, r, token, p, rfl⟩ | ⟨token, r, now, p, rfl⟩⟩ := hex
      · exact Or.inr ⟨hsound, Or.inl (hJ k (by rw [hx]; rfl))⟩
      · obtain ⟨y, hy, hu⟩ := Option.bind_eq_some_iff.mp h
        obtain rfl := Option.some.inj (hx.symm.trans hy)
        have hc : s.challengeResume env k (.verify token r now p) = some t := hu
        rcases bucket_verify hc with hs | hp
        · exact Or.inl (hs k)
        · exact Or.inr ⟨hsound, Or.inr ⟨_, hp⟩⟩
    · -- nothing else replaces the bucket
      refine Or.inl (hm.limiter_induct (I := fun x =>
        TokenBucket.Slows env.round s.clock (s.bucket k) x.bucket) (fun x y hxy hx => hx.trans ?_)
        (.refl _ _ _))
      rcases hxy.cases_bucket with hs | ⟨-, hx⟩
      · exact hs
      · exact absurd hx hex
  · -- the connection is new
    refine Or.inr ⟨fun _ => ?_, Or.inl ?_⟩
    · refine hm.limiter_induct (I := fun x => x.bucket.Sound env.round) ?_
        (TokenBucket.sound_new _ .normal _)
      rintro x y ⟨trusted, name, rfl⟩ hx
      exact (Limiter.slows_signal env s.clock x trusted name).sound hx
    · rw [hk, hB.next]
      rfl

end steps

end Sys

end RoomBackend
