import RoomBackend.Allowance
import RoomBackend.Tiers

/-! # The hint of a refusal

A send that finds no token is told how long to wait: until the bucket has a token again at its
present rate, or until the cooldown of its strikes is over. The refusal itself then adds points,
which may move the connection to a slower tier, and what flows in is rounded. Whether a client that
comes back as told is refused again depends on that rate, and on the rounded sum. -/

namespace RoomBackend

open Async Day RateLimit Suspicion Lts

theorem RateLimit.Tier.one_lt_capacity (t : Tier) : 1 < t.capacity := by
  cases t with
  | normal => norm_num [Tier.capacity]
  | throttled => norm_num [Tier.capacity]
  | restricted => norm_num [Tier.capacity]

namespace Limiter

variable {env : Env} {now : ℤ} {x : Limiter} {trusted : Bool}

/-- What a refusal leaves: the tokens, a strike, and the points of `rateLimitHit`. -/
def refuse (env : Env) (now : ℤ) (trusted : Bool) (x : Limiter) : Limiter :=
  ((x.take env now).strike now (x.bucket.take env.round now 1).1).signal env now trusted
    .rateLimitHit

/-- The tier of the score with the points of a refusal. -/
def slower (env : Env) (now : ℤ) (trusted : Bool) (x : Limiter) : Tier :=
  tierOf ((x.score.add env.halfPow Signal.rateLimitHit.points now trusted).value env.halfPow now)

/-- The cooldown lasts until the bucket has a token again at the rate of the refusal. -/
theorem cooldown_refuse (env : Env) (now : ℤ) (trusted : Bool) (x : Limiter) :
    now + (x.bucket.take env.round now 1).1 ≤ (x.refuse env now trusted).cooldownUntil := by
  have he : (x.refuse env now trusted).cooldownUntil =
      ((x.take env now).strike now (x.bucket.take env.round now 1).1).cooldownUntil := by
    unfold refuse signal applyTier
    split
    · rfl
    · rfl
  rw [he]
  exact add_le_add_right (le_max_left _ _) now

/-- A bucket with less than a token that is refilled, and given other limits at the same instant,
keeps what it has. -/
theorem avail_reconfigure (hb : x.bucket.Sound env.round) (ha : x.bucket.avail env.round now < 1)
    (t : Tier) : ((x.bucket.refill env.round now).reconfigure env.round t.capacity t.refillPerSec
      now).tokens = x.bucket.avail env.round now := by
  have hlast : (x.bucket.refill env.round now).avail env.round now =
      x.bucket.avail env.round now := TokenBucket.avail_last (hb.refill now)
  show min ((x.bucket.refill env.round now).avail env.round now) t.capacity = _
  rw [hlast]
  exact min_eq_left (ha.le.trans t.one_lt_capacity.le)

/-- The tokens a refused client has `d` milliseconds later, as far as the bucket holds them: those
it had, and what has flowed in at the rate of the tier with the points of the refusal. -/
def refilled (env : Env) (now : ℤ) (trusted : Bool) (x : Limiter) (d : ℤ) : ℚ :=
  env.round (x.bucket.avail env.round now +
    env.round (env.round (d / 1000) * env.round (x.slower env now trusted).refillPerSec))

theorem avail_refuse (hl : x.Limited) (hb : x.bucket.Sound env.round)
    (ha : x.bucket.avail env.round now < 1) {d : ℤ} (hd : 0 ≤ d) :
    (x.refuse env now trusted).bucket.avail env.round ((now + d : ℤ) : ℚ) =
      min (x.slower env now trusted).capacity (x.refilled env now trusted d) := by
  have hd' : (0 : ℚ) ≤ d := by exact_mod_cast hd
  have hcast : ((now + d : ℤ) : ℚ) = (now : ℚ) + d := by push_cast; rfl
  have htake : (x.take env now).bucket = x.bucket.refill env.round now := by
    unfold take
    rw [TokenBucket.take_of_lt ha]
  rw [hcast]
  by_cases hs : x.slower env now trusted = x.tier
  · -- the tier stays
    have hbucket : (x.refuse env now trusted).bucket = x.bucket.refill env.round now := by
      have he : x.refuse env now trusted =
          { (x.take env now).strike now (x.bucket.take env.round now 1).1 with
            score := x.score.add env.halfPow Signal.rateLimitHit.points now trusted } :=
        if_neg (not_not.mpr hs)
      rw [he, ← htake]
      rfl
    unfold refilled
    rw [hbucket, TokenBucket.avail_refill_add _ _ _ hd', hs, hl.capacity, hl.rate]
  · have hbucket : (x.refuse env now trusted).bucket =
        (x.bucket.refill env.round now).reconfigure env.round
          (x.slower env now trusted).capacity (x.slower env now trusted).refillPerSec now := by
      rw [← htake]
      exact congrArg Limiter.bucket (if_pos hs)
    have hmax : max 0 ((now : ℚ) + d - now) = d := by
      rw [add_sub_cancel_left]
      exact max_eq_right hd'
    rw [hbucket]
    show min _ (env.round (((x.bucket.refill env.round now).reconfigure env.round
      (x.slower env now trusted).capacity (x.slower env now trusted).refillPerSec now).tokens +
        env.round (env.round (max 0 ((now : ℚ) + d - now) / 1000) *
          env.round (x.slower env now trusted).refillPerSec))) = _
    rw [avail_reconfigure hb ha, hmax]
    rfl

/-- There is a token again once the rest of it has flowed in at that rate. -/
theorem one_le_avail_refuse (hl : x.Limited) (hb : x.bucket.Sound env.round)
    (ha : x.bucket.avail env.round now < 1) {d : ℤ} (hd : 0 ≤ d) :
    1 ≤ (x.refuse env now trusted).bucket.avail env.round ((now + d : ℤ) : ℚ) ↔
      1 ≤ x.refilled env now trusted d := by
  rw [avail_refuse hl hb ha hd, le_min_iff]
  constructor
  · intro h
    exact h.2
  · intro h
    exact ⟨(Tier.one_lt_capacity _).le, h⟩

end Limiter

namespace Sys

variable {env : Env} {s t u : Sys} {l : Label} {k : ConnKey}

/-! ### A send that reaches the bucket -/

/-- The next frame of the connection is a send of a fresh client id that passes the checks of the
day, of enforcement and of the content. -/
structure Clears (env : Env) (s : Sys) (k : ConnKey) (e : SendEvent) : Prop where
  queued : (s.side k).queue.head? = some (.event (.send e))
  up : (s.conn k).closed = false
  joined : (s.conn k).joined = true
  fresh : (s.side k).conduct.replies.find? (fun p => p.1 = e.clientId) = none
  room : (env.roomAt s.clock).roomId = (s.roomOf k).roomId
  day : e.day.any (· ≠ (s.roomOf k).day) = false
  grace : ¬ (e.day = none ∧ s.clock - (s.side k).conduct.rolledAt < STALE_ROOM_GRACE_MS)
  unblocked : (s.conn k).blockedUntil ≤ s.clock
  session : ∃ r, (s.conn k).record = some r ∧ r.roomId = (s.roomOf k).roomId ∧
    ((s.conn k).standing r.sid).challengePending = false
  text : ∃ text, env.normalizeText e.text env.config.maxMessageLength
    env.config.maxMessageLines = .ok text

/-- The checks of `decide` before the bucket. -/
theorem decideSend_clears {e : SendEvent} {r : SessionIdent} {text : String}
    (hroom : (env.roomAt s.clock).roomId = (s.roomOf k).roomId)
    (hday : e.day.any (· ≠ (s.roomOf k).day) = false)
    (hgrace : ¬ (e.day = none ∧ s.clock - (s.side k).conduct.rolledAt < STALE_ROOM_GRACE_MS))
    (hr : r.roomId = (s.roomOf k).roomId) (hb : (s.conn k).blockedUntil ≤ s.clock)
    (hp : ((s.conn k).standing r.sid).challengePending = false)
    (ht : env.normalizeText e.text env.config.maxMessageLength
      env.config.maxMessageLines = .ok text) :
    s.decideSend env k e r = s.decideRate env k
      { event := e, now := s.clock, record := r, text := text
        resets := (s.srv k.inst).resets, mark := s.world.journal.length } := by
  unfold decideSend
  dsimp only
  rw [if_neg (not_not.mpr hroom), if_neg (ne_true_of_eq_false hday), if_neg hgrace,
    if_neg (not_not.mpr hr), if_neg (not_lt.mpr hb), if_neg (ne_true_of_eq_false hp), ht]

/-- The checks of `handleSend` before `decide`. -/
theorem handle_send (env : Env) {e : SendEvent} {r : SessionIdent} (hup : (s.conn k).closed = false)
    (hr : (s.conn k).record = some r) (hj : (s.conn k).joined = true)
    (hf : (s.side k).conduct.replies.find? (fun p => p.1 = e.clientId) = none) :
    s.handle env k (.event (.send e)) =
      (s.onCore (·.observe (.deciding k (s.conn k).handled e))).decideSend env k e r := by
  unfold handle
  rw [if_neg (ne_true_of_eq_false hup)]
  show s.handleSend env k e = _
  unfold handleSend
  dsimp only
  rw [hr]
  dsimp only
  rw [hj, hf]
  rfl

/-- A send of a joined client that is not answered from the cache is decided upon, with nothing
changed before. -/
theorem handle_fresh {e : SendEvent} {r : SessionIdent}
    (hq : (s.side k).queue.head? = some (.event (.send e))) (hup : (s.conn k).closed = false)
    (hr : (s.conn k).record = some r) (hj : (s.conn k).joined = true)
    (hf : (s.side k).conduct.replies.find? (fun p => p.1 = e.clientId) = none)
    (h : s.step env (.handle k) = some t) : ∃ p : Sys, p.clock = s.clock ∧
      p.roomOf k = s.roomOf k ∧ (p.side k).conduct = (s.side k).conduct ∧
      p.conn k = { s.conn k with handled := (s.conn k).handled + 1 } ∧
      t = p.decideSend env k e r := by
  obtain ⟨-, h⟩ := Option.ite_none_right_eq_some.mp h
  unfold handleNext at h
  split at h
  · rename_i raw rest hh hqueue
    have hraw : raw = .event (.send e) := by
      rw [hqueue] at hq
      exact Option.some.inj hq
    subst hraw
    cases h
    -- the frame has been taken from the queue
    have hconn : ((s.onCore (·.take k)).updSide k fun d => { d with queue := rest }).conn k =
        { s.conn k with handled := (s.conn k).handled + 1 } := Core.take_conn _ _
    have hside : ((s.onCore (·.take k)).updSide k fun d => { d with queue := rest }).side k =
        { s.side k with queue := rest } := Function.update_self _ _ _
    have hclock : ((s.onCore (·.take k)).updSide k fun d => { d with queue := rest }).clock =
        s.clock := rfl
    have hroomOf : ((s.onCore (·.take k)).updSide k fun d => { d with queue := rest }).roomOf k =
        s.roomOf k := rfl
    generalize (s.onCore (·.take k)).updSide k (fun d => { d with queue := rest }) = p at *
    have hhandle := handle_send env (s := p) (e := e) (r := r) (by rw [hconn]; exact hup)
      (by rw [hconn]; exact hr) (by rw [hconn]; exact hj) (by rw [hside]; exact hf)
    refine ⟨p.onCore (·.observe (.deciding k (p.conn k).handled e)), hclock, hroomOf, ?_, hconn,
      hhandle⟩
    show (p.side k).conduct = _
    rw [hside]
  · cases h

/-- Such a send is decided upon by the cooldown and the bucket. -/
theorem handle_clears {e : SendEvent} (hc : s.Clears env k e)
    (h : s.step env (.handle k) = some t) : ∃ (l : SendLocals) (p : Sys), l.event = e ∧
      l.now = s.clock ∧ p.clock = s.clock ∧ p.limiter k = s.limiter k ∧
      (p.conn k).trusted p.clock = (s.conn k).trusted s.clock ∧ t = p.decideRate env k l := by
  obtain ⟨r, hrec, hroom, hpend⟩ := hc.session
  obtain ⟨text, htext⟩ := hc.text
  obtain ⟨p, hclock, hroomOf, hconduct, hconn, rfl⟩ :=
    handle_fresh hc.queued hc.up hrec hc.joined hc.fresh h
  have hroom' : (env.roomAt p.clock).roomId = (p.roomOf k).roomId := by
    rw [hclock, hroomOf]
    exact hc.room
  have hday : e.day.any (· ≠ (p.roomOf k).day) = false := by
    rw [hroomOf]
    exact hc.day
  have hgrace : ¬ (e.day = none ∧
      p.clock - (p.side k).conduct.rolledAt < STALE_ROOM_GRACE_MS) := by
    rw [hclock, hconduct]
    exact hc.grace
  have hsess : r.roomId = (p.roomOf k).roomId := by rw [hroomOf]; exact hroom
  have hblock : (p.conn k).blockedUntil ≤ p.clock := by
    rw [hclock, hconn]
    exact hc.unblocked
  have hpend' : ((p.conn k).standing r.sid).challengePending = false := by
    rw [hconn]
    exact hpend
  have hdecide := decideSend_clears hroom' hday hgrace hsess hblock hpend' htext
  refine ⟨_, p, ?_, hclock, hclock, ?_, ?_, hdecide⟩
  · rfl
  · unfold limiter
    rw [hconduct]
  · rw [hclock, hconn]
    rfl

/-! ### The cooldown and the bucket -/

theorem limiter_updConduct (s : Sys) (f : Conduct → Conduct) :
    (s.updConduct k f).limiter k = (f (s.side k).conduct).limiter :=
  congrArg (fun d : Side => d.conduct.limiter) (Function.update_self k _ s.side)

theorem limiter_signal (s : Sys) (name : Signal) : (s.signal env k name).limiter k =
    (s.limiter k).signal env s.clock ((s.conn k).trusted s.clock) name :=
  (limiter_updConduct s _).trans (Conduct.limiter_signal _ _ _ _ _ _)

/-- A send that finds a token takes it, and goes on to the shared counters. -/
theorem decideRate_granted (env : Env) {l : SendLocals} (hc : (s.limiter k).cooldownUntil ≤ l.now)
    (ha : 1 ≤ (s.bucket k).avail env.round l.now) :
    ((s.decideRate env k l).conn k).handler = some (.send (.hit l .pending)) ∧
      (s.decideRate env k l).limiter k = (s.limiter k).take env l.now := by
  have hcool : ¬ l.now < (s.side k).conduct.cooldownUntil := not_lt.mpr hc
  have htake : ((s.side k).conduct.bucket.take env.round l.now 1).1 = 0 :=
    congrArg Prod.fst (TokenBucket.take_allowed ha)
  unfold decideRate
  dsimp only
  rw [if_neg hcool, if_neg (by rw [htake]; exact lt_irrefl 0)]
  constructor
  · rw [toCore_suspend, Core.setHandler_conn]
  · rw [Quiet.limiter (Quiet.refl.suspend _), limiter_updConduct]
    rfl

/-- A send that finds none is refused. -/
theorem decideRate_refused (env : Env) {l : SendLocals} (hl : l.now = s.clock)
    (hc : (s.limiter k).cooldownUntil ≤ l.now) (hr : 0 < (s.bucket k).refillPerSec)
    (ha : (s.bucket k).avail env.round l.now < 1) :
    (∃ e, ((s.decideRate env k l).conn k).handler = some (.send (.escalate l .limited e))) ∧
      (s.decideRate env k l).limiter k =
        (s.limiter k).refuse env l.now ((s.conn k).trusted s.clock) := by
  have hcool : ¬ l.now < (s.side k).conduct.cooldownUntil := not_lt.mpr hc
  have htake : 0 < ((s.side k).conduct.bucket.take env.round l.now 1).1 :=
    TokenBucket.wait_pos hr ha
  unfold decideRate
  dsimp only
  rw [if_neg hcool, if_pos htake]
  constructor
  · unfold decideEscalate
    rw [toCore_suspend, Core.setHandler_conn]
    exact ⟨_, rfl⟩
  · rw [Quiet.limiter (Quiet.refl.decideEscalate _ _), limiter_signal, limiter_updConduct, hl]
    have hside : ((s.updConduct k fun c =>
        { c with bucket := ((s.side k).conduct.bucket.take env.round s.clock 1).2 }).side
          k).conduct = { (s.side k).conduct with
            bucket := ((s.side k).conduct.bucket.take env.round s.clock 1).2 } :=
      congrArg Side.conduct (Function.update_self k _ s.side)
    rw [hside]
    rfl

/-! ### While nothing happens on the connection -/

/-- A frame of the connection is handled or dropped, or its score changes. -/
inductive Disturbs (s : Sys) (l : Label) (k : ConnKey) : Prop
  | marks (h : s.Marks l k)
  | shifts (h : s.Shifts l k)
  | passes {token : String} {r : SessionIdent} {now : ℤ} {p : Promise Bool}
      (hl : l = .resume (.handler k))
      (hh : (s.conn k).handler = some (.challenge (.verify token r now p)))

theorem mem_accepted_step (h : s.step env l = some t) (hk : k ∈ s.accepted) : k ∈ t.accepted :=
  (coreStep h).mem_accepted hk

theorem limiter_undisturbed (hP : s.Polite) (hB : Born s.toCore) (hk : k ∈ s.accepted)
    (h : s.step env l = some t) (hd : ¬ s.Disturbs l k) : t.limiter k = s.limiter k := by
  rcases step_sides hP h k with hm | ⟨n, u, -, he, -⟩
  · refine hm.limiter_induct (I := fun x => x = s.limiter k) (fun x y hxy _ => ?_) rfl
    cases hxy with
    | signal hs => exact absurd (.marks hs) hd
    | take hl => exact absurd (.marks (.handle hl)) hd
    | strike hl => exact absurd (.marks (.handle hl)) hd
    | enter hl hh => exact absurd (.shifts (Or.inr ⟨_, _, _, _, hl, hh⟩)) hd
    | pass hl hh => exact absurd (.passes hl hh) hd
    | verify hl hb => exact absurd (.shifts (Or.inl ⟨_, _, hl, hb⟩)) hd
  · have hn := hB.numbered k hk
    rw [he] at hn
    dsimp only at hn
    omega

/-- What the handler of a refused send is about to do; `c` is the end of the cooldown. -/
def Refusing (l : SendLocals) (c : ℤ) (h : Handler) : Prop :=
  (∃ e, h = .send (.escalate l .limited e)) ∨
    (∃ reason, h = .send (.reply l.event (rejectWith l.event reason none))) ∨
    h = .send (.reply l.event (rejectWith l.event .rateLimited (some (c - l.now))))

/-- A refused send goes on to the hint of its cooldown, or to the reason of an escalation. -/
theorem refusing_resume {x : SendLocals} {h : Handler}
    (hx : Refusing x (s.limiter k).cooldownUntil h) (hu : s.handlerResume env k h = some t) :
    ∀ h', (t.conn k).handler = some h' → Refusing x (s.limiter k).cooldownUntil h' := by
  intro h' hh'
  rcases hx with ⟨e, rfl⟩ | hx
  · cases e with
    | returned reason =>
        cases reason with
        | none =>
            cases hu
            unfold decided at hh'
            rw [toCore_suspend, Core.setHandler_conn] at hh'
            exact Or.inr (Or.inr (Option.some.inj hh').symm)
        | some reason =>
            cases hu
            unfold decided at hh'
            rw [toCore_suspend, Core.setHandler_conn] at hh'
            exact Or.inr (Or.inl ⟨reason, (Option.some.inj hh').symm⟩)
    | challenge req p =>
        obtain ⟨r, hr, rfl⟩ := Option.map_eq_some_iff.mp hu
        rw [toCore_suspend, Core.setHandler_conn] at hh'
        exact Or.inl ⟨_, (Option.some.inj hh').symm⟩
    | block b =>
        obtain ⟨r, hr, rfl⟩ := Option.map_eq_some_iff.mp hu
        rw [toCore_suspend, Core.setHandler_conn] at hh'
        exact Or.inl ⟨_, (Option.some.inj hh').symm⟩
  · have hreply : ∃ reply, h = .send (.reply x.event reply) := by
      rcases hx with ⟨reason, rfl⟩ | rfl
      · exact ⟨_, rfl⟩
      · exact ⟨_, rfl⟩
    obtain ⟨reply, rfl⟩ := hreply
    cases hu
    unfold handleSendReply at hh'
    dsimp only at hh'
    rw [toCore_finish, Core.setHandler_conn] at hh'
    cases hh'

theorem refusing_settle {x : SendLocals} {c now : ℤ} {v : Bool} {n : ℕ} {info : AdmitInfo}
    {o : Outcome} {h h' : Handler} {w w' : World} (hx : Refusing x c h)
    (hs : h.settle env now v k n info o w = some (h', w')) : Refusing x c h' := by
  rcases hx with ⟨e, rfl⟩ | hx
  · obtain ⟨⟨p, w₁⟩, hp, he⟩ := Option.map_eq_some_iff.mp hs
    obtain ⟨⟨e', w₂⟩, -, he'⟩ := Option.map_eq_some_iff.mp hp
    obtain ⟨rfl, -⟩ := Prod.mk.inj he
    obtain ⟨rfl, -⟩ := Prod.mk.inj he'
    exact Or.inl ⟨e', rfl⟩
  · rcases hx with ⟨reason, rfl⟩ | rfl
    · cases hs
    · cases hs

theorem refusing_step {x : SendLocals}
    (hx : ∀ h, (s.conn k).handler = some h → Refusing x (s.limiter k).cooldownUntil h)
    (h : s.step env l = some t) (hd : ¬ s.Disturbs l k) :
    ∀ h', (t.conn k).handler = some h' → Refusing x (s.limiter k).cooldownUntil h' := by
  by_cases hl : l = .resume (.handler k)
  · subst hl
    obtain ⟨y, hy, hu⟩ := Option.bind_eq_some_iff.mp h
    exact refusing_resume (hx y hy) hu
  · intro h' hh'
    have hc := (coreStep h).conn k
    generalize t.conn k = y at hc hh'
    cases hc with
    | act hl' hh ha => exact absurd hl' hl
    | handle hl' hk hh ha => exact absurd (.marks (.handle hl')) hd
    | settled hl' hh hs =>
        obtain rfl := Option.some.inj hh'
        exact refusing_settle (hx _ hh) hs
    | accepted => cases hh'
    | _ => exact hx h' hh'

/-- While nothing disturbs a connection, its limiter stays as it is. -/
theorem run_undisturbed {ls : List Label} (hs : (system env).Reaches Free s) (hk : k ∈ s.accepted)
    (hr : (system env).Run (fun s l => ¬ s.Disturbs l k) s ls t) :
    (system env).Reaches Free t ∧ k ∈ t.accepted ∧ t.limiter k = s.limiter k := by
  refine ⟨hs.run (hr.mono fun _ _ _ => trivial), hs.preserves (I := fun z : Sys =>
    k ∈ z.accepted ∧ z.limiter k = s.limiter k) hr (fun _ _ _ => trivial) ?_ ⟨hk, rfl⟩⟩
  rintro a l b ha ⟨hka, hla⟩ hd hb
  refine ⟨mem_accepted_step hb hka, ?_⟩
  rw [limiter_undisturbed (polite_of_reaches ha) (born_of_reaches ha) hka hb hd, hla]

/-- The hint of a refused send is what is left of its cooldown. -/
theorem hint_undisturbed {x : SendLocals} {ls : List Label} {w : ℤ}
    (hs : (system env).Reaches Free s) (hk : k ∈ s.accepted)
    (hx : ∃ e, (s.conn k).handler = some (.send (.escalate x .limited e)))
    (hr : (system env).Run (fun s l => ¬ s.Disturbs l k) s ls t)
    (hw : (t.conn k).handler =
      some (.send (.reply x.event (.reject x.event.clientId .rateLimited (some w))))) :
    (s.limiter k).cooldownUntil = x.now + w := by
  have hI : ∀ h, (t.conn k).handler = some h → Refusing x (s.limiter k).cooldownUntil h := by
    obtain ⟨e, hx⟩ := hx
    have key : (k ∈ t.accepted ∧ t.limiter k = s.limiter k) ∧
        ∀ h, (t.conn k).handler = some h → Refusing x (s.limiter k).cooldownUntil h := by
      refine hs.preserves (I := fun z : Sys => (k ∈ z.accepted ∧ z.limiter k = s.limiter k) ∧
        ∀ h, (z.conn k).handler = some h → Refusing x (s.limiter k).cooldownUntil h) hr
        (fun _ _ _ => trivial) ?_ ⟨⟨hk, rfl⟩, ?_⟩
      · rintro a l b ha ⟨⟨hka, hla⟩, hxa⟩ hd hb
        have hlb := limiter_undisturbed (polite_of_reaches ha) (born_of_reaches ha) hka hb hd
        refine ⟨⟨mem_accepted_step hb hka, hlb.trans hla⟩, ?_⟩
        rw [← hla] at hxa ⊢
        exact refusing_step hxa hb hd
      · intro h hh
        rw [hx] at hh
        exact Or.inl ⟨e, (Option.some.inj hh).symm⟩
    exact key.2
  rcases hI _ hw with ⟨e, he⟩ | ⟨reason, he⟩ | he
  · cases he
  · cases he
  · have hhint : some w =
        (some ((s.limiter k).cooldownUntil - x.now)).filter (· ≠ 0) := by
      unfold rejectWith at he
      injection he with he
      injection he with _ he
      injection he with _ _ he
    have hval := (Option.filter_eq_some_iff.mp hhint.symm).1
    have := Option.some.inj hval
    omega

/-- The tokens a connection that is refused now has `d` milliseconds later. -/
def refilled (env : Env) (s : Sys) (k : ConnKey) (d : ℤ) : ℚ :=
  (s.limiter k).refilled env s.clock ((s.conn k).trusted s.clock) d

/-- A client whose send is refused with the hint `w`, and that waits as told, finds a token if and
only if what it had, and what has flowed in by then at the rate of the tier it has with the points
of the refusal, make up one. -/
theorem retry_iff {e e' : SendEvent} {s t q u v : Sys} {ls ls' : List Label} {w : ℤ}
    (hs : (system env).Reaches Free s) (hc : s.Clears env k e)
    (hcool : (s.limiter k).cooldownUntil ≤ s.clock) (ha : s.tokens env.round k < 1)
    (ht : s.step env (.handle k) = some t)
    (hq : (system env).Run (fun s l => ¬ s.Disturbs l k) t ls q)
    (hw : (q.conn k).handler =
      some (.send (.reply e (.reject e.clientId .rateLimited (some w)))))
    (hu : (system env).Run (fun s l => ¬ s.Disturbs l k) q ls' u)
    (hclock : s.clock + w ≤ u.clock) (hc' : u.Clears env k e')
    (hv : u.step env (.handle k) = some v) :
    ((∃ l, (v.conn k).handler = some (.send (.hit l .pending))) ∧
      (v.limiter k).strikes = (u.limiter k).strikes) ↔
        1 ≤ s.refilled env k (u.clock - s.clock) := by
  have hb : (s.limiter k).bucket.Sound env.round := bounded_of_reaches hs k
  have hk : k ∈ s.accepted := (Option.ite_none_right_eq_some.mp ht).1
  -- the refusal
  obtain ⟨x, p, rfl, hxn, hpc, hpl, hptr, rfl⟩ := handle_clears hc ht
  have hpb : p.bucket k = s.bucket k := congrArg Limiter.bucket hpl
  obtain ⟨hesc, hlim⟩ := decideRate_refused env (s := p) (k := k) (hxn.trans hpc.symm)
    (by rw [hpl, hxn]; exact hcool) (by rw [hpb]; exact hb.rate_pos)
    (by rw [hpb, hxn]; exact ha)
  rw [hpl, hptr, hxn] at hlim
  have hst : (system env).step s (.handle k) = some (p.decideRate env k x) := ht
  have hrt := hs.step trivial hst
  have hkt := mem_accepted_step ht hk
  -- the wait
  have hcw := hint_undisturbed hrt hkt hesc hq hw
  obtain ⟨hrq, hkq, hlq⟩ := run_undisturbed hrt hkt hq
  obtain ⟨hru, -, hlu⟩ := run_undisturbed hrq hkq hu
  rw [hlq] at hlu
  rw [hxn] at hcw
  have hpos : 0 < w := by
    have hwait : 0 < ((s.limiter k).bucket.take env.round s.clock 1).1 :=
      TokenBucket.wait_pos hb.rate_pos ha
    have hlong := Limiter.cooldown_refuse env s.clock ((s.conn k).trusted s.clock) (s.limiter k)
    rw [← hlim, hcw] at hlong
    omega
  -- the retry
  obtain ⟨y, r, -, hyn, hrc, hrl, -, rfl⟩ := handle_clears hc' hv
  have hcool' : (r.limiter k).cooldownUntil ≤ y.now := by
    rw [hrl, hlu, hcw, hyn]
    exact hclock
  have havail : 1 ≤ (r.bucket k).avail env.round y.now ↔
      1 ≤ s.refilled env k (u.clock - s.clock) := by
    have hrb : r.bucket k = ((s.limiter k).refuse env s.clock
        ((s.conn k).trusted s.clock)).bucket :=
      congrArg Limiter.bucket (hrl.trans (hlu.trans hlim))
    have hadd : y.now = s.clock + (u.clock - s.clock) := by omega
    rw [hrb, hadd]
    exact Limiter.one_le_avail_refuse (limited_of_reaches hs) hb ha (by omega)
  rw [← havail]
  constructor
  · rintro ⟨⟨z, hz⟩, -⟩
    by_contra hlt
    have hrate : 0 < (r.bucket k).refillPerSec := by
      rw [show r.bucket k = u.bucket k from congrArg Limiter.bucket hrl]
      exact (bounded_of_reaches hru k).rate_pos
    obtain ⟨⟨e₀, he₀⟩, -⟩ := decideRate_refused env (s := r) (k := k)
      (hyn.trans hrc.symm) hcool' hrate (not_le.mp hlt)
    rw [he₀] at hz
    cases hz
  · intro h
    obtain ⟨hg, hgl⟩ := decideRate_granted env hcool' h
    refine ⟨⟨y, hg⟩, ?_⟩
    rw [hgl, ← hrl]
    rfl

end Sys

namespace Demo

/-- A client connects and joins. -/
def guest (automated : Bool) : List Label :=
  [.start 0, .upgrade 0 { path := "/ws", origin := some "https://room", ip := "a"
                          automatedUA := automated, ipCountry := none }]
    ++ turn (.upgrade 0) ++ turn (.upgrade 0) ++ turn (.upgrade 0) ++ handshake 0
    ++ joined (conn 1)

/-- A message of the client is appended, published and acknowledged. -/
def utters (id text : String) : List Label :=
  receive (conn 1) (.send { clientId := id, text := text, day := none }) ++ turns (conn 1) 1
    ++ [.resume (.handler (conn 1))] ++ turns (conn 1) 2 ++ [.resume (.handler (conn 1))]

/-- Ten messages at one instant, the last of them a repetition, and the frame of another. -/
def bursts (automated : Bool) : List Label :=
  guest automated ++ [.clock (noon + 1000)]
    ++ ["a", "b", "c", "d", "e", "f", "g", "h", "i"].flatMap (fun x => utters x x)
    ++ utters "j" "i" ++ [.frame (conn 1) (.event (.send ⟨"k", "k", none⟩))]

/-- Ten messages within 51 milliseconds, and the frame of another ten milliseconds later. -/
def trickles : List Label :=
  guest false
    ++ ([(0, "a"), (0, "b"), (0, "c"), (1, "d"), (1, "e"), (6, "f"), (8, "g"), (41, "h"), (41, "i"),
        (51, "j")].flatMap fun x : ℤ × String => .clock (noon + 1000 + x.1) :: utters x.2 x.2)
    ++ [.clock (noon + 1061), .frame (conn 1) (.event (.send ⟨"k", "k", none⟩))]

/-- The refusal is sent, and the frame of the next message is there when the wait is over. -/
def waits (t : ℤ) : List Label :=
  [.resume (.handler (conn 1)), .clock t, .frame (conn 1) (.event (.send ⟨"l", "l", none⟩))]

/-- The steps of such a wait. -/
def rests (s : Sys) : Label → Bool
  | .clock _ => true
  | .frame _ raw => decide (raw ≠ .binary) && decide (s.queued (conn 1) < MAX_QUEUED_FRAMES)
  | .resume (.handler _) => (s.conn (conn 1)).handler.any fun h =>
      match h with
      | .send p => !p.signals
      | _ => false
  | _ => false

/-- What `Sys.Clears` asks for. -/
def clears (env : Env) (s : Sys) (k : ConnKey) (e : SendEvent) : Bool :=
  decide ((s.side k).queue.head? = some (.event (.send e))) && !(s.conn k).closed &&
    (s.conn k).joined &&
    ((s.side k).conduct.replies.find? fun p => p.1 = e.clientId).isNone &&
    decide ((env.roomAt s.clock).roomId = (s.roomOf k).roomId) &&
    !e.day.any (· ≠ (s.roomOf k).day) &&
    decide (¬ (e.day = none ∧ s.clock - (s.side k).conduct.rolledAt < STALE_ROOM_GRACE_MS)) &&
    decide ((s.conn k).blockedUntil ≤ s.clock) &&
    ((s.conn k).record.any fun r => decide (r.roomId = (s.roomOf k).roomId) &&
      !((s.conn k).standing r.sid).challengePending) &&
    (env.normalizeText e.text env.config.maxMessageLength env.config.maxMessageLines).toBool

theorem clears_spec {env : Env} {s : Sys} {k : ConnKey} {e : SendEvent}
    (h : clears env s k e = true) : s.Clears env k e := by
  unfold clears at h
  simp only [Bool.and_eq_true, decide_eq_true_eq, Bool.not_eq_true', Option.isNone_iff_eq_none]
    at h
  obtain ⟨⟨⟨⟨⟨⟨⟨⟨⟨hq, hup⟩, hj⟩, hf⟩, hroom⟩, hday⟩, hgrace⟩, hb⟩, hr⟩, ht⟩ := h
  refine ⟨hq, hup, hj, hf, hroom, hday, hgrace, hb, ?_, ?_⟩
  · obtain ⟨r, hr, hP⟩ := (Option.any_eq_true _ _).mp hr
    obtain ⟨hroom, hp⟩ := Bool.and_eq_true_iff.mp hP
    exact ⟨r, hr, of_decide_eq_true hroom, by simpa using hp⟩
  · generalize env.normalizeText e.text _ _ = x at ht ⊢
    cases x with
    | error reason => cases ht
    | ok text => exact ⟨text, rfl⟩

theorem rests_spec {s : Sys} {l : Label} (h : rests s l = true) : ¬ s.Disturbs l (conn 1) := by
  intro hd
  cases hd with
  | marks hm =>
      cases hm with
      | handle hl => rw [hl] at h; cases h
      | frame hl hq =>
          rw [hl] at h
          obtain ⟨hb, hlt⟩ := Bool.and_eq_true_iff.mp h
          rcases hq with hq | hq
          · exact of_decide_eq_true hb hq
          · exact absurd (of_decide_eq_true hlt) (not_lt.mpr hq)
      | @resume x hl hh hx =>
          rw [hl] at h
          simp only [rests, hh, Option.any_some] at h
          cases x with
          | send p => simp [Handler.signals] at hx; simp [hx] at h
          | _ => cases h
      | failed hl hb => rw [hl] at h; cases h
  | shifts hs =>
      rcases hs with ⟨n, token, hl, hb⟩ | ⟨j, r, token, p, hl, hh⟩
      · rw [hl] at h
        cases h
      · rw [hl] at h
        simp only [rests, hh, Option.any_some] at h
        cases h
  | passes hl hh =>
      rw [hl] at h
      simp only [rests, hh, Option.any_some] at h
      cases h

/-- A send is refused. -/
def refuses : Handler → Bool
  | .send (.escalate _ .limited _) => true
  | _ => false

/-- The state `s` is left by a refusal with the hint `w`, the client waits for it, and its retry is
a step of which `P` holds. -/
def retries (env : Env) (w : ℤ) (P : Sys → Sys → Bool) (s : Sys) : Bool :=
  clears env s (conn 1) ⟨"k", "k", none⟩ &&
    decide ((s.limiter (conn 1)).cooldownUntil ≤ s.clock ∧ s.tokens env.round (conn 1) < 1) &&
    (s.step env (.handle (conn 1))).any fun t =>
      ((system env).execs rests t [.resume (.handler (conn 1))]).any fun q : Sys =>
        decide ((q.conn (conn 1)).handler = some (.send (.reply ⟨"k", "k", none⟩
          (.reject "k" .rateLimited (some w))))) &&
        ((system env).execs rests q (waits (s.clock + w))).any fun u : Sys =>
          decide (s.clock + w ≤ u.clock) && clears env u (conn 1) ⟨"l", "l", none⟩ &&
            (u.step env (.handle (conn 1))).any fun v => P u v

/-- The retry is refused, with another strike, in the given tier. -/
def refusesAgain (tier : Tier) (u v : Sys) : Bool :=
  decide ((u.limiter (conn 1)).tier = tier) &&
    decide ((v.limiter (conn 1)).strikes = (u.limiter (conn 1)).strikes + 1) &&
      (v.conn (conn 1)).handler.any refuses

end Demo

namespace Sys

/-- A run of the theorem: a client whose refusal leaves its tier as it is finds its token when it
comes back as told. -/
theorem retry_normal : ∃ s u v : Sys, (system (Demo.env none)).Reaches Free s ∧
    s.tokens (Demo.env none).round (Demo.conn 1) < 1 ∧ s.clock + 1000 ≤ u.clock ∧
    u.step (Demo.env none) (.handle (Demo.conn 1)) = some v ∧
    (∃ l, (v.conn (Demo.conn 1)).handler = some (.send (.hit l .pending))) ∧
    (v.limiter (Demo.conn 1)).strikes = (u.limiter (Demo.conn 1)).strikes := by
  obtain ⟨s, hs, hP⟩ := exists_reached_free (Demo.env none)
    (fun s => Demo.retries (Demo.env none) 1000 (fun u _ => decide
      (1 ≤ s.refilled (Demo.env none) (Demo.conn 1) (u.clock - s.clock))) s)
    Demo.noon (Demo.bursts false) (by decide +kernel)
  simp only [Demo.retries, Option.any_eq_true, Bool.and_eq_true, decide_eq_true_eq] at hP
  obtain ⟨⟨hc, hcool, ha⟩, t, ht, q, hq, hw, u, hu, ⟨hclock, hc'⟩, v, hv, hrate⟩ := hP
  have hr := Machine.run_of_execs (C := fun s l => ¬ s.Disturbs l (Demo.conn 1))
    (fun _ _ => Demo.rests_spec) hq
  have hr' := Machine.run_of_execs (C := fun s l => ¬ s.Disturbs l (Demo.conn 1))
    (fun _ _ => Demo.rests_spec) hu
  have hretry := (retry_iff hs (Demo.clears_spec hc) hcool ha ht hr hw hr' hclock
    (Demo.clears_spec hc') hv).mpr hrate
  exact ⟨s, u, v, hs, ha, hclock, hv, hretry⟩

/-- A client whose send is refused with the hint `w` waits as told, is refused again, and has
another strike. -/
structure Misled (env : Env) (k : ConnKey) (e e' : SendEvent) (w : ℤ) (s u v : Sys) : Prop where
  reached : (system env).Reaches Free s
  clears : s.Clears env k e
  cool : (s.limiter k).cooldownUntil ≤ s.clock
  empty : s.tokens env.round k < 1
  waited : ∃ t q, s.step env (.handle k) = some t ∧
    (∃ ls, (system env).Run (fun s l => ¬ s.Disturbs l k) t ls q) ∧
    (q.conn k).handler = some (.send (.reply e (.reject e.clientId .rateLimited (some w)))) ∧
    ∃ ls, (system env).Run (fun s l => ¬ s.Disturbs l k) q ls u
  told : s.clock + w ≤ u.clock
  clears' : u.Clears env k e'
  step : u.step env (.handle k) = some v
  strikes : (v.limiter k).strikes = (u.limiter k).strikes + 1
  refused : ∀ l p, (v.conn k).handler ≠ some (.send (.hit l p))

theorem misled_of_retries {w : ℤ} {tier : Tier} {s : Sys}
    (hs : (system (Demo.env none)).Reaches Free s)
    (hP : Demo.retries (Demo.env none) w (Demo.refusesAgain tier) s = true) :
    ∃ u v, Misled (Demo.env none) (Demo.conn 1) ⟨"k", "k", none⟩ ⟨"l", "l", none⟩ w s u v ∧
      (u.limiter (Demo.conn 1)).tier = tier := by
  simp only [Demo.retries, Demo.refusesAgain, Option.any_eq_true, Bool.and_eq_true,
    decide_eq_true_eq] at hP
  obtain ⟨⟨hc, hcool, ha⟩, t, ht, q, hq, hw, u, hu, ⟨hclock, hc'⟩, v, hv, ⟨htier, hstrikes⟩, h, hh,
    hh'⟩ := hP
  have hr := Machine.run_of_execs (C := fun s l => ¬ s.Disturbs l (Demo.conn 1))
    (fun _ _ => Demo.rests_spec) hq
  have hr' := Machine.run_of_execs (C := fun s l => ¬ s.Disturbs l (Demo.conn 1))
    (fun _ _ => Demo.rests_spec) hu
  refine ⟨u, v, ⟨hs, Demo.clears_spec hc, hcool, ha, ⟨t, q, ht, ⟨_, hr⟩, hw, ⟨_, hr'⟩⟩, hclock,
    Demo.clears_spec hc', hv, hstrikes, ?_⟩, htier⟩
  intro l p hl
  obtain rfl := Option.some.inj (hh.symm.trans hl)
  cases hh'

/-- Without the condition: a client at 25 points is refused with a hint of one second, and the
refusal makes it a throttled one. A client that stays a normal one is refused with a hint of 939
milliseconds, and the doubles that flow in until then make up less than a token. Both are refused
again when they come back as told, and have a second strike. -/
theorem retry_misled :
    (∃ s u v, Misled (Demo.env none) (Demo.conn 1) ⟨"k", "k", none⟩ ⟨"l", "l", none⟩ 1000 s u v ∧
      (u.limiter (Demo.conn 1)).tier = .throttled) ∧
    ∃ s u v, Misled (Demo.env none) (Demo.conn 1) ⟨"k", "k", none⟩ ⟨"l", "l", none⟩ 939 s u v ∧
      (u.limiter (Demo.conn 1)).tier = .normal := by
  constructor
  · obtain ⟨s, hs, hP⟩ := exists_reached_free (Demo.env none)
      (Demo.retries (Demo.env none) 1000 (Demo.refusesAgain .throttled)) Demo.noon
      (Demo.bursts true) (by decide +kernel)
    exact ⟨s, misled_of_retries hs hP⟩
  · obtain ⟨s, hs, hP⟩ := exists_reached_free (Demo.env none)
      (Demo.retries (Demo.env none) 939 (Demo.refusesAgain .normal)) Demo.noon Demo.trickles
      (by decide +kernel)
    exact ⟨s, misled_of_retries hs hP⟩

end Sys

end RoomBackend
