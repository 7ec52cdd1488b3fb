import RoomBackend.Histories
import RoomBackend.Spending

/-! # The tier in force

A tier is assigned to a connection when it signals, when it takes a session up and when it passes
a challenge. Its score also falls with time, and when a verification in the background succeeds;
`applyTier` is not called then. The limits of a bucket are those of the tier that the score has as
long as neither takes the score across a threshold. -/

namespace RoomBackend

open Async Day RateLimit Suspicion Lts

namespace Limiter

variable {env : Env} {now : ℤ} {x : Limiter}

/-- The bucket has the limits of the tier that was assigned last. -/
structure Limited (x : Limiter) : Prop where
  capacity : x.bucket.capacity = x.tier.capacity
  rate : x.bucket.refillPerSec = x.tier.refillPerSec

/-- So it has, and it is the tier of the score. -/
structure Fits (env : Env) (now : ℤ) (x : Limiter) : Prop extends x.Limited where
  tier : x.tier = x.due env now

theorem Fits.capacity_due (h : x.Fits env now) : x.bucket.capacity = (x.due env now).capacity := by
  rw [← h.tier]
  exact h.capacity

theorem Fits.rate_due (h : x.Fits env now) :
    x.bucket.refillPerSec = (x.due env now).refillPerSec := by
  rw [← h.tier]
  exact h.rate

/-- The tier of the score is the same at another instant. -/
theorem Fits.later (h : x.Fits env now) {now' : ℤ} (hd : x.due env now' = x.due env now) :
    x.Fits env now' :=
  ⟨h.toLimited, h.tier.trans hd.symm⟩

/-- `applyTier` assigns the tier of the score. -/
theorem fits_applyTier (h : x.Limited) (now : ℤ) : (x.applyTier env now).Fits env now := by
  by_cases hd : x.due env now = x.tier
  · rw [show x.applyTier env now = x from if_neg (not_not.mpr hd)]
    exact ⟨h, hd.symm⟩
  · rw [show x.applyTier env now = _ from if_pos hd]
    exact ⟨⟨rfl, rfl⟩, rfl⟩

theorem due_applyTier (now now' : ℤ) : (x.applyTier env now).due env now' = x.due env now' := by
  unfold applyTier
  split
  · rfl
  · rfl

theorem fits_signal (h : x.Limited) (trusted : Bool) (name : Signal) :
    (x.signal env now trusted name).Fits env now :=
  fits_applyTier (x := { x with score := x.score.add env.halfPow name.points now trusted })
    ⟨h.capacity, h.rate⟩ now

theorem fits_enter (h : x.Limited) (r : SessionRecord) : (x.enter env now r).Fits env now :=
  fits_applyTier (x := { x with score := x.carry env now r }) ⟨h.capacity, h.rate⟩ now

/-- A score of zero has the normal tier, at all times. -/
theorem due_reset {y : Limiter} (now now' : ℤ) (hy : y.score = SuspicionScore.reset now) :
    y.due env now' = .normal := by
  have hv : y.score.value env.halfPow now' = 0 := by
    rw [hy]
    exact if_pos le_rfl
  unfold due
  rw [hv]
  decide +kernel

/-- A passed challenge leaves nothing to decay. -/
theorem fits_pass (now now' : ℤ) : (x.pass env now).Fits env now' := by
  have hs : (x.pass env now).score = SuspicionScore.reset now := by
    unfold pass applyTier
    dsimp only
    split
    · rfl
    · rfl
  have ht : (x.pass env now).tier = .normal := by
    unfold pass applyTier
    dsimp only
    rw [due_reset (y := { x with
      score := SuspicionScore.reset now, strikes := 0, cooldownUntil := 0 }) now now rfl]
    by_cases hx : Tier.normal = x.tier
    · rw [if_neg (not_not.mpr hx)]
      exact hx.symm
    · rw [if_pos hx]
  exact ⟨⟨rfl, rfl⟩, ht.trans (due_reset now now' hs).symm⟩

end Limiter

namespace Demo

/-- A client that looks automated connects, and its first frame is handled. -/
def suspected (e : ClientEvent) : List Label :=
  [.start 0, .upgrade 0 { path := "/ws", origin := none, ip := "a", automatedUA := true
                          ipCountry := none }]
    ++ turn (.upgrade 0) ++ turn (.upgrade 0) ++ turn (.upgrade 0) ++ handshake 0
    ++ receive (conn 1) e ++ turns (conn 1) 6

end Demo

namespace Sys

variable {env : Env} {s t : Sys} {l : Label} {k : ConnKey}

/-- The step leaves the score of connection `k` in its tier where the tier is not assigned anew:
when time passes, when a verification in the background succeeds, and when a `join` takes up its
session as of the instant it began. -/
def keepsTier (env : Env) (k : ConnKey) (s : Sys) (l : Label) : Bool :=
  let x := s.limiter k
  match l with
  | .clock now => decide (x.due env now = x.due env s.clock)
  | .resume (.chore n) =>
      match s.chore n with
      | some (.verify j _ (.fulfilled true)) =>
          j ≠ k || decide ((x.verify env s.clock).due env s.clock = x.due env s.clock)
      | _ => true
  | .resume (.handler j) =>
      match (s.conn j).handler with
      | some (.join (.block c r _ _)) =>
          j ≠ k || decide (tierOf ((x.carry env c.now r).value env.halfPow s.clock) =
            tierOf ((x.carry env c.now r).value env.halfPow c.now))
      | _ => true
  | _ => true

/-! ### Steps -/

/-- The step makes the score fall, or takes a session up: the ways to another score that
`keepsTier` is about. -/
def Shifts (s : Sys) (l : Label) (k : ConnKey) : Prop :=
  (∃ n token, l = .resume (.chore n) ∧ s.chore n = some (.verify k token (.fulfilled true))) ∨
    ∃ j r token p, l = .resume (.handler k) ∧
      (s.conn k).handler = some (.join (.block j r token p))

/-- Limits are changed with the tier only. -/
theorem Tunes.limited {x y : Limiter} (h : s.Tunes env l k x y) (hx : x.Limited) : y.Limited := by
  cases h with
  | signal _ trusted name => exact (Limiter.fits_signal hx trusted name).toLimited
  | take _ =>
      constructor
      · exact (TokenBucket.take_capacity env.round x.bucket s.clock).trans hx.capacity
      · exact (TokenBucket.take_refillPerSec env.round x.bucket s.clock).trans hx.rate
  | strike _ wait => exact ⟨hx.capacity, hx.rate⟩
  | @enter j r token p _ _ => exact (Limiter.fits_enter hx r).toLimited
  | pass _ _ => exact ⟨rfl, rfl⟩
  | verify _ _ => exact ⟨hx.capacity, hx.rate⟩

/-- Whatever else a step does to a limiter leaves the limits to the tier of the score. -/
theorem Tunes.fits {x y : Limiter} (h : s.Tunes env l k x y) (hx : x.Fits env s.clock)
    (hl : ¬ s.Shifts l k) : y.Fits env s.clock := by
  have hlim := h.limited hx.toLimited
  cases h with
  | signal _ trusted name => exact Limiter.fits_signal hx.toLimited trusted name
  | take _ => exact ⟨hlim, hx.tier⟩
  | strike _ wait => exact ⟨hlim, hx.tier⟩
  | @enter j r token p hl' hh => exact absurd (Or.inr ⟨j, r, token, p, hl', hh⟩) hl
  | @pass token r now p _ _ => exact Limiter.fits_pass now s.clock
  | @verify n token hl' hb => exact absurd (Or.inl ⟨n, token, hl', hb⟩) hl

theorem limited_of_reaches {C : Sys → Label → Prop} (h : (system env).Reaches C s) :
    (s.limiter k).Limited := by
  refine Machine.Reaches.invariant_of (J := fun s : Sys => s.Polite)
    (I := fun s : Sys => (s.limiter k).Limited) (fun _ hs => polite_of_reaches hs) ?_ ?_ h
  · rintro s ⟨t, rfl⟩
    exact ⟨rfl, rfl⟩
  · intro s l t hP hI _ ht
    rcases step_sides hP ht k with hm | ⟨n, u, -, -, -, hm⟩
    · exact hm.limiter_induct (fun x y hxy hx => hxy.limited hx) hI
    · refine hm.limiter_induct (I := Limiter.Limited) ?_ ⟨rfl, rfl⟩
      rintro x y ⟨trusted, name, rfl⟩ hx
      exact (Limiter.fits_signal hx trusted name).toLimited

theorem limiter_verified {n : ℕ} {token : String}
    (hb : s.chore n = some (.verify k token (.fulfilled true)))
    (h : s.step env (.resume (.chore n)) = some t) :
    t.limiter k = (s.limiter k).verify env s.clock := by
  obtain ⟨b, hb', hu⟩ := Option.bind_eq_some_iff.mp h
  obtain rfl := Option.some.inj (hb.symm.trans hb')
  cases hu
  unfold limiter updConduct updSide
  dsimp only
  rw [Function.update_self]
  rfl

/-- The session is taken up, unless its owner is blocked. -/
theorem limiter_entered {j : JoinCtx} {r : SessionRecord} {token : Token} {p : Promise ℤ}
    (hh : (s.conn k).handler = some (.join (.block j r token p)))
    (h : s.step env (.resume (.handler k)) = some t) :
    t.limiter k = s.limiter k ∨ t.limiter k = (s.limiter k).enter env j.now r := by
  obtain ⟨x, hx, hu⟩ := Option.bind_eq_some_iff.mp h
  obtain rfl := Option.some.inj (hh.symm.trans hx)
  obtain ⟨a, -, rfl⟩ := Option.map_eq_some_iff.mp hu
  split
  · exact Or.inl ((Quiet.refl.blocked _ _).finish.limiter k)
  · refine Or.inr (Eq.trans ?_ (Conduct.limiter_enter env (s.side k).conduct j.now r))
    exact congrArg (fun d : Side => d.conduct.limiter) (Function.update_self k _ s.side)

/-- A step that leaves the score in its tier leaves the limits to the tier of the score. -/
theorem fits_step (hP : s.Polite) (h : s.step env l = some t) (hl : s.keepsTier env k l = true)
    (hs : (s.limiter k).Fits env s.clock) : (t.limiter k).Fits env t.clock := by
  by_cases hclock : ∃ now, l = .clock now
  · obtain ⟨now, rfl⟩ := hclock
    cases (Option.ite_none_right_eq_some.mp h).2
    exact hs.later (of_decide_eq_true hl)
  rw [clock_step h fun now hn => hclock ⟨now, hn⟩]
  by_cases hsh : s.Shifts l k
  · obtain ⟨n, token, rfl, hb⟩ | ⟨j, r, token, p, rfl, hh⟩ := hsh
    · have hd : ((s.limiter k).verify env s.clock).due env s.clock =
          (s.limiter k).due env s.clock := by
        simpa [keepsTier, hb] using hl
      rw [limiter_verified hb h]
      exact ⟨⟨hs.capacity, hs.rate⟩, hs.tier.trans hd.symm⟩
    · have hd : tierOf (((s.limiter k).carry env j.now r).value env.halfPow s.clock) =
          tierOf (((s.limiter k).carry env j.now r).value env.halfPow j.now) := by
        simpa [keepsTier, hh] using hl
      rcases limiter_entered hh h with he | he
      · rw [he]
        exact hs
      · rw [he]
        refine (Limiter.fits_enter hs.toLimited r).later ?_
        unfold Limiter.enter
        rw [Limiter.due_applyTier, Limiter.due_applyTier]
        exact hd
  · -- every other change assigns the tier of the score
    rcases step_sides hP h k with hm | ⟨n, u, -, -, -, hm⟩
    · exact hm.limiter_induct (fun x y hxy hx => hxy.fits hx hsh) hs
    · refine hm.limiter_induct (I := fun x => x.Fits env s.clock) ?_ ?_
      · rintro x y ⟨trusted, name, rfl⟩ hx
        exact Limiter.fits_signal hx.toLimited trusted name
      · exact ⟨⟨rfl, rfl⟩, rfl⟩

/-- In a run that never takes the score of a connection across a threshold without assigning its
tier, the limits of its bucket are at all times those of the tier of its score. -/
theorem limits_of_reaches (h : (system env).Reaches (fun s l => s.keepsTier env k l = true) s) :
    (s.bucket k).capacity =
        (tierOf ((s.side k).conduct.score.value env.halfPow s.clock)).capacity ∧
      (s.bucket k).refillPerSec =
        (tierOf ((s.side k).conduct.score.value env.halfPow s.clock)).refillPerSec := by
  have hs : (s.limiter k).Fits env s.clock := by
    refine Machine.Reaches.invariant_of (J := fun s : Sys => s.Polite)
      (I := fun s : Sys => (s.limiter k).Fits env s.clock) (fun _ hs => polite_of_reaches hs)
      ?_ ?_ h
    · rintro s ⟨t, rfl⟩
      exact ⟨⟨rfl, rfl⟩, rfl⟩
    · intro s l t hP hI hl ht
      exact fits_step hP ht hl hI
  exact ⟨hs.capacity_due, hs.rate_due⟩

/-- A run of the theorem: a client that looks automated is throttled when it has joined. -/
theorem limits_suspected : ∃ s, (system (Demo.env none)).Reaches
      (fun s l => s.keepsTier (Demo.env none) (Demo.conn 1) l = true) s ∧
    (s.bucket (Demo.conn 1)).capacity = Tier.throttled.capacity ∧
    (s.bucket (Demo.conn 1)).refillPerSec = Tier.throttled.refillPerSec := by
  obtain ⟨s, hs, hP⟩ := exists_reached (Demo.env none)
    (keepsTier (Demo.env none) (Demo.conn 1))
    (fun s => decide (tierOf ((s.side (Demo.conn 1)).conduct.score.value
      (Demo.env none).halfPow s.clock) = .throttled)) Demo.noon
    (Demo.suspected (.join none none)) (by decide +kernel)
  obtain ⟨hc, hr⟩ := limits_of_reaches hs
  rw [of_decide_eq_true hP] at hc hr
  exact ⟨s, hs, hc, hr⟩

/-- Without the condition: the score of such a client has decayed to 17 points four minutes later,
or a verification in the background has lowered it to 19, and its next send still takes its token
from a throttled bucket. -/
theorem limits_outdated :
    (∃ s t, (system (Demo.env none)).Reaches Free s ∧
      s.step (Demo.env none) (.handle (Demo.conn 1)) = some t ∧
      (t.granted (Demo.conn 1)).isSome = true ∧
      (s.side (Demo.conn 1)).conduct.score.value (Demo.env none).halfPow s.clock = 17 ∧
      (s.bucket (Demo.conn 1)).capacity = Tier.throttled.capacity ∧
      (s.bucket (Demo.conn 1)).refillPerSec = Tier.throttled.refillPerSec) ∧
    ∃ s t, (system (Demo.env (some .turnstile))).Reaches Free s ∧
      s.step (Demo.env (some .turnstile)) (.handle (Demo.conn 1)) = some t ∧
      (t.granted (Demo.conn 1)).isSome = true ∧
      (s.side (Demo.conn 1)).conduct.score.value (Demo.env (some .turnstile)).halfPow s.clock = 19 ∧
      (s.bucket (Demo.conn 1)).capacity = Tier.throttled.capacity ∧
      (s.bucket (Demo.conn 1)).refillPerSec = Tier.throttled.refillPerSec := by
  constructor
  · obtain ⟨s, hs, hP⟩ := exists_reached_free (Demo.env none) (fun s =>
      (s.step (Demo.env none) (.handle (Demo.conn 1))).any (fun t =>
        (t.granted (Demo.conn 1)).isSome) &&
      decide ((s.side (Demo.conn 1)).conduct.score.value (Demo.env none).halfPow s.clock = 17 ∧
        (s.bucket (Demo.conn 1)).capacity = Tier.throttled.capacity ∧
        (s.bucket (Demo.conn 1)).refillPerSec = Tier.throttled.refillPerSec)) Demo.noon
      (Demo.suspected (.join none none) ++ [.clock (Demo.noon + 240000),
        .frame (Demo.conn 1) (.event (.send ⟨"c", "hi", none⟩))]) (by decide +kernel)
    obtain ⟨ht, hP⟩ := Bool.and_eq_true_iff.mp hP
    obtain ⟨t, ht, hg⟩ := (Option.any_eq_true _ _).mp ht
    exact ⟨s, t, hs, ht, hg, of_decide_eq_true hP⟩
  · obtain ⟨s, hs, hP⟩ := exists_reached_free (Demo.env (some .turnstile)) (fun s =>
      (s.step (Demo.env (some .turnstile)) (.handle (Demo.conn 1))).any (fun t =>
        (t.granted (Demo.conn 1)).isSome) &&
      decide ((s.side (Demo.conn 1)).conduct.score.value
          (Demo.env (some .turnstile)).halfPow s.clock = 19 ∧
        (s.bucket (Demo.conn 1)).capacity = Tier.throttled.capacity ∧
        (s.bucket (Demo.conn 1)).refillPerSec = Tier.throttled.refillPerSec)) Demo.noon
      (Demo.suspected (.join none (some "token")) ++ [.settle (.chore 1) .answered true,
        .resume (.chore 1), .frame (Demo.conn 1) (.event (.send ⟨"c", "hi", none⟩))])
      (by decide +kernel)
    obtain ⟨ht, hP⟩ := Bool.and_eq_true_iff.mp hP
    obtain ⟨t, ht, hg⟩ := (Option.any_eq_true _ _).mp ht
    exact ⟨s, t, hs, ht, hg, of_decide_eq_true hP⟩

end Sys

end RoomBackend
