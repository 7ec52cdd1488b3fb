import RoomBackend.Hints
import RoomBackend.Replays

/-! # After a passed challenge

A passed challenge resets what may refuse a send: the flag, the cooldown, the bucket and the score.
The next send may itself raise signals, of 39 points at most, before it is escalated. The
escalation reads the score at the instant the send came in, which is before the instants of its
signals: the longer the store takes in between, the more it reads. -/

namespace RoomBackend

open Async Day RateLimit Suspicion Lts

/-! ### Scores that are low -/

/-- A decay factor is one at zero elapsed time and falls from there on. -/
structure Suspicion.Fading (halfPow : ℤ → ℚ) : Prop where
  anti : ∀ a b, a ≤ b → halfPow b ≤ halfPow a
  zero : halfPow 0 = 1
  nonneg : ∀ d, 0 ≤ halfPow d

/-- The score is zero, or was set to at most `c` at `now` or before. -/
def Suspicion.SuspicionScore.Mild (x : SuspicionScore) (c : ℚ) (now : ℤ) : Prop :=
  x.score ≤ 0 ∨ x.score ≤ c ∧ x.setAt ≤ now

namespace Suspicion.SuspicionScore

variable {halfPow : ℤ → ℚ} {x : SuspicionScore} {c : ℚ} {now now' : ℤ}

theorem Mild.later (h : x.Mild c now) (hle : now ≤ now') : x.Mild c now' := by
  rcases h with h | ⟨h, ha⟩
  · exact Or.inl h
  · exact Or.inr ⟨h, ha.trans hle⟩

theorem Mild.mono {c' : ℚ} (h : x.Mild c now) (hle : c ≤ c') : x.Mild c' now := by
  rcases h with h | ⟨h, ha⟩
  · exact Or.inl h
  · exact Or.inr ⟨h.trans hle, ha⟩

/-- A mild score that is read at any instant, the earlier the more. -/
theorem Mild.value_le (hf : Fading halfPow) (hc : 0 ≤ c) (h : x.Mild c now) (t : ℤ) :
    x.value halfPow t ≤ c * halfPow (t - now) := by
  have h0 : 0 ≤ c * halfPow (t - now) := mul_nonneg hc (hf.nonneg _)
  unfold value
  split
  · exact h0
  · rename_i hpos
    rcases h with h | ⟨h, ha⟩
    · exact absurd h hpos
    · dsimp only
      split
      · exact h0
      · have hpow : halfPow (t - x.setAt) ≤ halfPow (t - now) := hf.anti _ _ (by omega)
        calc x.score * halfPow (t - x.setAt)
            ≤ c * halfPow (t - x.setAt) := mul_le_mul_of_nonneg_right h (hf.nonneg _)
          _ ≤ c * halfPow (t - now) := mul_le_mul_of_nonneg_left hpow hc

/-- More points, now. -/
theorem Mild.add (hf : Fading halfPow) (hc : 0 ≤ c) (h : x.Mild c now) {points : ℚ}
    (hp : 0 ≤ points) (trusted : Bool) :
    (x.add halfPow points now trusted).Mild (c + points) now := by
  have hv : x.value halfPow now ≤ c := by
    have hle := h.value_le hf hc now
    rwa [sub_self, hf.zero, mul_one] at hle
  have hw : points * (if trusted then 1 / 2 else 1) ≤ points := by
    refine mul_le_of_le_one_right hp ?_
    split
    · norm_num
    · exact le_rfl
  refine Or.inr ⟨max_le (add_nonneg hc hp) ((min_le_right _ _).trans (add_le_add hv hw)), le_rfl⟩

end Suspicion.SuspicionScore

theorem Suspicion.Signal.points_nonneg (name : Signal) : 0 ≤ name.points := by
  cases name <;> norm_num [Signal.points]

namespace Limiter

variable {env : Env} {now : ℤ} {x : Limiter}

theorem applyTier_score : (x.applyTier env now).score = x.score := by
  unfold applyTier
  split
  · rfl
  · rfl

/-- A signal at the present. -/
theorem mild_signal {c : ℚ} (hf : Fading env.halfPow) (hc : 0 ≤ c) (h : x.score.Mild c now)
    (trusted : Bool) (name : Signal) :
    (x.signal env now trusted name).score.Mild (c + name.points) now := by
  unfold signal
  rw [applyTier_score]
  exact h.add hf hc name.points_nonneg trusted

/-- A passed challenge leaves no points, no cooldown and a full bucket. -/
theorem pass_score : (x.pass env now).score = SuspicionScore.reset now := by
  unfold pass
  exact applyTier_score

theorem pass_cooldownUntil : (x.pass env now).cooldownUntil = 0 := by
  unfold pass applyTier
  dsimp only
  split
  · rfl
  · rfl

theorem pass_avail (t : ℚ) : 1 ≤ (x.pass env now).bucket.avail env.round t := by
  have hb : (x.pass env now).bucket.Sound env.round := sound_pass x now
  have hfull : 1 ≤ (x.pass env now).bucket.tokens := (Tier.one_lt_capacity _).le
  exact hfull.trans (TokenBucket.tokens_le_avail hb)

end Limiter

/-! ### The stages of a send -/

/-- The steps that are left to a send up to its reply. -/
def SendPc.left : SendPc → ℕ
  | .hit _ p => if p = .pending then 9 else 8
  | .dup _ p => if p = .pending then 7 else 6
  | .escalate _ _ _ => 5
  | .append _ _ _ p => if p = .pending then 4 else 3
  | .publish _ _ _ p => if p = .pending then 2 else 1
  | .reply _ _ => 0

/-- The network window is not exceeded, and the store and the bus have done their part. -/
def SendPc.Served : SendPc → Prop
  | .hit _ p => ∀ n, p = .fulfilled n → n ≤ NETWORK_MSG_LIMIT
  | .append _ _ _ p => p ≠ .rejected
  | .publish _ _ _ p => p ≠ .rejected
  | .reply _ _ => False
  | _ => True

/-- An operation of the handler of `k` is answered, or the handler goes on. -/
def Label.drives (k : ConnKey) : Label → Bool
  | .resume th => decide (th = .handler k)
  | .settle th _ _ => decide (th = .handler k)
  | _ => false

namespace Sys

variable {env : Env} {s t : Sys} {l : Label} {k : ConnKey}

/-! ### The challenge is passed -/

theorem limiter_challengePassed (r : SessionIdent) (now : ℤ) :
    (s.challengePassed env k r now).limiter k = (s.limiter k).pass env now := by
  unfold challengePassed
  dsimp only
  rw [Quiet.limiter (Quiet.refl.persist.suspend _), limiter_updConduct]
  have ht := Conduct.limiter_applyTier env ({ (s.side k).conduct with
    score := SuspicionScore.reset now, strikes := 0, cooldownUntil := 0 } : Conduct) now
  exact congrArg (fun y : Limiter =>
    { y with bucket := TokenBucket.new y.tier.capacity y.tier.refillPerSec now }) ht

/-- A session whose challenge is passed, and whose next frame has not been handled yet: `x` is the
limiter before the pass, at `now`. -/
structure Restored (env : Env) (s : Sys) (k : ConnKey) (r : SessionIdent) (x : Limiter) (now : ℤ) :
    Prop where
  record : (s.conn k).record = some r
  joined : (s.conn k).joined = true
  cleared : ((s.conn k).standing r.sid).challengePending = false
  unblocked : (s.conn k).blockedUntil ≤ s.clock
  limiter : s.limiter k = x.pass env now
  waits : ∀ h, (s.conn k).handler = some h → ∃ req p, h = .challenge (.passed req p)

/-- The answer of a challenge has been verified. -/
structure Verified (s : Sys) (k : ConnKey) (r : SessionIdent) (now : ℤ) : Prop where
  handler : ∃ token, (s.conn k).handler = some (.challenge (.verify token r now (.fulfilled true)))
  record : (s.conn k).record = some r
  pending : ((s.conn k).standing r.sid).challengePending = true
  joined : (s.conn k).joined = true
  up : (s.conn k).closed = false
  unblocked : (s.conn k).blockedUntil ≤ s.clock

theorem Verified.restored {r : SessionIdent} {now : ℤ} (hv : s.Verified k r now)
    (h : s.step env (.resume (.handler k)) = some t) :
    t.Restored env k r (s.limiter k) now := by
  obtain ⟨token, hh⟩ := hv.handler
  obtain ⟨x, hx, hu⟩ := Option.bind_eq_some_iff.mp h
  cases hh.symm.trans hx
  have ht : s.challengePassed env k r now = t := by
    have hu' := Option.some.inj hu
    dsimp only at hu'
    rw [hv.up] at hu'
    exact hu'
  obtain ⟨req, p, hconn⟩ : ∃ req p, t.conn k =
      { (s.toCore.pass k r (now + TRUST_WINDOW_MS)).conn k with
        handler := some (.challenge (.passed req p)) } := by
    rw [← ht]
    unfold challengePassed
    dsimp only
    rw [toCore_suspend, toCore_persist]
    exact ⟨_, _, Core.setHandler_conn ..⟩
  have hpass : (s.toCore.pass k r (now + TRUST_WINDOW_MS)).conn k = { s.conn k with
      standing := Function.update (s.conn k).standing r.sid
        { (s.conn k).standing r.sid with
          challengePending := false, challengeFails := 0, trustedUntil := now + TRUST_WINDOW_MS
          flagged := s.world.journal.length + 1 } } := by
    unfold Core.pass Core.observe
    dsimp only
    rw [Core.updStanding_conn]
  rw [hpass] at hconn
  refine ⟨?_, ?_, ?_, ?_, ?_, ?_⟩
  · rw [hconn]
    exact hv.record
  · rw [hconn]
    exact hv.joined
  · rw [hconn]
    dsimp only
    rw [Function.update_self]
  · rw [hconn]
    exact hv.unblocked.trans (clock_mono h)
  · rw [← ht, limiter_challengePassed]
  · intro y hy
    rw [hconn] at hy
    exact ⟨req, p, (Option.some.inj hy).symm⟩

/-! ### Until the next frame -/

/-- Another event of the connection: a frame of it is handled or dropped, its score changes, an
operator blocks it, or it is renewed. -/
inductive Interferes (s : Sys) (l : Label) (k : ConnKey) : Prop
  | disturbs (h : s.Disturbs l k)
  | kicked {n : ℕ} {i origin : InstanceId} {sid : Sid} {reason : String} (hl : l = .deliver n)
      (hn : s.world.inFlight[n]? = some (i, .kick origin sid reason))
      (hr : (s.conn k).record.any (fun r => r.sid = sid) = true)
  | renewed (hl : l = .resume (.rollover k))

theorem Restored.step {r : SessionIdent} {x : Limiter} {now : ℤ} (hR : s.Restored env k r x now)
    (hreach : (system env).Reaches Free s) (hk : k ∈ s.accepted) (hd : ¬ s.Interferes l k)
    (h : s.step env l = some t) : t.Restored env k r x now := by
  have hB := born_of_reaches hreach
  have hlim : t.limiter k = x.pass env now :=
    (limiter_undisturbed (polite_of_reaches hreach) hB hk h fun hdi => hd (.disturbs hdi)).trans
      hR.limiter
  have hclock := clock_mono h
  -- only the handler, the rollover and the end of the connection may change
  have hkeep : ∀ y : Conn, t.conn k = y → y.record = (s.conn k).record →
      y.joined = (s.conn k).joined → y.standing = (s.conn k).standing →
      y.blockedUntil = (s.conn k).blockedUntil →
      (∀ h, y.handler = some h → ∃ req p, h = .challenge (.passed req p)) →
      t.Restored env k r x now := by
    intro y he hr hj hst hb hh
    refine ⟨?_, ?_, ?_, ?_, hlim, by rw [he]; exact hh⟩
    · rw [he, hr]
      exact hR.record
    · rw [he, hj]
      exact hR.joined
    · rw [he, hst]
      exact hR.cleared
    · rw [he, hb]
      exact hR.unblocked.trans hclock
  have hc := (coreStep h).conn k
  generalize hy : t.conn k = y at hc
  cases hc with
  | same => exact hkeep _ hy rfl rfl rfl rfl hR.waits
  | act hl hh ha =>
      obtain ⟨req, p, rfl⟩ := hR.waits _ hh
      cases ha with
      | idle => exact hkeep _ hy rfl rfl rfl rfl fun h hn => by cases hn
  | handle hl => exact absurd (.disturbs (.marks (.handle hl))) hd
  | settled hl hh hs =>
      obtain ⟨req, p, rfl⟩ := hR.waits _ hh
      obtain ⟨⟨pc, w'⟩, hp, he⟩ := Option.map_eq_some_iff.mp hs
      obtain ⟨⟨p', w''⟩, -, he'⟩ := Option.map_eq_some_iff.mp hp
      obtain ⟨rfl, -⟩ := Prod.mk.inj he
      obtain ⟨rfl, -⟩ := Prod.mk.inj he'
      refine hkeep _ hy rfl rfl rfl rfl fun h hn => ?_
      exact ⟨req, p', (Option.some.inj hn).symm⟩
  | accepted hl hj =>
      have hn := hB.numbered k hk
      rw [hj] at hn
      dsimp only at hn
      omega
  | muted hl hn hr => exact absurd (.kicked hl hn hr) hd
  | renewed hl => exact absurd (.renewed hl) hd
  | _ => exact hkeep _ hy rfl rfl rfl rfl hR.waits

theorem Restored.run {r : SessionIdent} {x : Limiter} {now : ℤ} {ls : List Label}
    (hR : s.Restored env k r x now) (hreach : (system env).Reaches Free s) (hk : k ∈ s.accepted)
    (hrun : (system env).Run (fun s l => ¬ s.Interferes l k) s ls t) :
    (system env).Reaches Free t ∧ k ∈ t.accepted ∧ t.Restored env k r x now := by
  refine ⟨hreach.run (hrun.mono fun _ _ _ => trivial), hreach.preserves (I := fun z : Sys =>
    k ∈ z.accepted ∧ z.Restored env k r x now) hrun (fun _ _ _ => trivial) ?_ ⟨hk, hR⟩⟩
  rintro a l b ha ⟨hka, hRa⟩ hd hb
  exact ⟨mem_accepted_step hb hka, hRa.step ha hka hd hb⟩

/-! ### The next frame is a send -/

/-- The next frame of the connection, on the day of its session, is a send of a fresh client id for
the current day, with an acceptable text. -/
structure Asks (env : Env) (s : Sys) (k : ConnKey) (r : SessionIdent) (e : SendEvent) : Prop where
  queued : (s.side k).queue.head? = some (.event (.send e))
  up : (s.conn k).closed = false
  fresh : (s.side k).conduct.replies.find? (fun p => p.1 = e.clientId) = none
  day : e.day = some (s.roomOf k).day
  text : ∃ text, env.normalizeText e.text env.config.maxMessageLength
    env.config.maxMessageLines = .ok text
  today : (env.roomAt s.clock).roomId = (s.roomOf k).roomId
  ours : r.roomId = (s.roomOf k).roomId

theorem Restored.clears {r : SessionIdent} {x : Limiter} {now : ℤ} {e : SendEvent}
    (hR : s.Restored env k r x now) (ha : s.Asks env k r e) : s.Clears env k e := by
  refine ⟨ha.queued, ha.up, hR.joined, ha.fresh, ha.today, ?_, ?_, hR.unblocked,
    ⟨r, hR.record, ha.ours, hR.cleared⟩, ha.text⟩
  · rw [ha.day]
    simp
  · rw [ha.day]
    rintro ⟨hn, -⟩
    cases hn

/-- It finds a token. -/
theorem Restored.handle {r : SessionIdent} {x : Limiter} {now : ℤ} {e : SendEvent}
    (hR : s.Restored env k r x now) (ha : s.Asks env k r e) (h0 : 0 ≤ s.clock)
    (h : s.step env (.handle k) = some t) : ∃ l : SendLocals, l.event = e ∧ l.now = s.clock ∧
      (t.conn k).handler = some (.send (.hit l .pending)) ∧ (t.limiter k).score.score ≤ 0 := by
  obtain ⟨l, p, hle, hln, -, hpl, -, rfl⟩ := handle_clears (hR.clears ha) h
  rw [hR.limiter] at hpl
  have hcool : (p.limiter k).cooldownUntil ≤ l.now := by
    rw [hpl, Limiter.pass_cooldownUntil, hln]
    exact h0
  have havail : 1 ≤ (p.bucket k).avail env.round l.now := by
    rw [show p.bucket k = (x.pass env now).bucket from congrArg Limiter.bucket hpl]
    exact Limiter.pass_avail _
  obtain ⟨hh, hlim⟩ := decideRate_granted env hcool havail
  refine ⟨l, hle, hln, hh, ?_⟩
  rw [hlim]
  show (p.limiter k).score.score ≤ 0
  rw [hpl, Limiter.pass_score]
  exact le_rfl

/-! ### Its decision -/

/-- The score of the connection is low at `now`, the present instant. -/
def Low (s : Sys) (k : ConnKey) (c : ℚ) (now : ℤ) : Prop :=
  s.clock = now ∧ (s.limiter k).score.Mild c now

theorem Low.updConduct {c : ℚ} {now : ℤ} (h : s.Low k c now) {f : Conduct → Conduct}
    (hf : ∀ c, (f c).limiter = c.limiter) : (s.updConduct k f).Low k c now := by
  refine ⟨h.1, ?_⟩
  rw [limiter_updConduct, hf]
  exact h.2

theorem Low.signalIf {c : ℚ} {now : ℤ} (hf : Fading env.halfPow) (hc : 0 ≤ c) (h : s.Low k c now)
    (b : Bool) (name : Signal) : (s.signalIf env k b name).Low k (c + name.points) now := by
  obtain ⟨hclock, hm⟩ := h
  unfold Sys.signalIf
  split
  · refine ⟨hclock, ?_⟩
    rw [limiter_signal, hclock]
    exact Limiter.mild_signal hf hc hm _ name
  · exact ⟨hclock, hm.mono (le_add_of_nonneg_right name.points_nonneg)⟩

/-- The signals of a decision up to the shared duplicate check: 27 points at most. -/
theorem Low.decideSignals {now : ℤ} (hf : Fading env.halfPow) (h : s.Low k 0 now)
    (l : SendLocals) : (s.decideSignals env k l).Low k 27 now := by
  have hsum : (27 : ℚ) = 0 + Signal.machineRegularTiming.points + Signal.instantAfterJoin.points +
      Signal.ownDuplicate.points := by norm_num [Signal.points]
  rw [hsum]
  unfold Sys.decideSignals
  refine Low.updConduct (.signalIf hf ?_ (.updConduct (.signalIf hf ?_ (.signalIf hf le_rfl
    (.updConduct h ?_) _ _) _ _) ?_) _ _) ?_
  · norm_num [Signal.points]
  · norm_num [Signal.points]
  · exact fun _ => rfl
  · exact fun _ => rfl
  · exact fun _ => rfl

/-- The stages of a send that is to be accepted, and what the score may be at each. -/
def Accepting (s : Sys) (k : ConnKey) (e : SendEvent) (now : ℤ) : SendPc → Prop
  | .hit l _ => l.event = e ∧ l.now = now ∧ (s.limiter k).score.score ≤ 0
  | .dup l _ => l.event = e ∧ l.now = now ∧ (s.limiter k).score.Mild 27 s.clock
  | .escalate l site pc => l.event = e ∧ site = .accept ∧ pc = .returned none
  | .append l _ _ _ => l.event = e
  | .publish l _ _ _ => l.event = e
  | .reply e' reply => e' = e ∧ ∃ m, reply = .ack e.clientId m

/-- Nothing else happens on the connection while its send is decided, and what it asks for is
done. -/
def Serves (k : ConnKey) (s : Sys) (l : Label) : Prop :=
  if l = .resume (.handler k) then ∀ p, (s.conn k).handler = some (.send p) → p.Served
  else ¬ s.Disturbs l k

/-- The counters have answered before the points of four signals, read at the instant of the send,
would reach the challenge threshold. -/
def Prompt (env : Env) (k : ConnKey) (s : Sys) (l : Label) : Prop :=
  l = .resume (.handler k) → ∀ x : SendLocals,
    (∃ p, (s.conn k).handler = some (.send (.hit x p)) ∨
      ∃ p, (s.conn k).handler = some (.send (.dup x p))) →
        39 * env.halfPow (x.now - s.clock) < Thresholds.challenge

theorem escalate_low {now : ℤ}
    (h : (s.limiter k).score.value env.halfPow now < Thresholds.challenge) :
    s.escalate env k now = (s, .returned none) := by
  unfold escalate
  exact if_pos h

/-- A send whose score is low when it is escalated goes on. -/
theorem Low.escalates {c : ℚ} {now : ℤ} {x : SendLocals} (hf : Fading env.halfPow) (hc : 0 ≤ c)
    (h : s.Low k c now) (hv : c * env.halfPow (x.now - now) < Thresholds.challenge) :
    s.decideEscalate env k x .accept =
      s.suspend k (.send (.escalate x .accept (.returned none))) := by
  unfold decideEscalate
  rw [escalate_low ((h.2.value_le hf hc x.now).trans_lt hv)]

theorem Accepting.resume {e : SendEvent} {now : ℤ} {p : SendPc} (hf : Fading env.halfPow)
    (hA : s.Accepting k e now p) (hs : p.Served)
    (hp : ∀ x : SendLocals, ((∃ q, p = .hit x q) ∨ ∃ q, p = .dup x q) →
      39 * env.halfPow (x.now - s.clock) < Thresholds.challenge)
    (h : s.sendResume env k p = some t) :
    ∃ p', (t.conn k).handler = some (.send p') ∧ t.Accepting k e now p' ∧ p'.left < p.left := by
  have hsusp : ∀ (u : Sys) (q : SendPc), ((u.suspend k (.send q)).conn k).handler =
      some (.send q) := fun u q => by rw [toCore_suspend, Core.setHandler_conn]
  have hlim : ∀ (u : Sys) (q : SendPc), (u.suspend k (.send q)).limiter k = u.limiter k :=
    fun u q => Quiet.limiter (Quiet.refl.suspend _) k
  cases p with
  | hit x q =>
      obtain ⟨hxe, hxn, hsc⟩ := hA
      obtain ⟨n, hn, hu⟩ := Option.map_eq_some_iff.mp h
      have hq : q ≠ .pending := by
        rintro rfl
        cases hn
      have hleft : SendPc.left (.hit x q) = 8 := if_neg hq
      have hcount : ¬ n > NETWORK_MSG_LIMIT := by
        cases q with
        | pending => cases hn
        | fulfilled m =>
            obtain rfl := Option.some.inj hn
            exact not_lt.mpr (hs m rfl)
        | rejected =>
            obtain rfl := Option.some.inj hn
            exact Nat.not_lt_zero _
      have hlow : (s.decideSignals env k x).Low k 27 s.clock :=
        Low.decideSignals hf ⟨rfl, Or.inl hsc⟩ x
      rw [if_neg hcount] at hu
      dsimp only at hu
      rw [hleft]
      split at hu
      · subst hu
        refine ⟨_, hsusp _ _, ⟨hxe, hxn, ?_⟩, by simp [SendPc.left]⟩
        rw [hlim]
        exact hlow.2.later hlow.1.ge
      · have hv : 27 * env.halfPow (x.now - s.clock) < Thresholds.challenge :=
          (mul_le_mul_of_nonneg_right (by norm_num) (hf.nonneg _)).trans_lt
            (hp x (Or.inl ⟨q, rfl⟩))
        rw [hlow.escalates hf (by norm_num) hv] at hu
        subst hu
        exact ⟨_, hsusp _ _, ⟨hxe, rfl, rfl⟩, by simp [SendPc.left]⟩
  | dup x q =>
      obtain ⟨hxe, hxn, hsc⟩ := hA
      obtain ⟨n, hn, hu⟩ := Option.map_eq_some_iff.mp h
      have hq : q ≠ .pending := by
        rintro rfl
        cases hn
      have hleft : SendPc.left (.dup x q) = 6 := if_neg hq
      have hlow := Low.signalIf (s := s) (k := k) hf (by norm_num) ⟨rfl, hsc⟩
        (n ≥ CROSS_DUP_SESSIONS) .crossSessionDuplicate
      have hsum : (27 : ℚ) + Signal.crossSessionDuplicate.points = 39 := by
        norm_num [Signal.points]
      rw [hsum] at hlow
      rw [hlow.escalates hf (by norm_num) (hp x (Or.inr ⟨q, rfl⟩))] at hu
      subst hu
      rw [hleft]
      exact ⟨_, hsusp _ _, ⟨hxe, rfl, rfl⟩, by simp [SendPc.left]⟩
  | escalate x site pc =>
      obtain ⟨hxe, rfl, rfl⟩ := hA
      obtain rfl := Option.some.inj h
      have hh : ((s.decideAccept env k x).conn k).handler = some (.send
          (.append x (s.toCore.roomOf k) (acceptedMessage env s.draws x) .pending)) :=
        congrArg Conn.handler (Core.setHandler_conn ..)
      exact ⟨_, hh, hxe, by simp [SendPc.left]⟩
  | append x room m q =>
      cases q with
      | pending => cases h
      | rejected => exact absurd rfl hs
      | fulfilled a =>
          obtain rfl := Option.some.inj h
          exact ⟨_, hsusp _ _, hA, by simp [SendPc.left]⟩
  | publish x room m q =>
      cases q with
      | pending => cases h
      | rejected => exact absurd rfl hs
      | fulfilled a =>
          obtain rfl := Option.some.inj h
          refine ⟨_, hsusp _ _, ⟨hA, toPublic m, ?_⟩, by simp [SendPc.left]⟩
          rw [hA]
  | reply e' reply => exact hs.elim

/-- An operation that is answered does not change what a send is up to. -/
theorem Accepting.settle {e : SendEvent} {now clock : ℤ} {v : Bool} {n : ℕ} {info : AdmitInfo}
    {o : Outcome} {p : SendPc} {h' : Handler} {w w' : World} (hA : s.Accepting k e now p)
    (hs : (Handler.send p).settle env clock v k n info o w = some (h', w')) :
    ∃ p', h' = .send p' ∧ s.Accepting k e now p' ∧ p'.left < p.left := by
  have hset : ∀ {α : Type} {q q' : Promise α} {op : World → α × World} {u u' : World},
      q.settle op o u = some (q', u') → q = .pending ∧ q' ≠ .pending := by
    intro α q q' op u u' hq
    obtain ⟨rfl, rfl, -⟩ := Promise.settle_eq_some.mp hq
    refine ⟨rfl, ?_⟩
    unfold Promise.answer
    split <;> simp
  obtain ⟨⟨p', w₁⟩, hp, he⟩ := Option.map_eq_some_iff.mp hs
  obtain ⟨rfl, -⟩ := Prod.mk.inj he
  refine ⟨p', rfl, ?_⟩
  cases p with
  | escalate x site pc =>
      obtain ⟨-, -, rfl⟩ := hA
      cases hp
  | reply e' reply => cases hp
  | _ =>
      obtain ⟨⟨q', w₂⟩, hq, he'⟩ := Option.map_eq_some_iff.mp hp
      obtain ⟨rfl, -⟩ := Prod.mk.inj he'
      obtain ⟨rfl, hne⟩ := hset hq
      refine ⟨hA, ?_⟩
      simp [SendPc.left, hne]

theorem Accepting.step {e : SendEvent} {now : ℤ} {p : SendPc} (hf : Fading env.halfPow)
    (hreach : (system env).Reaches Free s) (hk : k ∈ s.accepted)
    (hh : (s.conn k).handler = some (.send p)) (hA : s.Accepting k e now p)
    (hs : s.Serves k l) (hp : s.Prompt env k l) (h : s.step env l = some t) :
    ∃ p', (t.conn k).handler = some (.send p') ∧ t.Accepting k e now p' ∧
      p'.left + (if l.drives k = true then 1 else 0) ≤ p.left := by
  by_cases hl : l = .resume (.handler k)
  · subst hl
    obtain ⟨y, hy, hu⟩ := Option.bind_eq_some_iff.mp h
    cases hh.symm.trans hy
    unfold Serves at hs
    rw [if_pos rfl] at hs
    have hprompt : ∀ x : SendLocals, ((∃ q, p = .hit x q) ∨ ∃ q, p = .dup x q) →
        39 * env.halfPow (x.now - s.clock) < Thresholds.challenge := by
      intro x hx
      refine hp rfl x ?_
      rcases hx with ⟨q, rfl⟩ | ⟨q, rfl⟩
      · exact ⟨q, Or.inl hh⟩
      · exact ⟨q, Or.inr ⟨q, hh⟩⟩
    obtain ⟨p', hh', hA', hlt⟩ := hA.resume hf (hs p hh) hprompt hu
    have hd : Label.drives k (.resume (.handler k)) = true := decide_eq_true rfl
    refine ⟨p', hh', hA', ?_⟩
    rw [if_pos hd]
    exact hlt
  · have hd : ¬ s.Disturbs l k := by
      unfold Serves at hs
      rwa [if_neg hl] at hs
    have hB := born_of_reaches hreach
    have hlim := limiter_undisturbed (polite_of_reaches hreach) hB hk h hd
    have hclock := clock_mono h
    -- the score stays as it is
    have hkeep : ∀ q : SendPc, s.Accepting k e now q → t.Accepting k e now q := by
      intro q hq
      unfold Accepting at hq ⊢
      rw [hlim]
      cases q with
      | dup x q => exact ⟨hq.1, hq.2.1, hq.2.2.later hclock⟩
      | _ => exact hq
    by_cases hst : ∃ o v, l = .settle (.handler k) o v
    · obtain ⟨o, v, rfl⟩ := hst
      obtain ⟨c, hc, rfl⟩ := Option.map_eq_some_iff.mp h
      obtain ⟨y, hy, hc⟩ := Option.bind_eq_some_iff.mp hc
      cases hh.symm.trans hy
      obtain ⟨⟨h', w'⟩, hs', rfl⟩ := Option.map_eq_some_iff.mp hc
      obtain ⟨p', rfl, hA', hlt⟩ := hA.settle hs'
      have hdr : Label.drives k (.settle (.handler k) o v) = true := decide_eq_true rfl
      refine ⟨p', congrArg Conn.handler (Core.setHandler_conn ..), hkeep p' hA', ?_⟩
      rw [if_pos hdr]
      exact hlt
    · have hdr : ¬ l.drives k = true := by
        unfold Label.drives
        split
        · rename_i th
          intro he
          exact hl (congrArg Label.resume (of_decide_eq_true he))
        · rename_i th o v
          intro he
          exact hst ⟨o, v, by rw [of_decide_eq_true he]⟩
        · simp
      rw [if_neg hdr]
      refine ⟨p, ?_, hkeep p hA, le_rfl⟩
      have hc := (coreStep h).conn k
      generalize t.conn k = y at hc
      cases hc with
      | act hl' => exact absurd hl' hl
      | handle hl' => exact absurd (.marks (.handle hl')) hd
      | settled hl' => exact absurd ⟨_, _, hl'⟩ hst
      | accepted hl' hj =>
          have hn := hB.numbered k hk
          rw [hj] at hn
          dsimp only at hn
          omega
      | _ => exact hh

/-- While a send is not answered, its next operation can be, or its handler can go on. -/
theorem Accepting.enabled (env : Env) {e : SendEvent} {now : ℤ} {p : SendPc}
    (hh : (s.conn k).handler = some (.send p)) (hA : s.Accepting k e now p) :
    (∃ m, p = .reply e (.ack e.clientId m)) ∨
      0 < p.left ∧ ∃ l : Label, l.drives k = true ∧ (s.step env l).isSome = true := by
  have hresume : (s.sendResume env k p).isSome = true →
      ∃ l : Label, l.drives k = true ∧ (s.step env l).isSome = true := by
    intro h
    refine ⟨.resume (.handler k), decide_eq_true rfl, ?_⟩
    show ((s.conn k).handler.bind fun h => s.handlerResume env k h).isSome = true
    rw [hh]
    exact h
  have hsettle : (p.settle env s.clock k (s.conn k).handled (s.conn k).info .answered
      s.world).isSome = true →
      ∃ l : Label, l.drives k = true ∧ (s.step env l).isSome = true := by
    intro h
    refine ⟨.settle (.handler k) .answered true, decide_eq_true rfl, ?_⟩
    show ((s.toCore.settle env .answered true (.handler k)).map _).isSome = true
    rw [Option.isSome_map]
    show ((s.conn k).handler.bind _).isSome = true
    rw [hh, Option.bind_some, Option.isSome_map]
    show ((p.settle env s.clock k (s.conn k).handled (s.conn k).info .answered
      s.world).map _).isSome = true
    rw [Option.isSome_map]
    exact h
  cases p with
  | hit x q =>
      right
      cases q with
      | pending => exact ⟨by simp [SendPc.left], hsettle rfl⟩
      | _ => exact ⟨by simp [SendPc.left], hresume rfl⟩
  | dup x q =>
      right
      cases q with
      | pending => exact ⟨by simp [SendPc.left], hsettle rfl⟩
      | _ => exact ⟨by simp [SendPc.left], hresume rfl⟩
  | escalate x site pc =>
      obtain ⟨-, rfl, rfl⟩ := hA
      exact Or.inr ⟨by simp [SendPc.left], hresume rfl⟩
  | append x room m q =>
      right
      cases q with
      | pending => exact ⟨by simp [SendPc.left], hsettle rfl⟩
      | _ => exact ⟨by simp [SendPc.left], hresume rfl⟩
  | publish x room m q =>
      right
      cases q with
      | pending => exact ⟨by simp [SendPc.left], hsettle rfl⟩
      | _ => exact ⟨by simp [SendPc.left], hresume rfl⟩
  | reply e' reply =>
      obtain ⟨rfl, m, rfl⟩ := hA
      exact Or.inl ⟨m, rfl⟩

theorem Accepting.run {e : SendEvent} {now : ℤ} {p : SendPc} {ls : List Label}
    (hf : Fading env.halfPow) (hreach : (system env).Reaches Free s) (hk : k ∈ s.accepted)
    (hh : (s.conn k).handler = some (.send p)) (hA : s.Accepting k e now p)
    (hrun : (system env).Run (fun s l => s.Serves k l ∧ s.Prompt env k l) s ls t) :
    ∃ p', (t.conn k).handler = some (.send p') ∧ t.Accepting k e now p' ∧
      p'.left + ls.countP (Label.drives k) ≤ p.left := by
  induction hrun generalizing p with
  | nil => exact ⟨p, hh, hA, le_rfl⟩
  | @cons s l u ls t hc hs _ ih =>
      obtain ⟨p₁, hh₁, hA₁, hle₁⟩ := hA.step hf hreach hk hh hc.1 hc.2 hs
      obtain ⟨p', hh', hA', hle⟩ := ih (hreach.step trivial hs) (mem_accepted_step hs hk) hh₁ hA₁
      refine ⟨p', hh', hA', ?_⟩
      rw [List.countP_cons]
      omega

/-- A client that passes its challenge and then sends a message, with nothing else happening on its
connection, is acknowledged: after nine steps of its handler at most, and none of them is missing.
The counters must have answered before the points of the send, read at its instant, would reach the
challenge threshold. -/
theorem passed_restores {s₀ s₁ s₂ s₃ s₄ : Sys} {r : SessionIdent} {now : ℤ} {e : SendEvent}
    {ls ls' : List Label} (hf : Fading env.halfPow) (h₀ : (system env).Reaches Free s₀)
    (hv : s₀.Verified k r now) (h₁ : s₀.step env (.resume (.handler k)) = some s₁)
    (hrest : (system env).Run (fun s l => ¬ s.Interferes l k) s₁ ls s₂)
    (ha : s₂.Asks env k r e) (hpos : 0 ≤ s₂.clock) (h₃ : s₂.step env (.handle k) = some s₃)
    (hrun : (system env).Run (fun s l => s.Serves k l ∧ s.Prompt env k l) s₃ ls' s₄) :
    ∃ p, (s₄.conn k).handler = some (.send p) ∧ p.left + ls'.countP (Label.drives k) ≤ 9 ∧
      ((∃ m, p = .reply e (.ack e.clientId m)) ∨
        0 < p.left ∧ ∃ l : Label, l.drives k = true ∧ (s₄.step env l).isSome = true) := by
  have hk : k ∈ s₀.accepted := by
    by_contra hn
    obtain ⟨token, hh⟩ := hv.handler
    rw [(born_of_reaches h₀).unborn k hn] at hh
    cases hh
  have hstep : (system env).step s₀ (.resume (.handler k)) = some s₁ := h₁
  obtain ⟨hreach₂, hk₂, hR⟩ := (hv.restored h₁).run (h₀.step trivial hstep)
    (mem_accepted_step h₁ hk) hrest
  obtain ⟨l, hle, hln, hh, hsc⟩ := hR.handle ha hpos h₃
  have hstep₃ : (system env).step s₂ (.handle k) = some s₃ := h₃
  have hA : s₃.Accepting k e s₂.clock (.hit l .pending) := ⟨hle, hln, hsc⟩
  obtain ⟨p, hp, hA', hleft⟩ := hA.run hf (hreach₂.step trivial hstep₃)
    (mem_accepted_step h₃ hk₂) hh hrun
  exact ⟨p, hp, hleft, hA'.enabled env hp⟩

end Sys

namespace Demo

/-- The decay of whole half-lives. -/
def halving (ms : ℤ) : ℚ :=
  if 0 ≤ ms then (1 / 2) ^ (ms / 240000).toNat else 2 ^ ((-ms) / 240000).toNat

theorem fading_halving : Fading halving := by
  refine ⟨fun a b hab => ?_, by norm_num [halving], fun d => ?_⟩
  · unfold halving
    split
    · rename_i hb
      split
      · exact pow_le_pow_of_le_one (by norm_num) (by norm_num) (by omega)
      · exact (pow_le_one₀ (by norm_num) (by norm_num)).trans (one_le_pow₀ (by norm_num))
    · rename_i hb
      split
      · rename_i ha
        exact absurd (ha.trans hab) hb
      · exact pow_le_pow_right₀ (by norm_num) (by omega)
  · unfold halving
    split
    · positivity
    · positivity

/-- A deployment with challenges. -/
def guarded : Env := { env (some .mock) with halfPow := halving }

/-- A client joins, has four binary frames dropped, and sends a text: it is challenged. It answers,
and the answer is verified. -/
def verifying : List Label :=
  guest false ++ List.replicate 4 (.frame (conn 1) .binary)
    ++ receive (conn 1) (.send ⟨"a", "hello", none⟩) ++ turns (conn 1) 2
    ++ [.resume (.handler (conn 1)), .resume (.handler (conn 1))]
    ++ receive (conn 1) (.challengeResponse "token")
    ++ [.settle (.handler (conn 1)) .answered true]

/-- The text is sent again, with another client id. -/
def repeated : SendEvent := ⟨"b", "hello", some 185⟩

/-- Steps that do not interfere with the connection. -/
def idles (s : Sys) : Label → Bool
  | .clock _ => true
  | .settle _ _ _ => true
  | .frame _ raw => decide (raw ≠ .binary) && decide (s.queued (conn 1) < MAX_QUEUED_FRAMES)
  | .resume (.handler _) => (s.conn (conn 1)).handler.any fun h =>
      match h with
      | .challenge (.passed _ _) => true
      | _ => false
  | _ => false

theorem idles_spec {s : Sys} {l : Label} (h : idles s l = true) : ¬ s.Interferes l (conn 1) := by
  intro hi
  cases hi with
  | kicked hl => rw [hl] at h; cases h
  | renewed hl => rw [hl] at h; cases h
  | disturbs hd =>
      cases hd with
      | marks hm =>
          cases hm with
          | handle hl => rw [hl] at h; cases h
          | frame hl hq =>
              rw [hl] at h
              obtain ⟨hb, hlt⟩ := Bool.and_eq_true_iff.mp h
              rcases hq with hq | hq
              · exact of_decide_eq_true hb hq
              · exact absurd (of_decide_eq_true hlt) (not_lt.mpr hq)
          | @resume x hl hh hx =>
              rw [hl] at h
              simp only [idles, hh, Option.any_some] at h
              split at h
              · cases hx
              · cases h
          | failed hl hb => rw [hl] at h; cases h
      | shifts hs =>
          rcases hs with ⟨n, token, hl, hb⟩ | ⟨j, r, token, p, hl, hh⟩
          · rw [hl] at h
            cases h
          · rw [hl] at h
            simp only [idles, hh, Option.any_some] at h
            cases h
      | passes hl hh =>
          rw [hl] at h
          simp only [idles, hh, Option.any_some] at h
          cases h

/-- What `SendPc.Served` asks for. -/
def served : SendPc → Bool
  | .hit _ (.fulfilled n) => decide (n ≤ NETWORK_MSG_LIMIT)
  | .append _ _ _ p => decide (p ≠ .rejected)
  | .publish _ _ _ p => decide (p ≠ .rejected)
  | .reply _ _ => false
  | _ => true

theorem served_spec {p : SendPc} (h : served p = true) : p.Served := by
  cases p with
  | hit x q =>
      rintro n rfl
      exact of_decide_eq_true h
  | append x room m q => exact (of_decide_eq_true h : q ≠ .rejected)
  | publish x room m q => exact (of_decide_eq_true h : q ≠ .rejected)
  | reply e reply => cases h
  | _ => trivial

/-- What `Sys.Serves` asks for. -/
def serves (s : Sys) (l : Label) : Bool :=
  if l = .resume (.handler (conn 1)) then (s.conn (conn 1)).handler.any fun h =>
    match h with
    | .send p => served p
    | _ => false
  else idles s l

theorem serves_spec {s : Sys} {l : Label} (h : serves s l = true) : s.Serves (conn 1) l := by
  unfold serves at h
  unfold Sys.Serves
  split at h
  · rename_i hl
    rw [if_pos hl]
    intro p hp
    rw [hp] at h
    exact served_spec h
  · rename_i hl
    rw [if_neg hl]
    exact fun hd => idles_spec h (.disturbs hd)

/-- What `Sys.Prompt` asks for. -/
def prompts (s : Sys) : Bool :=
  match (s.conn (conn 1)).handler with
  | some (.send (.hit x _)) => decide (39 * halving (x.now - s.clock) < Thresholds.challenge)
  | some (.send (.dup x _)) => decide (39 * halving (x.now - s.clock) < Thresholds.challenge)
  | _ => true

theorem prompts_spec {s : Sys} {l : Label} (h : prompts s = true) :
    s.Prompt guarded (conn 1) l := by
  rintro - x ⟨p, hp | ⟨p, hp⟩⟩
  · unfold prompts at h
    rw [hp] at h
    exact of_decide_eq_true h
  · unfold prompts at h
    rw [hp] at h
    exact of_decide_eq_true h

/-- What `Sys.Verified` and the room of the session ask for. -/
def verified (s : Sys) : Bool :=
  match (s.conn (conn 1)).handler with
  | some (.challenge (.verify _ r _ (.fulfilled true))) =>
      decide ((s.conn (conn 1)).record = some r) &&
        ((s.conn (conn 1)).standing r.sid).challengePending && (s.conn (conn 1)).joined &&
        !(s.conn (conn 1)).closed && decide ((s.conn (conn 1)).blockedUntil ≤ s.clock) &&
        decide (r.roomId = (s.roomOf (conn 1)).roomId)
  | _ => false

theorem verified_spec {s : Sys} (h : verified s = true) :
    ∃ r now, s.Verified (conn 1) r now ∧ r.roomId = (s.roomOf (conn 1)).roomId := by
  unfold verified at h
  split at h
  · rename_i token r now hh
    simp only [Bool.and_eq_true, decide_eq_true_eq, Bool.not_eq_true'] at h
    obtain ⟨⟨⟨⟨⟨hr, hp⟩, hj⟩, hc⟩, hb⟩, hroom⟩ := h
    exact ⟨r, now, ⟨⟨token, hh⟩, hr, hp, hj, hc, hb⟩, hroom⟩
  · cases h

/-- What `Sys.Asks` asks for. -/
def asks (s : Sys) : Bool :=
  clears guarded s (conn 1) repeated && decide (repeated.day = some (s.roomOf (conn 1)).day)

theorem asks_spec {s : Sys} {r : SessionIdent} (h : asks s = true)
    (hr : (s.conn (conn 1)).record = some r) : s.Asks guarded (conn 1) r repeated := by
  obtain ⟨hc, hday⟩ := Bool.and_eq_true_iff.mp h
  have hc := clears_spec hc
  obtain ⟨r', hr', hroom, -⟩ := hc.session
  obtain rfl := Option.some.inj (hr.symm.trans hr')
  exact ⟨hc.queued, hc.up, hc.fresh, of_decide_eq_true hday, hc.text, hc.room, hroom⟩

/-- The challenge of `s` is passed, the pass is saved, the text is sent again, and its decision goes
through the steps `ls` to a state of which `P` holds. -/
def readmits (C : Sys → Label → Bool) (ls : List Label) (P : Sys → Bool) (s : Sys) : Bool :=
  verified s && (s.step guarded (.resume (.handler (conn 1)))).any fun t : Sys =>
    ((system guarded).execs idles t
      (turns (conn 1) 1 ++ [.frame (conn 1) (.event (.send repeated))])).any fun u : Sys =>
        asks u && decide ((u.conn (conn 1)).record = (s.conn (conn 1)).record) &&
          decide (0 ≤ u.clock) && (u.step guarded (.handle (conn 1))).any fun v =>
            ((system guarded).execs C v ls).any P

end Demo

namespace Sys

theorem readmits_spec {C : Sys → Label → Bool} {D : Sys → Label → Prop} {ls : List Label}
    {P : Sys → Bool} {s : Sys} (hC : ∀ s l, C s l = true → D s l)
    (h : Demo.readmits C ls P s = true) : ∃ (r : SessionIdent) (now : ℤ) (s₁ s₂ s₃ s₄ : Sys),
      s.Verified (Demo.conn 1) r now ∧ r.roomId = (s.roomOf (Demo.conn 1)).roomId ∧
      s.step Demo.guarded (.resume (.handler (Demo.conn 1))) = some s₁ ∧
      (∃ ls, (system Demo.guarded).Run (fun s l => ¬ s.Interferes l (Demo.conn 1)) s₁ ls s₂) ∧
      s₂.Asks Demo.guarded (Demo.conn 1) r Demo.repeated ∧ 0 ≤ s₂.clock ∧
      s₂.step Demo.guarded (.handle (Demo.conn 1)) = some s₃ ∧
      (system Demo.guarded).Run D s₃ ls s₄ ∧ P s₄ = true := by
  unfold Demo.readmits at h
  simp only [Bool.and_eq_true, Option.any_eq_true, decide_eq_true_eq] at h
  obtain ⟨hv, s₁, h₁, s₂, h₂, ⟨⟨ha, hr⟩, hpos⟩, s₃, h₃, s₄, h₄, hP⟩ := h
  obtain ⟨r, now, hv, hroom⟩ := Demo.verified_spec hv
  have hrest := Machine.run_of_execs (C := fun s l => ¬ s.Interferes l (Demo.conn 1))
    (fun _ _ => Demo.idles_spec) h₂
  have hrun := Machine.run_of_execs hC h₄
  exact ⟨r, now, s₁, s₂, s₃, s₄, hv, hroom, h₁, ⟨_, hrest⟩,
    Demo.asks_spec ha (hr.trans hv.record), hpos, h₃, hrun, hP⟩

/-- A client that passes its challenge and sends at once is acknowledged. -/
theorem passed_restores_hello : ∃ (s : Sys) (p : SendPc),
    (s.conn (Demo.conn 1)).handler = some (.send p) ∧
    ∃ m, p = .reply Demo.repeated (.ack "b" m) := by
  obtain ⟨s₀, h₀, hP⟩ := exists_reached_free Demo.guarded
    (Demo.readmits (fun s l => Demo.serves s l && Demo.prompts s)
      (Demo.turns (Demo.conn 1) 1 ++ [.resume (.handler (Demo.conn 1))] ++
        Demo.turns (Demo.conn 1) 2)
      fun s => (s.conn (Demo.conn 1)).handler.any fun h => (Handler.decision h).isSome)
    Demo.noon Demo.verifying (by decide +kernel)
  obtain ⟨r, now, s₁, s₂, s₃, s₄, hv, -, h₁, ⟨ls, hrest⟩, ha, hpos, h₃, hrun, hP⟩ :=
    readmits_spec (D := fun s l => s.Serves (Demo.conn 1) l ∧ s.Prompt Demo.guarded (Demo.conn 1) l)
      (fun s l h => ⟨Demo.serves_spec (Bool.and_eq_true_iff.mp h).1,
        Demo.prompts_spec (Bool.and_eq_true_iff.mp h).2⟩) hP
  obtain ⟨p, hp, -, hm⟩ := passed_restores Demo.fading_halving h₀ hv h₁ hrest ha hpos h₃ hrun
  refine ⟨s₄, p, hp, ?_⟩
  rcases hm with hm | ⟨hleft, -⟩
  · exact hm
  · rw [hp] at hP
    obtain ⟨d, hd⟩ := Option.isSome_iff_exists.mp hP
    rw [show p = .reply d.1 d.2 by have := Handler.eq_of_decision hd; cases this; rfl] at hleft
    exact absurd hleft (lt_irrefl 0)

/-- Without the condition: the client passes its challenge and sends the text it sent before, within
400 ms of its join; the store answers twenty minutes later. The 4.5 points of the send, read five
half-lives before they were added, are 144: the client is challenged again. -/
theorem passed_restores_late : ∃ (s₀ s₁ s₂ s₃ s₄ : Sys) (r : SessionIdent) (now : ℤ),
    (system Demo.guarded).Reaches Free s₀ ∧ s₀.Verified (Demo.conn 1) r now ∧
    r.roomId = (s₀.roomOf (Demo.conn 1)).roomId ∧
    s₀.step Demo.guarded (.resume (.handler (Demo.conn 1))) = some s₁ ∧
    (∃ ls, (system Demo.guarded).Run (fun s l => ¬ s.Interferes l (Demo.conn 1)) s₁ ls s₂) ∧
    s₂.Asks Demo.guarded (Demo.conn 1) r Demo.repeated ∧ 0 ≤ s₂.clock ∧
    s₂.step Demo.guarded (.handle (Demo.conn 1)) = some s₃ ∧
    (∃ ls, (system Demo.guarded).Run (fun s l => s.Serves (Demo.conn 1) l) s₃ ls s₄) ∧
    (Demo.guarded.roomAt s₄.clock).roomId = (Demo.guarded.roomAt s₀.clock).roomId ∧
    (s₄.conn (Demo.conn 1)).handler =
      some (.send (.reply Demo.repeated (.reject "b" .challengeRequired none))) := by
  obtain ⟨s₀, h₀, hP⟩ := exists_reached_free Demo.guarded
    (fun s₀ => Demo.readmits Demo.serves
      (.clock (Demo.noon + 1200000) :: Demo.turns (Demo.conn 1) 2 ++
        [.resume (.handler (Demo.conn 1))])
      (fun s => decide ((Demo.guarded.roomAt s.clock).roomId =
        (Demo.guarded.roomAt s₀.clock).roomId) && decide ((s.conn (Demo.conn 1)).handler =
          some (.send (.reply Demo.repeated (.reject "b" .challengeRequired none))))) s₀)
    Demo.noon Demo.verifying (by decide +kernel)
  obtain ⟨r, now, s₁, s₂, s₃, s₄, hv, hroom, h₁, hrest, ha, hpos, h₃, hrun, hP⟩ :=
    readmits_spec (D := fun s l => s.Serves (Demo.conn 1) l) (fun s l => Demo.serves_spec) hP
  obtain ⟨hday, hh⟩ := Bool.and_eq_true_iff.mp hP
  refine ⟨s₀, s₁, s₂, s₃, s₄, r, now, h₀, hv, hroom, h₁, hrest, ha, hpos, h₃, ⟨_, hrun⟩,
    of_decide_eq_true hday, of_decide_eq_true hh⟩

end Sys

end RoomBackend
