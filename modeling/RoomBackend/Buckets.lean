import RoomBackend.RateLimit
import Mathlib.Tactic.GCongr

/-! # What a token bucket lets through

`avail r b now` is what the bucket would hold at an instant. It falls by one with each token that
is taken, and does not grow when the limits are changed at that instant. With time it grows by at
most a token a second, but for what rounding adds. -/

namespace RoomBackend.RateLimit

theorem Tier.capacity_le (t : Tier) : t.capacity ≤ 10 := by
  cases t <;> norm_num [capacity]

theorem Tier.capacity_nonneg (t : Tier) : 0 ≤ t.capacity := by
  cases t <;> norm_num [capacity]

theorem Tier.refillPerSec_pos (t : Tier) : 0 < t.refillPerSec := by
  cases t <;> norm_num [refillPerSec]

theorem Tier.refillPerSec_le (t : Tier) : t.refillPerSec ≤ 1 := by
  cases t <;> norm_num [refillPerSec]

/-- The capacities are whole numbers. -/
theorem Tier.round_capacity (r : Rounding) (t : Tier) : r t.capacity = t.capacity := by
  cases t with
  | normal => exact_mod_cast r.natCast 10 (by norm_num)
  | throttled => exact_mod_cast r.natCast 5 (by norm_num)
  | restricted => exact_mod_cast r.natCast 2 (by norm_num)

namespace TokenBucket

variable {r : Rounding} {b b' : TokenBucket} {now now' : ℚ}

/-- The tokens of the bucket at an instant. -/
def avail (r : Rounding) (b : TokenBucket) (now : ℚ) : ℚ := (b.refill r now).tokens

/-- A bucket with the limits of a tier; its tokens are a number of the machine. -/
structure Sound (r : Rounding) (b : TokenBucket) : Prop where
  cap : b.capacity ≤ 10
  whole : r b.capacity = b.capacity
  rate_pos : 0 < b.refillPerSec
  rate : b.refillPerSec ≤ 1
  nonneg : 0 ≤ b.tokens
  full : b.tokens ≤ b.capacity
  held : r b.tokens = b.tokens

/-- The tokens that flow in up to an instant. -/
theorem elapsed_nonneg (b : TokenBucket) (now : ℚ) :
    0 ≤ max 0 (now - b.last) / 1000 := by
  have h : 0 ≤ max 0 (now - b.last) := le_max_left _ _
  positivity

theorem flow_nonneg (h : b.Sound r) (now : ℚ) :
    0 ≤ r (r (max 0 (now - b.last) / 1000) * r b.refillPerSec) :=
  r.nonneg (mul_nonneg (r.nonneg (elapsed_nonneg b now)) (r.nonneg h.rate_pos.le))

theorem tokens_le_avail (h : b.Sound r) : b.tokens ≤ b.avail r now := by
  refine le_min h.full ?_
  calc b.tokens = r b.tokens := h.held.symm
    _ ≤ _ := r.mono _ _ h.nonneg (le_add_of_nonneg_right (flow_nonneg h now))

theorem avail_nonneg (h : b.Sound r) : 0 ≤ b.avail r now := h.nonneg.trans (tokens_le_avail h)

theorem avail_le (h : b.Sound r) : b.avail r now ≤ 10 := (min_le_left _ _).trans h.cap

/-- The tokens at an instant are a number of the machine. -/
theorem round_avail (h : b.Sound r) : r (b.avail r now) = b.avail r now := by
  unfold avail refill
  dsimp only
  rcases min_choice b.capacity
    (r (b.tokens + r (r (max 0 (now - b.last) / 1000) * r b.refillPerSec))) with he | he
  · rw [he, h.whole]
  · rw [he, r.idem _ (add_nonneg h.nonneg (flow_nonneg h now))]

theorem Sound.refill (h : b.Sound r) (now : ℚ) : (b.refill r now).Sound r :=
  ⟨h.cap, h.whole, h.rate_pos, h.rate, avail_nonneg h, min_le_left _ _, round_avail h⟩

theorem Sound.reconfigure (h : b.Sound r) (t : Tier) (now : ℚ) :
    (b.reconfigure r t.capacity t.refillPerSec now).Sound r := by
  refine ⟨t.capacity_le, t.round_capacity r, t.refillPerSec_pos, t.refillPerSec_le,
    le_min (h.refill now).nonneg t.capacity_nonneg, min_le_right _ _, ?_⟩
  unfold TokenBucket.reconfigure
  dsimp only
  rcases min_choice (b.refill r now).tokens t.capacity with he | he
  · rw [he, (h.refill now).held]
  · rw [he, t.round_capacity]

theorem sound_new (r : Rounding) (t : Tier) (now : ℚ) :
    (new t.capacity t.refillPerSec now).Sound r :=
  ⟨t.capacity_le, t.round_capacity r, t.refillPerSec_pos, t.refillPerSec_le, t.capacity_nonneg,
    le_rfl, t.round_capacity r⟩

/-- A bucket whose last use is this instant holds its tokens. -/
theorem avail_last (h : b.Sound r) : b.avail r b.last = b.tokens := by
  unfold avail TokenBucket.refill
  simp [h.full, h.held]

/-- `b'` comes from `b` without letting more through at `now`. -/
structure Slows (r : Rounding) (now : ℚ) (b b' : TokenBucket) : Prop where
  sound : b.Sound r → b'.Sound r
  avail : b.Sound r → b'.avail r now ≤ b.avail r now

theorem Slows.refl (r : Rounding) (now : ℚ) (b : TokenBucket) : Slows r now b b :=
  ⟨id, fun _ => le_rfl⟩

theorem Slows.trans {b'' : TokenBucket} (h : Slows r now b b') (h' : Slows r now b' b'') :
    Slows r now b b'' :=
  ⟨fun hs => h'.sound (h.sound hs), fun hs => (h'.avail (h.sound hs)).trans (h.avail hs)⟩

theorem slows_of_eq (h : b' = b) : Slows r now b b' := h ▸ .refl _ _ _

theorem slows_reconfigure (r : Rounding) (b : TokenBucket) (t : Tier) :
    Slows r now b (b.reconfigure r t.capacity t.refillPerSec now) := by
  refine ⟨fun h => h.reconfigure t now, fun h => ?_⟩
  exact (avail_last (h.reconfigure t now)).le.trans (min_le_left _ _)

/-- A token less. -/
theorem Sound.spend (h : b.Sound r) (hc : 1 ≤ b.tokens) :
    ({ b with tokens := r (b.tokens - 1) } : TokenBucket).Sound r := by
  have hnn : 0 ≤ b.tokens - 1 := sub_nonneg.mpr hc
  refine ⟨h.cap, h.whole, h.rate_pos, h.rate, r.nonneg hnn, ?_, r.idem _ hnn⟩
  calc r (b.tokens - 1) ≤ r b.tokens := r.mono _ _ hnn (sub_le_self _ zero_le_one)
    _ = b.tokens := h.held
    _ ≤ b.capacity := h.full

/-- A token is taken, or nothing is. -/
theorem slows_take (r : Rounding) (b : TokenBucket) : Slows r now b (b.take r now 1).2 := by
  unfold take
  dsimp only
  split
  · rename_i hc
    refine ⟨fun h => (h.refill now).spend hc, fun h => ?_⟩
    have hf := h.refill now
    calc _ = r ((b.refill r now).tokens - 1) := avail_last (hf.spend hc)
      _ ≤ r (b.refill r now).tokens :=
        r.mono _ _ (sub_nonneg.mpr hc) (sub_le_self _ zero_le_one)
      _ = (b.refill r now).tokens := hf.held
  · exact ⟨fun h => h.refill now, fun h => (avail_last (h.refill now)).le⟩

/-! ### What `take` does -/

theorem take_allowed (h : 1 ≤ b.avail r now) :
    b.take r now 1 = (0, { b.refill r now with tokens := r (b.avail r now - 1) }) := if_pos h

theorem take_of_lt (h : b.avail r now < 1) : b.take r now 1 =
    (⌈r (r (r (1 - b.avail r now) / r b.refillPerSec) * 1000)⌉, b.refill r now) :=
  if_neg (not_le.mpr h)

/-- A message that is not allowed waits a millisecond at least. -/
theorem wait_pos (hr : 0 < b.refillPerSec) (h : b.avail r now < 1) :
    0 < (b.take r now 1).1 := by
  have hgap : 0 < r (1 - b.avail r now) := r.pos _ (sub_pos.mpr h)
  have hwait : 0 < r (r (1 - b.avail r now) / r b.refillPerSec) :=
    r.pos _ (div_pos hgap (r.pos _ hr))
  rw [take_of_lt h]
  exact Int.ceil_pos.mpr (r.pos _ (mul_pos hwait (by norm_num)))

theorem take_eq_zero (hr : 0 < b.refillPerSec) :
    (b.take r now 1).1 = 0 ↔ 1 ≤ b.avail r now := by
  constructor
  · intro h
    by_contra hlt
    have := wait_pos hr (not_le.mp hlt)
    omega
  · intro h
    rw [take_allowed h]

theorem take_capacity (r : Rounding) (b : TokenBucket) (now : ℚ) :
    (b.take r now 1).2.capacity = b.capacity := by
  unfold take
  dsimp only
  split <;> rfl

theorem take_refillPerSec (r : Rounding) (b : TokenBucket) (now : ℚ) :
    (b.take r now 1).2.refillPerSec = b.refillPerSec := by
  unfold take
  dsimp only
  split <;> rfl

theorem take_last (r : Rounding) (b : TokenBucket) (now : ℚ) : (b.take r now 1).2.last = now := by
  unfold take
  dsimp only
  split <;> rfl

/-- What flows in after a refill. -/
theorem avail_refill_add (r : Rounding) (b : TokenBucket) (now : ℚ) {w : ℚ} (hw : 0 ≤ w) :
    (b.refill r now).avail r (now + w) =
      min b.capacity (r (b.avail r now + r (r (w / 1000) * r b.refillPerSec))) := by
  have hmax : max 0 (now + w - now) = w := by
    rw [add_sub_cancel_left]
    exact max_eq_right hw
  show min b.capacity (r (b.avail r now +
    r (r (max 0 (now + w - now) / 1000) * r b.refillPerSec))) = _
  rw [hmax]

/-! ### Without rounding -/

/-- At most a token flows in each second. -/
theorem exact_later (h : b.Sound .exact) (hle : now ≤ now') :
    b.avail .exact now' ≤ b.avail .exact now + (now' - now) / 1000 := by
  have hd : 0 ≤ (now' - now) / 1000 := by
    have := sub_nonneg.mpr hle
    positivity
  have hmul : (now' - now) / 1000 * b.refillPerSec ≤ (now' - now) / 1000 :=
    mul_le_of_le_one_right hd h.rate
  have hmax : max 0 (now' - b.last) ≤ max 0 (now - b.last) + (now' - now) := by
    rcases max_cases 0 (now' - b.last) with ⟨he, -⟩ | ⟨he, -⟩
    · linarith [le_max_left 0 (now - b.last)]
    · linarith [le_max_right 0 (now - b.last)]
  have hin : max 0 (now' - b.last) / 1000 * b.refillPerSec ≤
      max 0 (now - b.last) / 1000 * b.refillPerSec + (now' - now) / 1000 * b.refillPerSec := by
    rw [← add_mul, ← add_div]
    have hr := h.rate_pos.le
    gcongr
  unfold avail TokenBucket.refill
  simp only [Rounding.exact_apply]
  rcases min_cases b.capacity (b.tokens + max 0 (now - b.last) / 1000 * b.refillPerSec) with
    ⟨he, -⟩ | ⟨he, -⟩
  · rw [he]
    exact (min_le_left _ _).trans (by linarith)
  · rw [he]
    exact (min_le_right _ _).trans (by linarith)

/-- How long it takes until there is a token. -/
theorem ceil_wait_le {a rate : ℚ} (hr : 0 < rate) (w : ℤ) :
    ⌈(1 - a) / rate * 1000⌉ ≤ w ↔ 1 ≤ a + w / 1000 * rate := by
  have h : (1 - a) / rate * 1000 = (1 - a) * 1000 / rate := by ring
  rw [Int.ceil_le, h, div_le_iff₀ hr]
  constructor
  · intro h
    linarith
  · intro h
    linarith

theorem take_tokens (b : TokenBucket) (now : ℚ) : (b.take .exact now 1).2.tokens =
    b.avail .exact now - if 1 ≤ b.avail .exact now then 1 else 0 := by
  by_cases h : 1 ≤ b.avail .exact now
  · rw [take_allowed h, if_pos h, Rounding.exact_apply]
  · rw [take_of_lt (not_le.mp h), if_neg h, sub_zero]
    rfl

/-! ### What rounding adds -/

theorem Sound.exact (h : b.Sound r) : b.Sound .exact :=
  ⟨h.cap, rfl, h.rate_pos, h.rate, h.nonneg, h.full, rfl⟩

/-- The four operations of a refill are rounded. -/
theorem avail_near (h : b.Sound r) :
    Rounding.Near (r.grow ^ 4) (b.avail .exact now) (b.avail r now) := by
  have hflow : Rounding.Near (r.grow ^ 3) (max 0 (now - b.last) / 1000 * b.refillPerSec)
      (r (r (max 0 (now - b.last) / 1000) * r b.refillPerSec)) := by
    have helapsed := r.near_round (elapsed_nonneg b now)
    have hrate := r.near_round h.rate_pos.le
    rw [show r.grow ^ 3 = r.grow * r.grow * r.grow by ring]
    exact (helapsed.mul hrate).round r
  have hsum : Rounding.Near (r.grow ^ 4)
      (b.tokens + max 0 (now - b.last) / 1000 * b.refillPerSec)
      (r (b.tokens + r (r (max 0 (now - b.last) / 1000) * r b.refillPerSec))) := by
    rw [pow_succ r.grow 3]
    exact ((Rounding.near_self hflow.one_le h.nonneg).add hflow).round r
  exact (Rounding.near_self hsum.one_le (h.nonneg.trans h.full)).min hsum

/-- The tokens that rounding may add to a bucket in a millisecond. -/
def drift (r : Rounding) : ℚ := 20 * (r.grow ^ 4 - 1)

@[simp] theorem drift_exact : drift .exact = 0 := by
  rw [drift, Rounding.grow_exact]
  norm_num

theorem drift_nonneg (r : Rounding) : 0 ≤ drift r := by
  have h : 1 ≤ r.grow ^ 4 := one_le_pow₀ r.one_le_grow
  unfold drift
  linarith

theorem mul_grow_le {x : ℚ} (r : Rounding) (hx : x ≤ 10) :
    x * r.grow ^ 4 ≤ x + drift r / 2 := by
  have hg : 0 ≤ r.grow ^ 4 - 1 := sub_nonneg.mpr (one_le_pow₀ r.one_le_grow)
  have hmul := mul_le_mul_of_nonneg_right hx hg
  unfold drift
  linarith

/-- What a millisecond brings at most: a token a second, and what rounding adds. -/
def inflow (r : Rounding) : ℚ := 1 / 1000 + drift r

theorem inflow_nonneg (r : Rounding) : 0 ≤ inflow r :=
  add_nonneg (by norm_num) (drift_nonneg r)

theorem avail_later (h : b.Sound r) (hle : now + 1 ≤ now') :
    b.avail r now' ≤ b.avail r now + (now' - now) * inflow r := by
  have hnow : now ≤ now' := (le_add_of_nonneg_right zero_le_one).trans hle
  have hup := (@avail_near r b now' h).le.trans (mul_grow_le r (avail_le h.exact))
  have hdown := (@avail_near r b now h).ge.trans (mul_grow_le r (avail_le h))
  have hexact := exact_later h.exact hnow
  have hdrift : drift r ≤ (now' - now) * drift r :=
    le_mul_of_one_le_left (drift_nonneg r) (by linarith)
  unfold inflow
  linarith

/-- A `take` that allows the message takes a token. -/
theorem avail_take {b₀ : TokenBucket} (hb : Slows r now b₀ b) (h : b₀.Sound r)
    (hz : ¬ (b.take r now 1).1 > 0) :
    (b.take r now 1).2.avail r now + 1 ≤ b₀.avail r now := by
  have hs := hb.sound h
  have hc : 1 ≤ b.avail r now := not_lt.mp fun hlt => hz (wait_pos hs.rate_pos hlt)
  have hlt : b.avail r now < 2 ^ 53 := lt_of_le_of_lt (avail_le hs) (by norm_num)
  have hspent : (b.take r now 1).2.avail r now = b.avail r now - 1 := by
    rw [take_allowed hc]
    exact (avail_last ((hs.refill now).spend hc)).trans (r.sub_one _ hc hlt (round_avail hs))
  rw [hspent, sub_add_cancel]
  exact hb.avail h

end TokenBucket

end RoomBackend.RateLimit
