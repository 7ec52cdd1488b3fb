import RoomBackend.Buckets
import Mathlib.Order.Interval.Finset.Nat

/-! # The arrival curve of a token bucket

Without rounding, a bucket that starts full lets through exactly the requests that fit under its
arrival curve: what has passed since any earlier request, and the request itself, must not exceed
the burst `capacity` and what has flowed in since then. The tokens before a request are the least
slack over all the windows that end with it (`level_le`, `exists_level_eq`). -/

namespace RoomBackend.RateLimit

namespace TokenBucket

/-- The bucket before request number `i`, when the requests are made at the instants `t`. -/
def before (b : TokenBucket) (t : ℕ → ℚ) : ℕ → TokenBucket
  | 0 => b
  | i + 1 => ((b.before t i).take .exact (t i) 1).2

/-- Request number `i` is let through. -/
def Accepts (b : TokenBucket) (t : ℕ → ℚ) (i : ℕ) : Prop :=
  ((b.before t i).take .exact (t i) 1).1 = 0

instance (b : TokenBucket) (t : ℕ → ℚ) : DecidablePred (b.Accepts t) :=
  fun _ => inferInstanceAs (Decidable (_ = _))

/-- How many of the requests `k`, …, `i - 1` were let through. -/
def accepted (b : TokenBucket) (t : ℕ → ℚ) (k i : ℕ) : ℕ :=
  ((Finset.Ico k i).filter (b.Accepts t)).card

/-- The tokens there are for request number `i`. -/
def level (b : TokenBucket) (t : ℕ → ℚ) (i : ℕ) : ℚ := (b.before t i).avail .exact (t i)

variable {b : TokenBucket} {t : ℕ → ℚ} {i k : ℕ}

theorem accepted_self (b : TokenBucket) (t : ℕ → ℚ) (i : ℕ) : b.accepted t i i = 0 := by
  unfold accepted
  rw [Finset.Ico_self, Finset.filter_empty, Finset.card_empty]

theorem accepted_succ (hk : k ≤ i) :
    b.accepted t k (i + 1) = b.accepted t k i + if b.Accepts t i then 1 else 0 := by
  unfold accepted
  rw [Nat.Ico_succ_right_eq_insert_Ico hk, Finset.filter_insert]
  split
  · rw [Finset.card_insert_of_notMem]
    simp
  · rfl

theorem before_capacity (b : TokenBucket) (t : ℕ → ℚ) (i : ℕ) :
    (b.before t i).capacity = b.capacity := by
  induction i with
  | zero => rfl
  | succ i ih => exact (take_capacity ..).trans ih

theorem before_refillPerSec (b : TokenBucket) (t : ℕ → ℚ) (i : ℕ) :
    (b.before t i).refillPerSec = b.refillPerSec := by
  induction i with
  | zero => rfl
  | succ i ih => exact (take_refillPerSec ..).trans ih

theorem accepts_iff (hr : 0 < b.refillPerSec) : b.Accepts t i ↔ 1 ≤ b.level t i := by
  unfold Accepts level
  apply take_eq_zero
  rwa [before_refillPerSec]

/-- What a request leaves, and what flows in until the next one. -/
theorem level_succ (hr : 0 < b.refillPerSec) (ht : t i ≤ t (i + 1)) :
    b.level t (i + 1) = min b.capacity
      (b.level t i - (if b.Accepts t i then 1 else 0) +
        b.refillPerSec * (t (i + 1) - t i) / 1000) := by
  have hlevel : b.level t (i + 1) = min (b.before t (i + 1)).capacity
      ((b.before t (i + 1)).tokens + max 0 (t (i + 1) - (b.before t (i + 1)).last) / 1000 *
        (b.before t (i + 1)).refillPerSec) := rfl
  have hlast : (b.before t (i + 1)).last = t i := take_last ..
  have htok : (b.before t (i + 1)).tokens = b.level t i - if b.Accepts t i then 1 else 0 := by
    rw [show (b.before t (i + 1)).tokens = _ from take_tokens .., if_congr (accepts_iff hr) rfl rfl]
    rfl
  rw [hlevel, before_capacity, before_refillPerSec, hlast, htok, max_eq_right (sub_nonneg.mpr ht)]
  congr 2
  ring

theorem level_zero (hfull : b.capacity ≤ b.tokens) (hr : 0 < b.refillPerSec) :
    b.level t 0 = b.capacity := by
  have he := mul_nonneg (elapsed_nonneg b (t 0)) hr.le
  have h : b.level t 0 = min b.capacity (b.tokens + max 0 (t 0 - b.last) / 1000 *
    b.refillPerSec) := rfl
  rw [h]
  exact min_eq_left (by linarith)

/-- No window that ends with a request has less slack than there are tokens. -/
theorem level_le (hfull : b.capacity ≤ b.tokens) (hr : 0 < b.refillPerSec) (ht : Monotone t)
    (hk : k ≤ i) :
    b.level t i ≤ b.capacity + b.refillPerSec * (t i - t k) / 1000 - b.accepted t k i := by
  induction i with
  | zero =>
      obtain rfl : k = 0 := by omega
      rw [level_zero hfull hr, accepted_self]
      simp
  | succ i ih =>
      rw [level_succ hr (ht (Nat.le_succ i))]
      rcases Nat.lt_or_ge i k with hlt | hle
      · -- the window of the request alone: the bucket is not fuller than full
        obtain rfl : k = i + 1 := by omega
        rw [accepted_self]
        refine (min_le_left _ _).trans (le_of_eq ?_)
        simp
      · have hslack := ih hle
        have hflow : b.refillPerSec * (t (i + 1) - t k) / 1000 =
            b.refillPerSec * (t i - t k) / 1000 + b.refillPerSec * (t (i + 1) - t i) / 1000 := by
          ring
        have hcount : (b.accepted t k (i + 1) : ℚ) =
            b.accepted t k i + if b.Accepts t i then 1 else 0 := by
          rw [accepted_succ hle]
          push_cast
          rfl
        refine (min_le_right _ _).trans ?_
        rw [hflow, hcount]
        linarith

/-- A window has no more slack than there are tokens: the one since the bucket was last full. -/
theorem exists_level_eq (hfull : b.capacity ≤ b.tokens) (hr : 0 < b.refillPerSec)
    (ht : Monotone t) (i : ℕ) : ∃ k ≤ i,
      b.level t i = b.capacity + b.refillPerSec * (t i - t k) / 1000 - b.accepted t k i := by
  induction i with
  | zero =>
      refine ⟨0, le_rfl, ?_⟩
      rw [level_zero hfull hr, accepted_self]
      simp
  | succ i ih =>
      obtain ⟨k, hk, he⟩ := ih
      rcases min_choice b.capacity (b.level t i - (if b.Accepts t i then 1 else 0) +
        b.refillPerSec * (t (i + 1) - t i) / 1000) with hmin | hmin
      · refine ⟨i + 1, le_rfl, ?_⟩
        rw [level_succ hr (ht (Nat.le_succ i)), hmin, accepted_self]
        simp
      · refine ⟨k, by omega, ?_⟩
        rw [level_succ hr (ht (Nat.le_succ i)), hmin, he, accepted_succ hk]
        push_cast
        ring

/-- A request that is turned away is let through after the least whole wait that is enough. -/
theorem isLeast_wait {b : TokenBucket} {now : ℚ} (hC : 1 ≤ b.capacity) (hr : 0 < b.refillPerSec)
    (h : (b.take .exact now 1).1 ≠ 0) :
    IsLeast {w : ℤ | 0 < w ∧ ((b.take .exact now 1).2.take .exact (now + w) 1).1 = 0}
      (b.take .exact now 1).1 := by
  have hlt : b.avail .exact now < 1 := not_le.mp fun hle => h ((take_eq_zero hr).mpr hle)
  have hrest : (b.take .exact now 1).2 = b.refill .exact now := by rw [take_of_lt hlt]
  have hwait : (b.take .exact now 1).1 = ⌈(1 - b.avail .exact now) / b.refillPerSec * 1000⌉ := by
    rw [take_of_lt hlt]
    rfl
  have hlater : ∀ w : ℤ, 0 < w → (((b.take .exact now 1).2.take .exact (now + w) 1).1 = 0 ↔
      (b.take .exact now 1).1 ≤ w) := by
    intro w hw
    have hw' : (0 : ℚ) < w := by exact_mod_cast hw
    have hr' : 0 < (b.refill .exact now).refillPerSec := hr
    rw [hrest, take_eq_zero hr', hwait, ceil_wait_le hr, avail_refill_add .exact b now hw'.le,
      le_min_iff]
    exact and_iff_right hC
  constructor
  · have hw := wait_pos hr hlt
    exact ⟨hw, (hlater _ hw).mpr le_rfl⟩
  · rintro w ⟨hw, he⟩
    exact (hlater w hw).mp he

/-- **The arrival curve.** A full bucket of at least one token lets a request through if and only
if for every earlier request (and itself) what has been let through since, and it, is at most the
capacity and what has flowed in since. A request that is turned away is told the least whole
number of milliseconds after which it is let through. -/
theorem accepts_iff_forall_le {capacity refillPerSec : ℚ} (hC : 1 ≤ capacity)
    (hr : 0 < refillPerSec) (t₀ : ℚ) {t : ℕ → ℚ} (ht : Monotone t) (i : ℕ) :
    ((new capacity refillPerSec t₀).Accepts t i ↔ ∀ k ≤ i,
      ((new capacity refillPerSec t₀).accepted t k i : ℚ) + 1 ≤
        capacity + refillPerSec * (t i - t k) / 1000) ∧
    (¬ (new capacity refillPerSec t₀).Accepts t i → IsLeast
      {w : ℤ | 0 < w ∧
        (((new capacity refillPerSec t₀).before t (i + 1)).take .exact (t i + w) 1).1 = 0}
      (((new capacity refillPerSec t₀).before t i).take .exact (t i) 1).1) := by
  generalize hb : new capacity refillPerSec t₀ = b
  obtain rfl : b.capacity = capacity := by rw [← hb]; rfl
  obtain rfl : b.refillPerSec = refillPerSec := by rw [← hb]; rfl
  have hfull : b.capacity ≤ b.tokens := by
    rw [← hb]
    exact le_rfl
  refine ⟨?_, fun h => ?_⟩
  · rw [accepts_iff hr]
    constructor
    · intro h k hk
      have := h.trans (level_le hfull hr ht hk)
      linarith
    · intro h
      obtain ⟨k, hk, he⟩ := exists_level_eq hfull hr ht i
      rw [he]
      linarith [h k hk]
  · refine isLeast_wait ?_ ?_ h
    · rwa [before_capacity]
    · rwa [before_refillPerSec]

/-- Three requests at once and one after 1.5 s, to a bucket of two tokens and one a second. -/
theorem accepts_third :
    ¬ (new 2 1 0).Accepts (fun i => if i < 3 then 0 else 1500) 2 ∧
      ((new 2 1 0).Accepts (fun i => if i < 3 then 0 else 1500) 3 ↔ ∀ k ≤ 3,
        ((new 2 1 0).accepted (fun i => if i < 3 then 0 else 1500) k 3 : ℚ) + 1 ≤
          2 + 1 * ((fun i => if i < 3 then 0 else 1500 : ℕ → ℚ) 3 -
            (fun i => if i < 3 then 0 else 1500 : ℕ → ℚ) k) / 1000) := by
  have ht : Monotone (fun i => if i < 3 then 0 else 1500 : ℕ → ℚ) := by
    intro i j hij
    dsimp only
    split
    · split <;> norm_num
    · rw [if_neg (by omega)]
  refine ⟨by decide +kernel, (accepts_iff_forall_le ?_ ?_ 0 ht 3).1⟩
  · norm_num
  · norm_num

end TokenBucket

end RoomBackend.RateLimit
