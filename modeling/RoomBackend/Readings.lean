import RoomBackend.Buckets
import Mathlib.Algebra.Order.Archimedean.Basic
import Mathlib.Tactic.FieldSimp

/-! # A token bucket whose clock may step back (`abuse/rate-limit.ts`)

Between a reading and an earlier one `refill` counts no time, but it moves `last` back, and the
time from there on is counted again. What a bucket lets through, without rounding, is bounded by
the forward moves of its clock, and by nothing less. -/

namespace RoomBackend.RateLimit

/-! ### Readings of a clock -/

/-- The newest instant among the readings and the start. -/
def newest (t₀ : ℚ) (ts : List ℚ) : ℚ := ts.foldr max t₀

/-- The forward moves of a clock that stands at `t` and then reads `ts`. -/
def forwardFrom : ℚ → List ℚ → ℚ
  | _, [] => 0
  | t, t' :: ts => max 0 (t' - t) + forwardFrom t' ts

/-- The forward moves between the readings. -/
def forward : List ℚ → ℚ
  | [] => 0
  | t :: ts => forwardFrom t ts

theorem start_le_newest (t₀ : ℚ) (ts : List ℚ) : t₀ ≤ newest t₀ ts := by
  induction ts with
  | nil => exact le_rfl
  | cons t ts ih => exact ih.trans (le_max_right _ _)

theorem newest_le_max (t t' : ℚ) (ts : List ℚ) : newest t' ts ≤ max t' (newest t ts) := by
  induction ts with
  | nil => exact le_max_left _ _
  | cons s ts ih =>
    show max s (newest t' ts) ≤ max t' (max s (newest t ts))
    refine max_le ((le_max_left _ _).trans (le_max_right _ _)) (ih.trans ?_)
    exact max_le_max le_rfl (le_max_right _ _)

theorem forwardFrom_nonneg (t : ℚ) (ts : List ℚ) : 0 ≤ forwardFrom t ts := by
  induction ts generalizing t with
  | nil => exact le_rfl
  | cons t' ts ih => exact add_nonneg (le_max_left _ _) (ih t')

theorem forward_nonneg (ts : List ℚ) : 0 ≤ forward ts := by
  cases ts with
  | nil => exact le_rfl
  | cons t ts => exact forwardFrom_nonneg t ts

/-- A clock that only moves forward moves from its first reading to its newest. -/
theorem forwardFrom_of_isChain {t : ℚ} {ts : List ℚ} (h : List.IsChain (· ≤ ·) (t :: ts)) :
    forwardFrom t ts ≤ newest t ts - t := by
  induction ts generalizing t with
  | nil => simp [forwardFrom, newest]
  | cons t' ts ih =>
    obtain ⟨hle, hrest⟩ := List.isChain_cons_cons.mp h
    have htail := ih hrest
    have hmax : max 0 (t' - t) = t' - t := max_eq_right (sub_nonneg.mpr hle)
    have hnew : newest t' ts ≤ newest t (t' :: ts) := newest_le_max t t' ts
    rw [forwardFrom, hmax]
    linarith

/-! ### Runs -/

/-- A call on a bucket; `take` asks for one token. -/
inductive Op where
  | take
  | reconfigure (capacity refillPerSec : ℚ)

/-- The calls made at one reading of the clock. -/
structure Visit where
  reading : ℚ
  ops : List Op
  ops_ne : ops ≠ []

/-- A bucket and the number of takes it has accepted. -/
structure Tally where
  bucket : TokenBucket
  accepted : ℕ

/-- A take that finds a token is accepted (`TokenBucket.take_eq_zero`: it answers `0`). -/
def Op.run (now : ℚ) (s : Tally) : Op → Tally
  | take =>
    { bucket := (s.bucket.take .exact now 1).2
      accepted := s.accepted + if 1 ≤ s.bucket.avail .exact now then 1 else 0 }
  | reconfigure capacity refillPerSec =>
    { s with bucket := s.bucket.reconfigure .exact capacity refillPerSec now }

def Visit.run (s : Tally) (v : Visit) : Tally := v.ops.foldl (Op.run v.reading) s

/-- A new bucket and the visits made to it. -/
def tally (capacity refillPerSec t₀ : ℚ) (visits : List Visit) : Tally :=
  visits.foldl Visit.run { bucket := .new capacity refillPerSec t₀, accepted := 0 }

/-- No limit is set above `C` tokens and `r` tokens a second. -/
def Op.Within (C r : ℚ) : Op → Prop
  | take => True
  | reconfigure capacity refillPerSec => capacity ≤ C ∧ refillPerSec ≤ r

/-- What the limits promise of every use of the readings `ts`. -/
def Bounded (t₀ : ℚ) (ts : List ℚ) : Prop :=
  ∀ (C r capacity refillPerSec : ℚ) (visits : List Visit),
    0 ≤ C → 0 ≤ r → capacity ≤ C → refillPerSec ≤ r → visits.map Visit.reading = ts →
    (∀ v ∈ visits, ∀ op ∈ v.ops, op.Within C r) →
    ((tally capacity refillPerSec t₀ visits).accepted : ℚ) ≤ C + r * (newest t₀ ts - t₀) / 1000

/-! ### What is let through -/

section upper
variable {C r F t now : ℚ} {s : Tally}

/-- What a reading finds, when `F` is the time that has been counted. -/
structure Entering (C r F now : ℚ) (s : Tally) : Prop where
  cap : s.bucket.capacity ≤ C
  rate : s.bucket.refillPerSec ≤ r
  avail : s.bucket.avail .exact now + s.accepted ≤ C + r * F / 1000
  accepted : (s.accepted : ℚ) ≤ C + r * F / 1000

/-- What a reading leaves. -/
structure Settled (C r F t : ℚ) (s : Tally) : Prop where
  last : s.bucket.last = t
  cap : s.bucket.capacity ≤ C
  rate : s.bucket.refillPerSec ≤ r
  tokens : s.bucket.tokens + s.accepted ≤ C + r * F / 1000
  accepted : (s.accepted : ℚ) ≤ C + r * F / 1000

/-- The next reading counts the time to it, if it is later. -/
theorem Settled.entering (h : Settled C r F t s) (hr : 0 ≤ r) (now : ℚ) :
    Entering C r (F + max 0 (now - t)) now s := by
  have hm : 0 ≤ max 0 (now - t) := le_max_left _ _
  have hin : max 0 (now - t) / 1000 * s.bucket.refillPerSec ≤ max 0 (now - t) / 1000 * r :=
    mul_le_mul_of_nonneg_left h.rate (by positivity)
  have havail : s.bucket.avail .exact now ≤
      s.bucket.tokens + max 0 (now - t) / 1000 * s.bucket.refillPerSec := by
    rw [← h.last]
    exact min_le_right _ _
  have hgrow : C + r * (F + max 0 (now - t)) / 1000 =
      C + r * F / 1000 + max 0 (now - t) / 1000 * r := by ring
  have hnn : 0 ≤ max 0 (now - t) / 1000 * r := by positivity
  refine ⟨h.cap, h.rate, ?_, ?_⟩
  · linarith [h.tokens]
  · linarith [h.accepted]

/-- The same reading counts nothing more. -/
theorem Settled.again (h : Settled C r F now s) (hr : 0 ≤ r) : Entering C r F now s := by
  have h' := h.entering hr now
  rwa [sub_self, max_self, add_zero] at h'

theorem Entering.run (h : Entering C r F now s) {op : Op} (hop : op.Within C r) :
    Settled C r F now (op.run now s) := by
  cases op with
  | reconfigure capacity refillPerSec =>
    have htok : (s.bucket.reconfigure .exact capacity refillPerSec now).tokens ≤
        s.bucket.avail .exact now := min_le_left _ _
    refine ⟨rfl, hop.1, hop.2, ?_, h.accepted⟩
    exact (add_le_add_left htok _).trans h.avail
  | take =>
    refine ⟨TokenBucket.take_last _ _ _, ?_, ?_, ?_, ?_⟩
    · exact (TokenBucket.take_capacity _ _ _).le.trans h.cap
    · exact (TokenBucket.take_refillPerSec _ _ _).le.trans h.rate
    · show (s.bucket.take .exact now 1).2.tokens + ((s.accepted + _ : ℕ) : ℚ) ≤ _
      rw [TokenBucket.take_tokens]
      have := h.avail
      split
      · push_cast
        linarith
      · push_cast
        linarith
    · show ((s.accepted + _ : ℕ) : ℚ) ≤ _
      have := h.avail
      split
      · push_cast
        linarith
      · exact h.accepted

theorem Settled.ops (h : Settled C r F now s) (hr : 0 ≤ r) {ops : List Op}
    (hops : ∀ op ∈ ops, op.Within C r) : Settled C r F now (ops.foldl (Op.run now) s) := by
  induction ops generalizing s with
  | nil => exact h
  | cons op ops ih =>
    refine ih ((h.again hr).run (hops op (by simp))) fun op' hop' => hops op' ?_
    exact List.mem_cons_of_mem _ hop'

theorem Entering.visit {v : Visit} (h : Entering C r F v.reading s) (hr : 0 ≤ r)
    (hops : ∀ op ∈ v.ops, op.Within C r) : Settled C r F v.reading (v.run s) := by
  obtain ⟨op, ops, he⟩ := List.exists_cons_of_ne_nil v.ops_ne
  unfold Visit.run
  rw [he] at hops ⊢
  refine ((h.run (hops op (by simp))).ops hr fun op' hop' => hops op' ?_)
  exact List.mem_cons_of_mem _ hop'

theorem Settled.visits (h : Settled C r F t s) (hr : 0 ≤ r) {visits : List Visit}
    (hops : ∀ v ∈ visits, ∀ op ∈ v.ops, op.Within C r) :
    ((visits.foldl Visit.run s).accepted : ℚ) ≤
      C + r * (F + forwardFrom t (visits.map Visit.reading)) / 1000 := by
  induction visits generalizing s t F with
  | nil =>
    show (s.accepted : ℚ) ≤ C + r * (F + 0) / 1000
    rw [add_zero]
    exact h.accepted
  | cons v visits ih =>
    have hv := (h.entering hr v.reading).visit hr (hops v (by simp))
    have hrest := ih hv fun v' hv' => hops v' (List.mem_cons_of_mem _ hv')
    rw [add_assoc] at hrest
    exact hrest

/-- The forward moves bound what is let through. The time up to the first reading is lost: the
bucket is full. -/
theorem accepted_le_forward {capacity refillPerSec t₀ : ℚ} {visits : List Visit} (hC : 0 ≤ C)
    (hr : 0 ≤ r) (hcap : capacity ≤ C) (hrate : refillPerSec ≤ r)
    (hops : ∀ v ∈ visits, ∀ op ∈ v.ops, op.Within C r) :
    ((tally capacity refillPerSec t₀ visits).accepted : ℚ) ≤
      C + r * forward (visits.map Visit.reading) / 1000 := by
  cases visits with
  | nil => simpa [tally, forward] using hC
  | cons v visits =>
    have hfull : Entering C r 0 v.reading ⟨.new capacity refillPerSec t₀, 0⟩ := by
      have havail : (TokenBucket.new capacity refillPerSec t₀).avail .exact v.reading ≤ capacity :=
        min_le_left _ _
      refine ⟨hcap, hrate, ?_, ?_⟩
      · simpa using havail.trans hcap
      · simpa using hC
    have hv := hfull.visit hr (hops v (by simp))
    have hrest := hv.visits hr fun v' hv' => hops v' (List.mem_cons_of_mem _ hv')
    rw [zero_add] at hrest
    exact hrest

end upper

/-! ### What can be let through -/

section flood
variable {K r F t now : ℚ} {n : ℕ} {s : Tally}

/-- A reading at which `n + 1` takes are made. -/
def flood (n : ℕ) (now : ℚ) : Visit :=
  { reading := now, ops := List.replicate (n + 1) .take, ops_ne := by simp }

/-- A bucket of `K` tokens after `i` takes at one reading. -/
structure Giving (K r F now : ℚ) (i : ℕ) (s : Tally) : Prop where
  last : s.bucket.last = now
  cap : s.bucket.capacity = K
  rate : s.bucket.refillPerSec = r
  full : s.bucket.tokens ≤ K
  low : s.bucket.tokens < 1 ∨ s.bucket.tokens ≤ K - i
  tokens : s.bucket.tokens + s.accepted = K + r * F / 1000

/-- A bucket that has given all it had. -/
structure Drained (K r F t : ℚ) (s : Tally) : Prop where
  last : s.bucket.last = t
  cap : s.bucket.capacity = K
  rate : s.bucket.refillPerSec = r
  low : s.bucket.tokens < 1
  tokens : s.bucket.tokens + s.accepted = K + r * F / 1000

/-- A take gives what it finds. -/
theorem giving_of_avail (hcap : s.bucket.capacity = K) (hrate : s.bucket.refillPerSec = r)
    (hlow : s.bucket.avail .exact now < 1 ∨ s.bucket.avail .exact now ≤ K - n)
    (htok : s.bucket.avail .exact now + s.accepted = K + r * F / 1000) :
    Giving K r F now (n + 1) (Op.take.run now s) := by
  have hle : s.bucket.avail .exact now ≤ K := hcap ▸ min_le_left _ _
  have htake := TokenBucket.take_tokens s.bucket now
  refine ⟨TokenBucket.take_last _ _ _, (TokenBucket.take_capacity _ _ _).trans hcap,
    (TokenBucket.take_refillPerSec _ _ _).trans hrate, ?_, ?_, ?_⟩
  · show (s.bucket.take .exact now 1).2.tokens ≤ K
    rw [htake]
    split <;> linarith
  · show (s.bucket.take .exact now 1).2.tokens < 1 ∨
      (s.bucket.take .exact now 1).2.tokens ≤ K - (n + 1 : ℕ)
    rw [htake]
    by_cases h : 1 ≤ s.bucket.avail .exact now
    · right
      rw [if_pos h]
      push_cast
      rcases hlow with hlow | hlow
      · linarith
      · linarith
    · left
      rw [if_neg h, sub_zero]
      exact not_le.mp h
  · show (s.bucket.take .exact now 1).2.tokens + ((s.accepted + _ : ℕ) : ℚ) = _
    rw [htake, ← htok]
    split
    · push_cast
      ring
    · push_cast
      ring

theorem Giving.take (h : Giving K r F now n s) : Giving K r F now (n + 1) (Op.take.run now s) := by
  have havail : s.bucket.avail .exact now = s.bucket.tokens := by
    unfold TokenBucket.avail TokenBucket.refill
    simp [h.last, h.cap, h.full]
  have hlow := h.low
  have htok := h.tokens
  rw [← havail] at hlow htok
  exact giving_of_avail h.cap h.rate hlow htok

theorem Giving.takes (h : Giving K r F now n s) (m : ℕ) :
    Giving K r F now (n + m) ((List.replicate m Op.take).foldl (Op.run now) s) := by
  induction m generalizing n s with
  | zero => exact h
  | succ m ih =>
    have := ih h.take
    rwa [Nat.add_right_comm] at this

/-- As many takes as there are tokens leave nothing to take. -/
theorem flood_run (hcap : s.bucket.capacity = K) (hrate : s.bucket.refillPerSec = r)
    (htok : s.bucket.avail .exact now + s.accepted = K + r * F / 1000) (hn : K ≤ n) :
    Drained K r F now ((flood n now).run s) := by
  have hle : s.bucket.avail .exact now ≤ K - (0 : ℕ) := by
    rw [Nat.cast_zero, sub_zero]
    exact hcap ▸ min_le_left _ _
  have h := (giving_of_avail hcap hrate (.inr hle) htok).takes n
  refine ⟨h.last, h.cap, h.rate, ?_, h.tokens⟩
  rcases h.low with hlow | hlow
  · exact hlow
  · push_cast at hlow
    show ((flood n now).run s).bucket.tokens < 1
    have hrun : (flood n now).run s =
        (List.replicate n Op.take).foldl (Op.run now) (Op.take.run now s) := rfl
    rw [hrun]
    linarith

/-- The next reading counts all the time to it, if the bucket has room. -/
theorem Drained.next (h : Drained K r F t s) (hn : K ≤ n)
    (hroom : 1 + r * max 0 (now - t) / 1000 ≤ K) :
    Drained K r (F + max 0 (now - t)) now ((flood n now).run s) := by
  have hcount : s.bucket.avail .exact now = s.bucket.tokens + max 0 (now - t) / 1000 * r := by
    unfold TokenBucket.avail TokenBucket.refill
    simp only [Rounding.exact_apply]
    rw [← h.rate, ← h.last]
    refine min_eq_right ?_
    rw [h.cap, h.rate, h.last]
    have := h.low
    linarith
  refine flood_run h.cap h.rate ?_ hn
  have := h.tokens
  rw [hcount]
  linarith

theorem Drained.floods (h : Drained K r F t s) (hr : 0 ≤ r) (hn : K ≤ n) {ts : List ℚ}
    (hroom : 1 + r * forwardFrom t ts / 1000 ≤ K) :
    ∃ t', Drained K r (F + forwardFrom t ts) t' ((ts.map (flood n)).foldl Visit.run s) := by
  induction ts generalizing s t F with
  | nil => exact ⟨t, by simpa [forwardFrom] using h⟩
  | cons t' ts ih =>
    have hm : 0 ≤ max 0 (t' - t) := le_max_left _ _
    have hrest := forwardFrom_nonneg t' ts
    rw [forwardFrom] at hroom ⊢
    have hfst : r * max 0 (t' - t) / 1000 ≤ r * (max 0 (t' - t) + forwardFrom t' ts) / 1000 := by
      gcongr
      linarith
    have hsnd : r * forwardFrom t' ts / 1000 ≤
        r * (max 0 (t' - t) + forwardFrom t' ts) / 1000 := by
      gcongr
      linarith
    have hroom : 1 + r * max 0 (t' - t) / 1000 ≤ K := by linarith
    have hnext := h.next hn hroom
    obtain ⟨t'', h''⟩ := ih hnext (by linarith)
    rw [add_assoc] at h''
    exact ⟨t'', h''⟩

/-- A bucket flooded at every reading gives all the tokens that the forward moves bring. -/
theorem flooded_accepted (hr : 0 ≤ r) (hn : K ≤ n) {t₀ : ℚ} {t : ℚ} {ts : List ℚ}
    (hroom : 1 + r * forward (t :: ts) / 1000 ≤ K) :
    K + r * forward (t :: ts) / 1000 - 1 <
      ((tally K r t₀ ((t :: ts).map (flood n))).accepted : ℚ) := by
  have hfirst : Drained K r 0 t ((flood n t).run ⟨.new K r t₀, 0⟩) := by
    refine flood_run rfl rfl ?_ hn
    have hin : 0 ≤ max 0 (t - t₀) / 1000 * r := by
      have : 0 ≤ max 0 (t - t₀) := le_max_left _ _
      positivity
    have hfull : (TokenBucket.new K r t₀).avail .exact t = K :=
      min_eq_left (le_add_of_nonneg_right hin)
    simp [hfull]
  obtain ⟨t', h⟩ := hfirst.floods hr hn hroom
  have hlow := h.low
  have htok := h.tokens
  rw [zero_add] at htok
  show K + r * forwardFrom t ts / 1000 - 1 < _
  have hacc : (tally K r t₀ ((t :: ts).map (flood n))).accepted =
      ((ts.map (flood n)).foldl Visit.run ((flood n t).run ⟨.new K r t₀, 0⟩)).accepted := rfl
  rw [hacc]
  linarith

end flood

/-! ### The bound of a clock that steps back -/

/-- A clock that moves forward by no more than it gets ahead of its start keeps the bound. -/
theorem bounded_of_forward_le {t₀ : ℚ} {ts : List ℚ} (h : forward ts ≤ newest t₀ ts - t₀) :
    Bounded t₀ ts := by
  intro C r capacity refillPerSec visits hC hr hcap hrate hmap hops
  have hle : ((tally capacity refillPerSec t₀ visits).accepted : ℚ) ≤
      C + r * forward (visits.map Visit.reading) / 1000 :=
    accepted_le_forward hC hr hcap hrate hops
  rw [hmap] at hle
  refine hle.trans ?_
  gcongr

/-- On a clock that only moves forward the bound holds. -/
theorem bounded_of_isChain {t₀ : ℚ} {ts : List ℚ} (h : List.IsChain (· ≤ ·) (t₀ :: ts)) :
    Bounded t₀ ts := by
  refine bounded_of_forward_le (le_trans ?_ (forwardFrom_of_isChain h))
  cases ts with
  | nil => exact le_rfl
  | cons t ts => exact le_add_of_nonneg_left (le_max_left _ _)

/-- A clock that moves forward by more breaks it: at a rate at which the time that is counted twice
brings a whole token, with a flood of takes at each reading. -/
theorem forward_le_of_bounded {t₀ : ℚ} {ts : List ℚ} (h : Bounded t₀ ts) :
    forward ts ≤ newest t₀ ts - t₀ := by
  have hD : 0 ≤ newest t₀ ts - t₀ := sub_nonneg.mpr (start_le_newest _ _)
  cases ts with
  | nil => exact hD
  | cons t ts =>
    by_contra hlt
    rw [not_le] at hlt
    have hF := forward_nonneg (t :: ts)
    generalize hD' : newest t₀ (t :: ts) - t₀ = D at hlt hD
    generalize hF' : forward (t :: ts) = F at hlt hF
    have hgap : 0 < F - D := sub_pos.mpr hlt
    obtain ⟨r, hr⟩ : ∃ r, r = 1000 / (F - D) := ⟨_, rfl⟩
    have hrpos : 0 < r := hr ▸ by positivity
    obtain ⟨n, hn⟩ := exists_nat_ge (1 + r * F / 1000)
    have hroom : 1 + r * forward (t :: ts) / 1000 ≤ 1 + r * F / 1000 := by rw [hF']
    have hmore : 1 + r * F / 1000 + r * forward (t :: ts) / 1000 - 1 <
        ((tally (1 + r * F / 1000) r t₀ ((t :: ts).map (flood n))).accepted : ℚ) :=
      flooded_accepted hrpos.le hn hroom
    have hmap : ((t :: ts).map (flood n)).map Visit.reading = t :: ts := by
      rw [List.map_map]
      exact List.map_id _
    have hwithin : ∀ v ∈ (t :: ts).map (flood n), ∀ op ∈ v.ops, op.Within (1 + r * F / 1000) r := by
      intro v hv op hop
      obtain ⟨s, -, rfl⟩ := List.mem_map.mp hv
      rw [List.eq_of_mem_replicate hop]
      trivial
    have hle := h _ r _ r _ (by positivity) hrpos.le le_rfl le_rfl hmap hwithin
    rw [hF'] at hmore
    rw [hD'] at hle
    have hone : r * F / 1000 - r * D / 1000 = 1 := by
      rw [← sub_div, ← mul_sub, hr]
      field_simp
    linarith

/-- The bound of all uses of a clock holds exactly when the clock does not move forward by more than
it gets ahead of its start. -/
theorem bounded_iff_forward (t₀ : ℚ) (ts : List ℚ) :
    Bounded t₀ ts ↔ forward ts ≤ newest t₀ ts - t₀ :=
  ⟨forward_le_of_bounded, bounded_of_forward_le⟩

/-- One token, a token a second, and a take at each of `0, 1000, 0, 1000`: three takes within the
first second. -/
theorem backstep_mints : ¬ ∀ (t₀ : ℚ) (ts : List ℚ), Bounded t₀ ts := by
  intro h
  have hrun : (tally 1 1 0 ([0, 1000, 0, 1000].map (flood 0))).accepted = 3 := by decide +kernel
  have hle := h 0 [0, 1000, 0, 1000] 1 1 1 1 ([0, 1000, 0, 1000].map (flood 0)) zero_le_one
    zero_le_one le_rfl le_rfl rfl (by
      intro v hv op hop
      obtain ⟨s, -, rfl⟩ := List.mem_map.mp hv
      rw [List.eq_of_mem_replicate hop]
      trivial)
  rw [hrun] at hle
  norm_num [newest] at hle

end RoomBackend.RateLimit
