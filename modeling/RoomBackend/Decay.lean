import RoomBackend.Suspicion
import Mathlib.Analysis.SpecialFunctions.Pow.Real

/-! # Decay of the suspicion score (`abuse/suspicion.ts`)

The class `SuspicionScore` over any ordered field and any decay factor, so that the decay can be the
real power `0.5 ** (ms / HALF_LIFE_MS)` of the source. `value` does not look at the sign of the
elapsed time: read before its last update, a score is multiplied by a factor above one. -/

namespace RoomBackend.Suspicion

/-- `SuspicionScore`, with scores and instants in a field. -/
structure Score (K : Type*) where
  score : K
  setAt : K

/-- A call that updates a score. -/
inductive Update (K : Type*) where
  | add (points now : K) (trusted : Bool)
  | reset (now : K)

namespace Score

variable {K : Type*} [Field K] [LinearOrder K]

section model
variable (halfPow : K → K)

/-- `value`. -/
def value (s : Score K) (now : K) : K :=
  if s.score ≤ 0 then 0
  else
    let decayed := s.score * halfPow (now - s.setAt)
    if decayed < 1 / 2 then 0 else decayed

/-- `add`. -/
def add (s : Score K) (points now : K) (trusted : Bool) : Score K :=
  let v := s.value halfPow now + points * (if trusted then 1 / 2 else 1)
  { score := max 0 (min 150 v), setAt := now }

/-- `reset`. -/
def reset (now : K) : Score K := { score := 0, setAt := now }

def update (s : Score K) : Update K → Score K
  | .add points now trusted => s.add halfPow points now trusted
  | .reset now => reset now

/-- A score after a sequence of calls. -/
def updates (s : Score K) (us : List (Update K)) : Score K := us.foldl (update halfPow) s

end model

variable {halfPow : K → K} {s : Score K} {now : K}

/-- What `add` and `reset` store. -/
def InRange (s : Score K) : Prop := 0 ≤ s.score ∧ s.score ≤ 150

variable [IsStrictOrderedRing K]

theorem update_inRange (s : Score K) (u : Update K) : (s.update halfPow u).InRange := by
  cases u with
  | add points now trusted =>
    exact ⟨le_max_left _ _, max_le (by norm_num) (min_le_left _ _)⟩
  | reset now =>
    exact ⟨le_rfl, by norm_num [update, reset]⟩

theorem updates_inRange {us : List (Update K)} (h : us ≠ [] ∨ s.InRange) :
    (s.updates halfPow us).InRange := by
  induction us using List.reverseRecOn with
  | nil =>
    rcases h with h | h
    · exact absurd rfl h
    · exact h
  | append_singleton us u _ =>
    unfold updates
    rw [List.foldl_append]
    exact update_inRange _ u

/-! ### What a reading shows -/

/-- A factor that is one at zero elapsed time and falls from there on. -/
structure Decaying (halfPow : K → K) : Prop where
  anti : StrictAnti halfPow
  zero : halfPow 0 = 1
  pos : ∀ d, 0 < halfPow d

omit [IsStrictOrderedRing K] in
theorem Decaying.le_one_iff (h : Decaying halfPow) {d : K} : halfPow d ≤ 1 ↔ 0 ≤ d := by
  rw [← h.zero]
  exact h.anti.le_iff_ge

omit [IsStrictOrderedRing K] in
theorem value_of_score_eq_zero (h : s.score = 0) : s.value halfPow now = 0 := if_pos h.le

omit [IsStrictOrderedRing K] in
theorem value_of_low (hlow : s.score * halfPow (now - s.setAt) < 1 / 2) :
    s.value halfPow now = 0 := by
  unfold value
  split
  · rfl
  · exact if_pos hlow

omit [IsStrictOrderedRing K] in
theorem value_of_high (hpos : 0 < s.score)
    (hhigh : ¬ s.score * halfPow (now - s.setAt) < 1 / 2) :
    s.value halfPow now = s.score * halfPow (now - s.setAt) := by
  unfold value
  rw [if_neg (not_le.mpr hpos)]
  exact if_neg hhigh

theorem value_nonneg (hpow : ∀ d, 0 ≤ halfPow d) : 0 ≤ s.value halfPow now := by
  by_cases hlow : s.score * halfPow (now - s.setAt) < 1 / 2
  · exact (value_of_low hlow).ge
  · rcases le_or_gt s.score 0 with hs | hs
    · exact (if_pos hs : s.value halfPow now = 0).ge
    · rw [value_of_high hs hlow]
      exact mul_nonneg hs.le (hpow _)

/-- A factor of at most one shows no more than what is stored. -/
theorem value_le_score (hs : 0 ≤ s.score) (hpow : halfPow (now - s.setAt) ≤ 1) :
    s.value halfPow now ≤ s.score := by
  by_cases hlow : s.score * halfPow (now - s.setAt) < 1 / 2
  · exact (value_of_low hlow).le.trans hs
  · rcases hs.eq_or_lt with h0 | hpos
    · exact (value_of_score_eq_zero h0.symm).le.trans hs
    · rw [value_of_high hpos hlow]
      exact mul_le_of_le_one_right hs hpow

/-- What is shown is at most what is stored, unless the reading is before the update and the score
has not fallen below the cut-off even so. -/
theorem value_le_score_iff (hdecay : Decaying halfPow) (hs : 0 ≤ s.score) :
    s.value halfPow now ≤ s.score ↔
      s.score = 0 ∨ s.setAt ≤ now ∨ s.score * halfPow (now - s.setAt) < 1 / 2 := by
  constructor
  · intro h
    by_contra hnot
    obtain ⟨hne, hlater, hhigh⟩ : s.score ≠ 0 ∧ ¬ s.setAt ≤ now ∧
        ¬ s.score * halfPow (now - s.setAt) < 1 / 2 := by
      simpa only [not_or] using hnot
    have hpos : 0 < s.score := lt_of_le_of_ne hs (Ne.symm hne)
    rw [value_of_high hpos hhigh, mul_le_iff_le_one_right hpos, hdecay.le_one_iff,
      sub_nonneg] at h
    exact hlater h
  · rintro (h0 | hle | hlow)
    · exact (value_of_score_eq_zero h0).le.trans hs
    · exact value_le_score hs (hdecay.le_one_iff.mpr (sub_nonneg.mpr hle))
    · exact (value_of_low hlow).le.trans hs

end Score

/-! ### The score of the model -/

namespace SuspicionScore

/-- The score of a connection, as a score over the rationals. -/
def toScore (s : SuspicionScore) : Score ℚ := { score := s.score, setAt := s.setAt }

/-- The factor of a connection, at the elapsed times that whole instants have. -/
def atFloor (halfPow : ℤ → ℚ) (d : ℚ) : ℚ := halfPow ⌊d⌋

variable {halfPow : ℤ → ℚ} {s : SuspicionScore} {now : ℤ}

theorem toScore_value (s : SuspicionScore) (now : ℤ) :
    s.toScore.value (atFloor halfPow) now = s.value halfPow now := by
  have hd : atFloor halfPow ((now : ℚ) - s.setAt) = halfPow (now - s.setAt) := by
    unfold atFloor
    rw [← Int.cast_sub, Int.floor_intCast]
  unfold Score.value value toScore
  rw [hd]

theorem toScore_add (s : SuspicionScore) (points : ℚ) (now : ℤ) (trusted : Bool) :
    (s.add halfPow points now trusted).toScore =
      s.toScore.add (atFloor halfPow) points now trusted := by
  unfold Score.add add
  rw [toScore_value]
  rfl

end SuspicionScore

/-! ### The real power -/

/-- `HALF_LIFE_MS`. -/
def HALF_LIFE_MS : ℝ := 4 * 60000

/-- `0.5 ** (ms / HALF_LIFE_MS)`. -/
noncomputable def decay (ms : ℝ) : ℝ := 0.5 ^ (ms / HALF_LIFE_MS)

theorem decaying_decay : Score.Decaying decay := by
  refine ⟨fun a b hab => ?_, ?_, fun d => ?_⟩
  · have hdiv : a / HALF_LIFE_MS < b / HALF_LIFE_MS := by
      unfold HALF_LIFE_MS
      linarith
    exact Real.rpow_lt_rpow_of_exponent_gt (by norm_num) (by norm_num) hdiv
  · show (0.5 : ℝ) ^ ((0 : ℝ) / HALF_LIFE_MS) = 1
    rw [zero_div, Real.rpow_zero]
  · exact Real.rpow_pos_of_pos (by norm_num) _

/-- A score shows a value between zero and what `add` or `reset` stored exactly when it stored zero,
is not read before the update, or falls below the cut-off even so. -/
theorem shown_within_stored_iff (start : Score ℝ) (us : List (Update ℝ)) (now : ℝ)
    (h : us ≠ [] ∨ start.InRange) :
    let s := start.updates decay us
    (0 ≤ s.value decay now ∧ s.value decay now ≤ 150 ∧ s.value decay now ≤ s.score) ↔
      s.score = 0 ∨ s.setAt ≤ now ∨ s.score * decay (now - s.setAt) < 1 / 2 := by
  intro s
  have hrange : s.InRange := Score.updates_inRange h
  rw [← Score.value_le_score_iff decaying_decay hrange.1]
  constructor
  · intro hall
    exact hall.2.2
  · intro hle
    exact ⟨Score.value_nonneg fun d => (decaying_decay.pos d).le, hle.trans hrange.2, hle⟩

theorem shown_within_stored_new :
    let s := (⟨0, 0⟩ : Score ℝ).updates decay [.add 100 0 false]
    0 ≤ s.value decay 240000 ∧ s.value decay 240000 ≤ 150 ∧ s.value decay 240000 ≤ s.score := by
  refine (shown_within_stored_iff ⟨0, 0⟩ [.add 100 0 false] 240000 (.inl ?_)).mpr ?_
  · exact List.cons_ne_nil _ _
  · refine .inr (.inl ?_)
    show (0 : ℝ) ≤ 240000
    norm_num

/-- A hundred points added at a half-life after the epoch show as two hundred at the epoch. -/
theorem read_before_update_grows :
    let s := (⟨0, 0⟩ : Score ℝ).updates decay [.add 100 240000 false]
    s.score = 100 ∧ s.value decay 0 = 200 := by
  have hnew : (⟨0, 0⟩ : Score ℝ).value decay 240000 = 0 := Score.value_of_score_eq_zero rfl
  have hstored : (⟨0, 0⟩ : Score ℝ).updates decay [.add 100 240000 false] = ⟨100, 240000⟩ := by
    show (⟨0, 0⟩ : Score ℝ).add decay 100 240000 false = _
    unfold Score.add
    rw [hnew]
    norm_num
  have hfactor : decay (0 - 240000) = 2 := by
    have he : (0 - 240000 : ℝ) / HALF_LIFE_MS = -1 := by
      unfold HALF_LIFE_MS
      norm_num
    unfold decay
    rw [he, Real.rpow_neg_one]
    norm_num
  intro s
  have hs : s = ⟨100, 240000⟩ := hstored
  rw [hs]
  refine ⟨rfl, ?_⟩
  have hhigh : (⟨100, 240000⟩ : Score ℝ).value decay 0 = 100 * decay (0 - 240000) := by
    refine Score.value_of_high (by norm_num) ?_
    rw [hfactor]
    norm_num
  rw [hhigh, hfactor]
  norm_num

end RoomBackend.Suspicion
