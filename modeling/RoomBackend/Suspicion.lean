import Mathlib.Algebra.Order.Field.Rat
import Mathlib.Algebra.BigOperators.Group.List.Basic
import Mathlib.Data.Rat.Floor

/-! # Automation scoring (`abuse/suspicion.ts`)

Points are exact rationals. The decay factor `0.5 ** (ms / HALF_LIFE_MS)` is a parameter
`halfPow` (a function of the elapsed milliseconds): nothing in the gateway depends on its
values. -/

namespace RoomBackend.Suspicion

/-- `SIGNALS`. -/
inductive Signal where
  | automationUserAgent
  | missingOrigin
  | verificationMissing
  | verificationFailed
  | manyNewSessionsFromNetwork
  | reconnectChurn
  | malformedFrame
  | binaryFrame
  | sendBeforeJoin
  | pingFlood
  | rateLimitHit
  | ignoredCooldown
  | networkFlood
  | machineRegularTiming
  | instantAfterJoin
  | ownDuplicate
  | crossSessionDuplicate
deriving DecidableEq, Repr

/-- The points of a signal. -/
def Signal.points : Signal → ℚ
  | automationUserAgent => 22
  | missingOrigin => 12
  | verificationMissing => 8
  | verificationFailed => 25
  | manyNewSessionsFromNetwork => 20
  | reconnectChurn => 10
  | malformedFrame => 10
  | binaryFrame => 15
  | sendBeforeJoin => 6
  | pingFlood => 6
  | rateLimitHit => 7
  | ignoredCooldown => 4
  | networkFlood => 8
  | machineRegularTiming => 18
  | instantAfterJoin => 6
  | ownDuplicate => 3
  | crossSessionDuplicate => 12

namespace Thresholds

/-- `THRESHOLDS.throttle`. -/
def throttle : ℚ := 30
/-- `THRESHOLDS.challenge`. -/
def challenge : ℚ := 60
/-- `THRESHOLDS.severe`. -/
def severe : ℚ := 90
/-- `THRESHOLDS.max`. -/
def max : ℚ := 150

end Thresholds

/-- `SuspicionScore`: the score and the instant it was set. -/
structure SuspicionScore where
  score : ℚ
  setAt : ℤ

namespace SuspicionScore

variable (halfPow : ℤ → ℚ)

/-- `value`: the decayed score. -/
def value (s : SuspicionScore) (now : ℤ) : ℚ :=
  if s.score ≤ 0 then 0
  else
    let decayed := s.score * halfPow (now - s.setAt)
    if decayed < 1 / 2 then 0 else decayed

/-- `add`: recently verified humans accumulate at half rate (`TRUSTED_FACTOR`). -/
def add (s : SuspicionScore) (points : ℚ) (now : ℤ) (trusted : Bool) : SuspicionScore :=
  let v := s.value halfPow now + points * (if trusted then 1 / 2 else 1)
  { score := max 0 (min Thresholds.max v), setAt := now }

/-- `reset`. -/
def reset (now : ℤ) : SuspicionScore := { score := 0, setAt := now }

/-- `snapshot().suspicion`: the value rounded to one decimal. -/
def snapshot (s : SuspicionScore) (now : ℤ) : ℚ :=
  (⌊s.value halfPow now * 10 + 1 / 2⌋ : ℤ) / 10

end SuspicionScore

/-- `TimingAnalyzer`: the gaps between the last messages. -/
structure TimingAnalyzer where
  window : ℕ
  gaps : List ℤ
  last : ℤ

namespace TimingAnalyzer

/-- A fresh analyzer with the default window of 10 gaps. -/
def new : TimingAnalyzer := { window := 10, gaps := [], last := 0 }

/-- `record`: whether the recent cadence looks machine-generated. The comparison of the
coefficient of variation `sqrt variance / max 1 mean < 0.08` is squared on both sides. -/
def record (t : TimingAnalyzer) (now : ℤ) : Bool × TimingAnalyzer :=
  let gaps :=
    if t.last ≠ 0 then
      let g := t.gaps ++ [now - t.last]
      if g.length > t.window then g.tail else g
    else t.gaps
  let t := { t with gaps := gaps, last := now }
  if gaps.length < t.window then (false, t)
  else
    let mean : ℚ := (gaps.map (fun g => (g : ℚ))).sum / gaps.length
    if mean > 20000 then (false, t)
    else
      let variance : ℚ := (gaps.map (fun g => ((g : ℚ) - mean) ^ 2)).sum / gaps.length
      if variance < (8 / 100 * max 1 mean) ^ 2 then (true, { t with gaps := [] })
      else (false, t)

end TimingAnalyzer

end RoomBackend.Suspicion
