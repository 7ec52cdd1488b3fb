import RoomBackend.Rounding

/-! # Token bucket and message tiers (`abuse/rate-limit.ts`)

Tokens and rates are numbers, the result of every operation on them is rounded; the clocks of the
server are integers, with which the arithmetic is exact. A rate is rounded where it is used. -/

namespace RoomBackend.RateLimit

/-- `MESSAGE_TIERS`: the tiers, compared by identity. -/
inductive Tier where
  | normal
  | throttled
  | restricted
deriving DecidableEq, Repr

namespace Tier

def capacity : Tier → ℚ
  | normal => 10
  | throttled => 5
  | restricted => 2

def refillPerSec : Tier → ℚ
  | normal => 1
  | throttled => 33 / 100
  | restricted => 1 / 10

end Tier

/-- `TokenBucket`. -/
structure TokenBucket where
  capacity : ℚ
  refillPerSec : ℚ
  tokens : ℚ
  last : ℚ

namespace TokenBucket

/-- The constructor: a full bucket. -/
def new (capacity refillPerSec now : ℚ) : TokenBucket :=
  { capacity, refillPerSec, tokens := capacity, last := now }

/-- `refill`. -/
def refill (r : Rounding) (b : TokenBucket) (now : ℚ) : TokenBucket :=
  let elapsed := r (max 0 (now - b.last) / 1000)
  { b with
    tokens := min b.capacity (r (b.tokens + r (elapsed * r b.refillPerSec)))
    last := now }

/-- `reconfigure`: change the limits in place, without refilling beyond the old ones. -/
def reconfigure (r : Rounding) (b : TokenBucket) (capacity refillPerSec now : ℚ) : TokenBucket :=
  let b := b.refill r now
  { b with capacity, refillPerSec, tokens := min b.tokens capacity }

/-- `take`: `0` if allowed, otherwise the milliseconds until `cost` tokens are there. -/
def take (r : Rounding) (b : TokenBucket) (now cost : ℚ) : ℤ × TokenBucket :=
  let b := b.refill r now
  if b.tokens ≥ cost then (0, { b with tokens := r (b.tokens - cost) })
  else (⌈r (r (r (cost - b.tokens) / r b.refillPerSec) * 1000)⌉, b)

end TokenBucket

/-- `violationCooldownMs`: progressive cooldown after repeated violations. -/
def violationCooldownMs (strikes : ℕ) : ℤ :=
  if strikes < 3 then 0 else min 60000 (1000 * 2 ^ (strikes - 2))

end RoomBackend.RateLimit
