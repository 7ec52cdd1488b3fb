import Mathlib.Data.Rat.Floor
import RoomBackend.Store

/-! # Redis (`store/redis.ts`)

What `RedisStore` keeps for a day: names, sessions and resume tokens, each with the expiry it
is set with (`PXAT`), and the histories, which live on for a grace period after it. Then the
counters of `hit`, the blocks and the stream of abuse events. `now` is the clock of Redis. -/

namespace RoomBackend

open Expiring

/-! ### The commands -/

namespace Redis

/-- What a command reads under a key. A key has expired when the instant it is set with is past,
and not at that instant yet. -/
def get {κ α : Type*} (m : Map κ α) (now : ℤ) (k : κ) : Option α := m.lookup (now - 1) k

/-- The elements from `start` to `stop`, both counted from the end when negative: what `LRANGE`
answers and `LTRIM` keeps. -/
def range {α : Type*} (v : List α) (start stop : ℤ) : List α :=
  let len : ℤ := v.length
  let start := if start < 0 then max 0 (len + start) else start
  let stop := if stop < 0 then len + stop else min stop (len - 1)
  if start > stop then [] else (v.drop start.toNat).take (stop - start + 1).toNat

/-- The last `n` elements. -/
theorem range_neg {α : Type*} (v : List α) {n : ℕ} (hn : n ≠ 0) :
    range v (-n) (-1) = v.drop (v.length - n) := by
  have hstart : (-n : ℤ) < 0 := by omega
  have hstop : (-1 : ℤ) < 0 := by omega
  unfold range
  dsimp only
  rw [if_pos hstart, if_pos hstop]
  split
  · rw [List.drop_of_length_le]
    omega
  · rw [show (max 0 ((v.length : ℤ) + -n)).toNat = v.length - n by omega, List.take_of_length_le]
    rw [List.length_drop]
    omega

/-- A range from `0` to the last element is everything. -/
theorem range_zero {α : Type*} (v : List α) : range v 0 (-1) = v := by
  have hstop : (-1 : ℤ) < 0 := by omega
  unfold range
  dsimp only
  rw [if_neg (lt_irrefl (0 : ℤ)), if_pos hstop]
  split
  · exact (List.eq_nil_of_length_eq_zero (by omega)).symm
  · rw [Int.toNat_zero, List.drop_zero, List.take_of_length_le]
    omega

/-- `Math.round`: halves are rounded up. -/
def mathRound (x : ℚ) : ℤ := ⌊x + 1 / 2⌋

/-- `s.slice(0, n)` as Redis stores it: `n` UTF-16 units, half a pair being unreadable. -/
def slice : ℕ → List Char → List Char
  | _, [] => []
  | 0, _ => []
  | n + 1, c :: cs =>
      if c.val < 0x10000 then c :: slice n cs
      else match n with
        | 0 => ['\uFFFD']
        | n + 1 => c :: slice n cs

end Redis

/-! ### The store -/

/-- `ROOM_GRACE_MS`. -/
def ROOM_GRACE_MS : ℤ := 10 * 60000

/-- A write of a day-scoped key. -/
inductive DayWrite where
  | claimName (roomId name : String) (sid : Sid) (expireAt : ℤ)
  | saveSession (r : SessionRecord) (expireAt : ℤ)
  | setResume (hash : TokenHash) (sid : Sid) (expireAt : ℤ)
  | appendMessage (roomId : String) (msg : StoredMessage) (expireAt : ℤ)
  | deleteRoom (roomId : String)

/-- `RedisStore`: the entries of `abuse` are kept with the instant of their id. -/
structure RedisStore where
  names : Map (String × String) Sid
  sess : Map Sid SessionRecord
  resume : Map TokenHash Sid
  lists : Map String (List StoredMessage)
  counters : Map (CounterKey × ℤ) ℕ
  blocks : Map BlockKey String
  abuse : List (ℤ × AbuseEvent)

namespace RedisStore

def empty : RedisStore :=
  { names := Map.empty, sess := Map.empty, resume := Map.empty, lists := Map.empty
    counters := Map.empty, blocks := Map.empty, abuse := [] }

variable (r : RedisStore) (now : ℤ)

/-- `claimName`: `SET … PXAT expireAt NX`. -/
def claimName (roomId name : String) (sid : Sid) (expireAt : ℤ) : RedisStore :=
  if (Redis.get r.names now (roomId, name)).isSome then r
  else { r with names := r.names.write (roomId, name) sid expireAt }

/-- `saveSession`: `SET … PXAT expireAt`. -/
def saveSession (x : SessionRecord) (expireAt : ℤ) : RedisStore :=
  { r with sess := r.sess.write x.sid x expireAt }

/-- `setResume`: `SET … PXAT expireAt`. -/
def setResume (hash : TokenHash) (sid : Sid) (expireAt : ℤ) : RedisStore :=
  { r with resume := r.resume.write hash sid expireAt }

/-- `appendMessage`: `RPUSH`, `LTRIM … -keep -1`, `PEXPIREAT`, which deletes the key if the
instant is not ahead. -/
def appendMessage (roomId : String) (msg : StoredMessage) (keep : ℕ) (expireAt : ℤ) : RedisStore :=
  let v := Redis.range ((Redis.get r.lists now roomId).getD [] ++ [msg]) (-keep) (-1)
  let exp := expireAt + ROOM_GRACE_MS
  { r with lists := if exp ≤ now then r.lists.erase roomId else r.lists.write roomId v exp }

/-- `recentMessages`: `LRANGE … -limit -1`. -/
def recentMessages (roomId : String) (limit : ℕ) : List StoredMessage :=
  if limit = 0 then []
  else Redis.range ((Redis.get r.lists now roomId).getD []) (-limit) (-1)

/-- `deleteRoom`: names, sessions and tokens expire by themselves. -/
def deleteRoom (roomId : String) : RedisStore := { r with lists := r.lists.erase roomId }

/-- A day-scoped write takes effect. -/
def perform (keep : ℕ) : DayWrite → RedisStore
  | .claimName roomId name sid expireAt => r.claimName now roomId name sid expireAt
  | .saveSession x expireAt => r.saveSession x expireAt
  | .setResume hash sid expireAt => r.setResume hash sid expireAt
  | .appendMessage roomId msg expireAt => r.appendMessage now roomId msg keep expireAt
  | .deleteRoom roomId => r.deleteRoom roomId

/-- `hit`: the window is that of the host's clock (`Date.now()`); `INCRBY`, `PEXPIRE`. -/
def hit (host : ℤ) (key : CounterKey) (windowMs : ℤ) : ℕ × RedisStore :=
  let k := (key, host / windowMs)
  let n := (Redis.get r.counters now k).getD 0 + 1
  (n, { r with counters := r.counters.write k n (now + windowMs) })

/-- `setBlock`: `SET … PX`, a millisecond at least. -/
def setBlock (key : BlockKey) (ttlMs : ℚ) (reason : String) : RedisStore :=
  let v := String.ofList (Redis.slice 200 reason.toList)
  { r with blocks := r.blocks.write key v (now + max 1 (Redis.mathRound ttlMs)) }

/-- `blockTtl`: `PTTL`, negative for a key that is not there. -/
def blockTtl (key : BlockKey) : ℤ :=
  let t := match r.blocks key with
    | none => -2
    | some e => if e.exp < now then -2 else e.exp - now
  if t > 0 then t else 0

/-- `addAbuseEvent`: `XADD … MAXLEN 10000`, then `XTRIM … MINID`, taken as exact. The bound is
that of the host's clock (`Date.now()`). -/
def addAbuseEvent (host : ℤ) (e : AbuseEvent) (retentionMs : ℤ) : RedisStore :=
  let v := r.abuse ++ [(now, e)]
  { r with abuse := (v.drop (v.length - 10000)).filter fun a => host - retentionMs ≤ a.1 }

end RedisStore

end RoomBackend
