import Mathlib.Logic.Function.Basic
import RoomBackend.Expiring
import RoomBackend.Protocol

/-! # Shared state (`store/memory.ts`)

The operations of `MemoryStore`, one atomic function each: the answer and the new store.
The string keys of the source (`sess:…`, `rl:…`, `block:…`) are keys of separate maps here,
since keys with different prefixes never meet. `now` is the store's clock. -/

namespace RoomBackend

open Expiring

/-- The counters of `hit`: the part of `rl:{key}:{window}` before the window. -/
inductive CounterKey where
  | rejoin (sid : Sid)
  | newsess (dailyHash : String)
  | conn (dailyHash : String)
  | connx (dailyHash : String)
  | ipmsg (dailyHash : String)
  | report (sid : Sid)
deriving DecidableEq, Repr

/-- The keys of `setBlock`: a session, a network, a connection backoff. -/
inductive BlockKey where
  | sess (sid : Sid)
  | net (blockHash : String)
  | cbo (dailyHash : String)
deriving DecidableEq, Repr

/-- `MemoryStore`. -/
structure Store where
  names : Map (String × String) Sid
  sess : Map Sid SessionRecord
  resume : Map TokenHash Sid
  counters : Map (CounterKey × ℤ) ℕ
  sets : Map (String × String) (List Sid)
  blocks : Map BlockKey String
  locks : Map String Unit
  lists : Map String (List StoredMessage)
  presence : List (InstanceId × ℤ × ℤ)
  abuse : List (ℤ × AbuseEvent)

namespace Store

/-- The empty store. -/
def empty : Store :=
  { names := Map.empty, sess := Map.empty, resume := Map.empty, counters := Map.empty
    sets := Map.empty, blocks := Map.empty, locks := Map.empty, lists := Map.empty
    presence := [], abuse := [] }

variable (s : Store) (now : ℤ)

/-! ### Names, sessions, resume tokens -/

/-- `claimName`: false when the name is taken. -/
def claimName (roomId name : String) (sid : Sid) (expireAt : ℤ) : Bool × Store :=
  let r := s.names.read now (roomId, name)
  if r.1.isSome then (false, { s with names := r.2 })
  else (true, { s with names := r.2.write (roomId, name) sid expireAt })

/-- `nameOwner`. -/
def nameOwner (roomId name : String) : Option Sid × Store :=
  let r := s.names.read now (roomId, name)
  (r.1, { s with names := r.2 })

/-- `saveSession`: overwrites the whole record. -/
def saveSession (r : SessionRecord) (expireAt : ℤ) : Unit × Store :=
  ((), { s with sess := s.sess.write r.sid r expireAt })

/-- `getSession`: a copy of the record. -/
def getSession (sid : Sid) : Option SessionRecord × Store :=
  let r := s.sess.read now sid
  (r.1, { s with sess := r.2 })

/-- `setResume`. -/
def setResume (hash : TokenHash) (sid : Sid) (expireAt : ℤ) : Unit × Store :=
  ((), { s with resume := s.resume.write hash sid expireAt })

/-- `resolveResume`. -/
def resolveResume (hash : TokenHash) : Option Sid × Store :=
  let r := s.resume.read now hash
  (r.1, { s with resume := r.2 })

/-! ### Messages -/

/-- `appendMessage`: keep the last `keep` messages of the room. -/
def appendMessage (roomId : String) (msg : StoredMessage) (keep : ℕ) (expireAt : ℤ) :
    Unit × Store :=
  let v := (s.lists.lookup now roomId).getD [] ++ [msg]
  ((), { s with lists := s.lists.write roomId (v.drop (v.length - keep)) expireAt })

/-- `recentMessages`: the last `limit` messages of the room. -/
def recentMessages (roomId : String) (limit : ℕ) : List StoredMessage × Store :=
  let v := (s.lists.lookup now roomId).getD []
  (if limit = 0 then [] else v.drop (v.length - limit), s)

/-- `deleteRoom`: the history and the name claims of the room. -/
def deleteRoom (roomId : String) : Unit × Store :=
  ((), { s with
    lists := s.lists.erase roomId
    names := fun k => if k.1 = roomId then none else s.names k })

/-! ### Counters, sets, blocks, locks -/

/-- `hit`: count in the fixed window of the instant. -/
def hit (key : CounterKey) (windowMs : ℤ) : ℕ × Store :=
  let k := (key, now / windowMs)
  let r := s.counters.read now k
  let n := r.1.getD 0 + 1
  (n, { s with counters := r.2.write k n (now + windowMs) })

/-- `addToSet`: the cardinality after adding. -/
def addToSet (key : String × String) (member : Sid) (ttlMs : ℤ) : ℕ × Store :=
  let r := s.sets.read now key
  let v := (r.1.getD []).insert member
  (v.length, { s with sets := r.2.write key v (now + ttlMs) })

/-- `setBlock`. -/
def setBlock (key : BlockKey) (ttlMs : ℤ) (reason : String) : Unit × Store :=
  ((), { s with blocks := s.blocks.write key reason (now + ttlMs) })

/-- `blockTtl`: remaining block time, `0` when not blocked. -/
def blockTtl (key : BlockKey) : ℤ × Store :=
  match s.blocks key with
  | none => (0, s)
  | some e => (max 0 (e.exp - now), s)

/-- `deleteBlock`. -/
def deleteBlock (key : BlockKey) : Unit × Store :=
  ((), { s with blocks := s.blocks.erase key })

/-- `acquireOnce`: true for one caller until the lock expires. -/
def acquireOnce (key : String) (ttlMs : ℤ) : Bool × Store :=
  let r := s.locks.read now key
  if r.1.isSome then (false, { s with locks := r.2 })
  else (true, { s with locks := r.2.write key () (now + ttlMs) })

/-! ### Presence and the abuse log -/

/-- `reportPresence`. -/
def reportPresence (i : InstanceId) (count ts : ℤ) : Unit × Store :=
  ((), { s with presence := s.presence.filter (fun p => p.1 ≠ i) ++ [(i, count, ts)] })

/-- `removePresence`. -/
def removePresence (i : InstanceId) : Unit × Store :=
  ((), { s with presence := s.presence.filter (fun p => p.1 ≠ i) })

/-- `totalPresence`: drop stale reports, sum the others. -/
def totalPresence (ts staleMs : ℤ) : ℤ × Store :=
  let live := s.presence.filter (fun p => ¬ (ts - p.2.2 > staleMs))
  (live.foldl (fun n p => n + p.2.1) 0, { s with presence := live })

/-- `addAbuseEvent`: trim by age and to ten thousand entries, then append. -/
def addAbuseEvent (e : AbuseEvent) (retentionMs : ℤ) : Unit × Store :=
  let kept := s.abuse.filter (fun a => now - a.1 < retentionMs)
  ((), { s with abuse := kept.drop (kept.length - 9999) ++ [(now, e)] })

/-- The abuse log aside, `addAbuseEvent` leaves the store alone. -/
theorem addAbuseEvent_eq (e : AbuseEvent) (retentionMs : ℤ) :
    ∃ v, (s.addAbuseEvent now e retentionMs).2 = { s with abuse := v } := ⟨_, rfl⟩

end Store

end RoomBackend
