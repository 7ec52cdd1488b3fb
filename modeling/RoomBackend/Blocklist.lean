import Mathlib.Order.Bounds.Basic
import RoomBackend.Redis

/-! # How long a network or a session is blocked

Every writer of a block (a challenge that failed, an operator, the connection backoff) sets the
key anew. What is left of a block is what is left of the call that was the last on its key
(`blockTtl_last`), whatever was set before it. Durations need not be whole milliseconds. -/

namespace RoomBackend

open Expiring

/-! ### Blocks of any duration in memory -/

/-- An entry of `block:…` in `MemoryStore`. -/
structure BlockEntry where
  reason : String
  exp : ℚ

/-- The blocks of a `MemoryStore`. -/
abbrev MemoryBlocks := BlockKey → Option BlockEntry

namespace MemoryBlocks

/-- `setBlock`. -/
def setBlock (m : MemoryBlocks) (now : ℤ) (key : BlockKey) (ttlMs : ℚ) (reason : String) :
    MemoryBlocks :=
  Function.update m key (some ⟨reason, now + ttlMs⟩)

/-- `blockTtl`. -/
def blockTtl (m : MemoryBlocks) (now : ℤ) (key : BlockKey) : ℚ :=
  match m key with
  | none => 0
  | some e => max 0 (e.exp - now)

end MemoryBlocks

/-- The blocks of the store. -/
def Store.memoryBlocks (s : Store) : MemoryBlocks := fun key =>
  (s.blocks key).map fun e => ⟨e.v, e.exp⟩

/-- Whole durations are those of the server's store. -/
theorem Store.memoryBlocks_setBlock (s : Store) (now : ℤ) (key : BlockKey) (ttlMs : ℤ)
    (reason : String) : (s.setBlock now key ttlMs reason).2.memoryBlocks =
      s.memoryBlocks.setBlock now key ttlMs reason := by
  funext key'
  show (s.blocks.write key reason (now + ttlMs) key').map _ = _
  unfold MemoryBlocks.setBlock
  by_cases hk : key' = key
  · subst hk
    rw [Map.write_same, Function.update_self, Option.map_some]
    push_cast
    rfl
  · rw [Map.write_ne _ _ _ hk, Function.update_of_ne hk]
    rfl

theorem Store.memoryBlocks_blockTtl (s : Store) (now : ℤ) (key : BlockKey) :
    s.memoryBlocks.blockTtl now key = (s.blockTtl now key).1 := by
  unfold MemoryBlocks.blockTtl Store.memoryBlocks Store.blockTtl
  cases s.blocks key with
  | none => rfl
  | some e =>
      simp only [Option.map_some]
      push_cast
      rfl

/-! ### Calls -/

/-- A call of `setBlock`. -/
structure BlockCall where
  time : ℤ
  key : BlockKey
  ttlMs : ℚ
  reason : String

namespace BlockCall

/-- What is left of the block at an instant. -/
def remaining (c : BlockCall) (t : ℤ) : ℚ := max 0 (c.time + c.ttlMs - t)

/-- The same where durations are whole and positive. -/
def remainingRedis (c : BlockCall) (t : ℤ) : ℤ :=
  max 0 (c.time + max 1 (Redis.mathRound c.ttlMs) - t)

end BlockCall

def MemoryBlocks.calls (m : MemoryBlocks) (cs : List BlockCall) : MemoryBlocks :=
  cs.foldl (fun m c => m.setBlock c.time c.key c.ttlMs c.reason) m

def RedisStore.calls (r : RedisStore) (cs : List BlockCall) : RedisStore :=
  cs.foldl (fun r c => r.setBlock c.time c.key c.ttlMs c.reason) r

variable {m : MemoryBlocks} {r : RedisStore} {c : BlockCall} {cs : List BlockCall}
  {key : BlockKey} {t : ℤ}

/-- Calls on other keys leave the block alone. -/
theorem MemoryBlocks.calls_other (h : ∀ c ∈ cs, c.key ≠ key) : m.calls cs key = m key := by
  induction cs generalizing m with
  | nil => rfl
  | cons c cs ih =>
      have hne : key ≠ c.key := (h c List.mem_cons_self).symm
      have htail := ih (m := m.setBlock c.time c.key c.ttlMs c.reason)
        fun d hd => h d (List.mem_cons_of_mem _ hd)
      exact htail.trans (Function.update_of_ne hne _ _)

theorem RedisStore.calls_other (h : ∀ c ∈ cs, c.key ≠ key) :
    (r.calls cs).blocks key = r.blocks key := by
  induction cs generalizing r with
  | nil => rfl
  | cons c cs ih =>
      have hne : key ≠ c.key := (h c List.mem_cons_self).symm
      have htail := ih (r := r.setBlock c.time c.key c.ttlMs c.reason)
        fun d hd => h d (List.mem_cons_of_mem _ hd)
      exact htail.trans (Map.write_ne _ _ _ hne)

/-- The last call on a key is what is left of its block. -/
theorem MemoryBlocks.blockTtl_calls {before after : List BlockCall}
    (h : ∀ d ∈ after, d.key ≠ c.key) :
    (m.calls (before ++ c :: after)).blockTtl t c.key = c.remaining t := by
  have hkey : m.calls (before ++ c :: after) c.key = some ⟨c.reason, c.time + c.ttlMs⟩ := by
    rw [MemoryBlocks.calls, List.foldl_append, List.foldl_cons]
    exact (MemoryBlocks.calls_other h).trans (Function.update_self ..)
  rw [MemoryBlocks.blockTtl, hkey]
  rfl

theorem RedisStore.blockTtl_calls {before after : List BlockCall}
    (h : ∀ d ∈ after, d.key ≠ c.key) :
    (r.calls (before ++ c :: after)).blockTtl t c.key = c.remainingRedis t := by
  have hkey : ∃ v, (r.calls (before ++ c :: after)).blocks c.key =
      some ⟨v, c.time + max 1 (Redis.mathRound c.ttlMs)⟩ := by
    rw [RedisStore.calls, List.foldl_append, List.foldl_cons]
    exact ⟨_, (RedisStore.calls_other h).trans (Map.write_same ..)⟩
  obtain ⟨v, hkey⟩ := hkey
  rw [RedisStore.blockTtl, hkey, BlockCall.remainingRedis]
  dsimp only
  generalize c.time + max 1 (Redis.mathRound c.ttlMs) = exp
  by_cases hexp : exp < t
  · have hleft : exp - t ≤ 0 := by omega
    simp only [if_pos hexp]
    rw [max_eq_left hleft]
    rfl
  · -- at its last instant it has no time left
    have hleft : 0 ≤ exp - t := by omega
    simp only [if_neg hexp]
    rw [max_eq_right hleft]
    exact ite_eq_left_iff.mpr fun hover => le_antisymm hleft (not_lt.mp hover)

/-- What is left of the last call on a key is the most if no earlier one has more left. -/
theorem isGreatest_last_iff {α : Type*} [Preorder α] (f : BlockCall → α)
    {before after : List BlockCall} (h : ∀ d ∈ after, d.key ≠ c.key) :
    IsGreatest (f '' {d ∈ before ++ c :: after | d.key = c.key}) (f c) ↔
      ∀ d ∈ before, d.key = c.key → f d ≤ f c := by
  constructor
  · intro hmax d hd hk
    exact hmax.2 ⟨d, ⟨List.mem_append_left _ hd, hk⟩, rfl⟩
  · intro hle
    refine ⟨⟨c, ⟨List.mem_append_right _ List.mem_cons_self, rfl⟩, rfl⟩, ?_⟩
    rintro _ ⟨d, ⟨hd, hk⟩, rfl⟩
    rcases List.mem_append.mp hd with hd | hd
    · exact hle d hd hk
    · rcases List.mem_cons.mp hd with rfl | hd
      · exact le_rfl
      · exact absurd hk (h d hd)

/-- **Blocks.** In both stores the time left of a block is what is left of the last call on its
key. It is the longest of what is left of all calls on the key if and only if none of the
earlier ones has more left. -/
theorem blockTtl_last (m : MemoryBlocks) (r : RedisStore) (before after : List BlockCall)
    (h : ∀ d ∈ after, d.key ≠ c.key) (t : ℤ) :
    (m.calls (before ++ c :: after)).blockTtl t c.key = c.remaining t ∧
    (r.calls (before ++ c :: after)).blockTtl t c.key = c.remainingRedis t ∧
    (IsGreatest ((·.remaining t) '' {d ∈ before ++ c :: after | d.key = c.key})
        ((m.calls (before ++ c :: after)).blockTtl t c.key) ↔
      ∀ d ∈ before, d.key = c.key → d.remaining t ≤ c.remaining t) ∧
    (IsGreatest ((·.remainingRedis t) '' {d ∈ before ++ c :: after | d.key = c.key})
        ((r.calls (before ++ c :: after)).blockTtl t c.key) ↔
      ∀ d ∈ before, d.key = c.key → d.remainingRedis t ≤ c.remainingRedis t) := by
  have hm : (m.calls (before ++ c :: after)).blockTtl t c.key = c.remaining t :=
    MemoryBlocks.blockTtl_calls h
  have hr : (r.calls (before ++ c :: after)).blockTtl t c.key = c.remainingRedis t :=
    RedisStore.blockTtl_calls h
  refine ⟨hm, hr, ?_, ?_⟩
  · rw [hm]
    exact isGreatest_last_iff (·.remaining t) h
  · rw [hr]
    exact isGreatest_last_iff (·.remainingRedis t) h

namespace Demo

/-- A block by an operator, for an hour. -/
def hour : BlockCall := { time := 0, key := .sess 0, ttlMs := 3600000, reason := "admin" }

/-- A block after failed challenges, a second later and for ten minutes. -/
def tenMinutes : BlockCall :=
  { time := 1000, key := .sess 0, ttlMs := 600000, reason := "challenge_failed" }

end Demo

/-- An hour after ten minutes, and a block of a network: the session is blocked for the hour. -/
theorem blockTtl_last_hour :
    (RedisStore.empty.calls
      ([Demo.tenMinutes] ++ Demo.hour :: [{ Demo.hour with key := .net "n" }])).blockTtl
        1000 (.sess 0) = 3599000 ∧
    IsGreatest ((·.remainingRedis 1000) ''
      {d ∈ [Demo.tenMinutes] ++ Demo.hour :: [{ Demo.hour with key := .net "n" }] |
        d.key = .sess 0})
      ((RedisStore.empty.calls
        ([Demo.tenMinutes] ++ Demo.hour :: [{ Demo.hour with key := .net "n" }])).blockTtl
          1000 (.sess 0)) := by
  have hkey : ∀ d ∈ [{ Demo.hour with key := .net "n" }], d.key ≠ Demo.hour.key := by
    intro d hd
    rw [List.mem_singleton.mp hd]
    decide
  obtain ⟨-, httl, -, hmax⟩ := blockTtl_last (fun _ => none) RedisStore.empty
    [Demo.tenMinutes] [{ Demo.hour with key := .net "n" }] hkey 1000
  refine ⟨httl.trans (by decide +kernel), hmax.mpr ?_⟩
  intro d hd _
  rw [List.mem_singleton.mp hd]
  decide +kernel

/-- Ten minutes after an hour: the session is blocked for the ten minutes only. -/
theorem blockTtl_shortened :
    ¬ IsGreatest
      ((·.remaining 1000) '' {d ∈ [Demo.hour] ++ Demo.tenMinutes :: [] | d.key = .sess 0})
      ((MemoryBlocks.calls (fun _ => none) ([Demo.hour] ++ Demo.tenMinutes :: [])).blockTtl
        1000 (.sess 0)) ∧
    ¬ IsGreatest
      ((·.remainingRedis 1000) '' {d ∈ [Demo.hour] ++ Demo.tenMinutes :: [] | d.key = .sess 0})
      ((RedisStore.empty.calls ([Demo.hour] ++ Demo.tenMinutes :: [])).blockTtl
        1000 (.sess 0)) := by
  constructor
  · intro h
    have hle := h.2 ⟨Demo.hour, ⟨List.mem_append_left _ List.mem_cons_self, rfl⟩, rfl⟩
    revert hle
    decide +kernel
  · intro h
    have hle := h.2 ⟨Demo.hour, ⟨List.mem_append_left _ List.mem_cons_self, rfl⟩, rfl⟩
    revert hle
    decide +kernel

end RoomBackend
