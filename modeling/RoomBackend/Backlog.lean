import RoomBackend.Redis

/-! # The two history stores

A history is a bounded log: a message is put at the end, and what is older than the last `keep`
is dropped. `MemoryStore` does that for every bound. `RedisStore` asks `LTRIM` to keep the
messages from `-keep` on, and `-0` is the beginning of the list: a bound of `0` drops nothing
there. For all other bounds the two stores hold the same messages (`Mirrors`). -/

namespace RoomBackend

open Expiring

/-- The last `n` elements of a log. -/
def latest {α : Type*} (n : ℕ) (v : List α) : List α := v.drop (v.length - n)

theorem length_latest {α : Type*} (n : ℕ) (v : List α) : (latest n v).length = min n v.length := by
  rw [latest, List.length_drop]
  omega

/-! ### Operations -/

/-- An operation on the history of a room. -/
inductive HistoryOp where
  | appendMessage (roomId : String) (msg : StoredMessage) (keep : ℕ) (expireAt : ℤ)
  | recentMessages (roomId : String) (limit : ℕ)
  | deleteRoom (roomId : String)

namespace HistoryOp

def roomId : HistoryOp → String
  | appendMessage roomId _ _ _ | recentMessages roomId _ | deleteRoom roomId => roomId

/-- The bound of an append. -/
def keep : HistoryOp → Option ℕ
  | appendMessage _ _ keep _ => some keep
  | _ => none

/-- The expiry of an append. -/
def expireAt : HistoryOp → Option ℤ
  | appendMessage _ _ _ expireAt => some expireAt
  | _ => none

/-- `v'` is what the operation has to make of the list `v`. -/
def Bounds (v v' : List StoredMessage) : HistoryOp → Prop
  | appendMessage _ msg keep _ => v' = latest keep (v ++ [msg])
  | _ => True

end HistoryOp

/-- What is in the history of a room. -/
def Store.held (s : Store) (now : ℤ) (roomId : String) : List StoredMessage :=
  (s.lists.lookup now roomId).getD []

def RedisStore.held (r : RedisStore) (now : ℤ) (roomId : String) : List StoredMessage :=
  (Redis.get r.lists now roomId).getD []

/-- What is answered, and the store afterwards. -/
def Store.operate (s : Store) (now : ℤ) : HistoryOp → List StoredMessage × Store
  | .appendMessage roomId msg keep expireAt =>
      ([], (s.appendMessage now roomId msg keep expireAt).2)
  | .recentMessages roomId limit => s.recentMessages now roomId limit
  | .deleteRoom roomId => ([], (s.deleteRoom roomId).2)

def RedisStore.operate (r : RedisStore) (now : ℤ) : HistoryOp → List StoredMessage × RedisStore
  | .appendMessage roomId msg keep expireAt => ([], r.appendMessage now roomId msg keep expireAt)
  | .recentMessages roomId limit => (r.recentMessages now roomId limit, r)
  | .deleteRoom roomId => ([], r.deleteRoom roomId)

/-- No operation comes after the expiry of the list it is about. -/
def Timely (s : Store) : List (ℤ × HistoryOp) → Prop
  | [] => True
  | (now, op) :: ops =>
      (∀ e ∈ s.lists op.roomId, now < e.exp) ∧ (∀ x ∈ op.expireAt, now < x) ∧
        Timely (s.operate now op).2 ops

/-- The stores give the same answers, and each append leaves the bounded list in both. -/
def Agree (s : Store) (r : RedisStore) : List (ℤ × HistoryOp) → Prop
  | [] => True
  | (now, op) :: ops =>
      (s.operate now op).1 = (r.operate now op).1 ∧
        op.Bounds (s.held now op.roomId) ((s.operate now op).2.held now op.roomId) ∧
        op.Bounds (r.held now op.roomId) ((r.operate now op).2.held now op.roomId) ∧
        Agree (s.operate now op).2 (r.operate now op).2 ops

instance (v v' : List StoredMessage) (op : HistoryOp) : Decidable (op.Bounds v v') :=
  match op with
  | .appendMessage _ _ _ _ => inferInstanceAs (Decidable (_ = _))
  | .recentMessages _ _ | .deleteRoom _ => isTrue trivial

instance decidableTimely (s : Store) : (ops : List (ℤ × HistoryOp)) → Decidable (Timely s ops)
  | [] => isTrue trivial
  | (now, op) :: ops =>
      have := decidableTimely (s.operate now op).2 ops
      inferInstanceAs (Decidable (_ ∧ _ ∧ _))

instance decidableAgree (s : Store) (r : RedisStore) :
    (ops : List (ℤ × HistoryOp)) → Decidable (Agree s r ops)
  | [] => isTrue trivial
  | (now, op) :: ops =>
      have := decidableAgree (s.operate now op).2 (r.operate now op).2 ops
      inferInstanceAs (Decidable (_ ∧ _ ∧ _ ∧ _))

/-! ### The stores hold the same -/

/-- The lists of the two stores are the same, and expire a grace period apart. -/
def Mirrors (s : Store) (r : RedisStore) : Prop :=
  ∀ roomId, r.lists roomId = (s.lists roomId).map fun e => ⟨e.v, e.exp + ROOM_GRACE_MS⟩

variable {s : Store} {r : RedisStore} {now : ℤ} {op : HistoryOp}

theorem mirrors_empty : Mirrors Store.empty RedisStore.empty := fun _ => rfl

theorem Mirrors.lookup (h : Mirrors s r) {roomId : String}
    (hl : ∀ e ∈ s.lists roomId, now < e.exp) :
    Redis.get r.lists now roomId = s.lists.lookup now roomId := by
  unfold Redis.get Map.lookup
  rw [h roomId]
  cases he : s.lists roomId with
  | none => rfl
  | some e =>
      have hlt := hl e he
      have hgrace : ¬ e.exp + ROOM_GRACE_MS ≤ now - 1 := by
        unfold ROOM_GRACE_MS
        omega
      simp only [Option.map_some]
      rw [if_neg (not_le.mpr hlt), if_neg hgrace]

theorem Mirrors.write (h : Mirrors s r) (roomId : String) (v : List StoredMessage) (exp : ℤ) :
    Mirrors { s with lists := s.lists.write roomId v exp }
      { r with lists := r.lists.write roomId v (exp + ROOM_GRACE_MS) } := by
  intro roomId'
  show r.lists.write roomId v (exp + ROOM_GRACE_MS) roomId' =
    (s.lists.write roomId v exp roomId').map _
  by_cases hk : roomId' = roomId
  · subst hk
    rw [Map.write_same, Map.write_same]
    rfl
  · rw [Map.write_ne _ _ _ hk, Map.write_ne _ _ _ hk]
    exact h roomId'

theorem Mirrors.deleteRoom (h : Mirrors s r) (roomId : String) :
    Mirrors (s.deleteRoom roomId).2 (r.deleteRoom roomId) := by
  intro roomId'
  show r.lists.erase roomId roomId' = (s.lists.erase roomId roomId').map _
  by_cases hk : roomId' = roomId
  · subst hk
    rw [Map.erase_same, Map.erase_same]
    rfl
  · rw [Map.erase_ne _ hk, Map.erase_ne _ hk]
    exact h roomId'

/-! ### One operation -/

theorem Store.held_append {roomId : String} {msg : StoredMessage} {keep : ℕ} {exp : ℤ}
    (he : now < exp) : (s.appendMessage now roomId msg keep exp).2.held now roomId =
      latest keep (s.held now roomId ++ [msg]) := by
  have hl : ∃ e, (s.appendMessage now roomId msg keep exp).2.lists roomId = some e ∧
      now < e.exp ∧ e.v = latest keep (s.held now roomId ++ [msg]) :=
    ⟨_, Map.write_same .., he, rfl⟩
  rw [Store.held, Map.lookup_eq_some.mpr hl, Option.getD_some]

/-- A list that has not expired is written to, and lives for the grace period too. -/
theorem RedisStore.appendMessage_eq {roomId : String} {msg : StoredMessage} {keep : ℕ} {exp : ℤ}
    (he : now < exp) : r.appendMessage now roomId msg keep exp =
      { r with
        lists := r.lists.write roomId (Redis.range (r.held now roomId ++ [msg]) (-keep) (-1))
          (exp + ROOM_GRACE_MS) } := by
  have hahead : ¬ exp + ROOM_GRACE_MS ≤ now := by
    unfold ROOM_GRACE_MS
    omega
  unfold RedisStore.appendMessage
  dsimp only
  rw [if_neg hahead]
  rfl

theorem RedisStore.held_append {roomId : String} {msg : StoredMessage} {keep : ℕ} {exp : ℤ}
    (he : now < exp) : (r.appendMessage now roomId msg keep exp).held now roomId =
      Redis.range (r.held now roomId ++ [msg]) (-keep) (-1) := by
  have hl : ∃ e, (r.appendMessage now roomId msg keep exp).lists roomId = some e ∧
      now - 1 < e.exp ∧ e.v = Redis.range (r.held now roomId ++ [msg]) (-keep) (-1) := by
    rw [RedisStore.appendMessage_eq he]
    refine ⟨_, Map.write_same .., ?_, rfl⟩
    show now - 1 < exp + ROOM_GRACE_MS
    unfold ROOM_GRACE_MS
    omega
  rw [RedisStore.held, Redis.get, Map.lookup_eq_some.mpr hl, Option.getD_some]

/-- `MemoryStore` keeps to every bound. -/
theorem Store.bounds (hx : ∀ x ∈ op.expireAt, now < x) :
    op.Bounds (s.held now op.roomId) ((s.operate now op).2.held now op.roomId) := by
  cases op with
  | appendMessage roomId msg keep exp => exact Store.held_append (hx exp rfl)
  | recentMessages => trivial
  | deleteRoom => trivial

/-- `RedisStore` keeps to every bound but `0`, where everything stays. -/
theorem RedisStore.bounds_iff (hx : ∀ x ∈ op.expireAt, now < x) :
    op.Bounds (r.held now op.roomId) ((r.operate now op).2.held now op.roomId) ↔
      op.keep ≠ some 0 := by
  cases op with
  | appendMessage roomId msg keep exp =>
      show (r.appendMessage now roomId msg keep exp).held now roomId =
        latest keep (r.held now roomId ++ [msg]) ↔ some keep ≠ some 0
      rw [RedisStore.held_append (hx exp rfl)]
      constructor
      · rintro he hk
        cases hk
        rw [Nat.cast_zero, neg_zero, Redis.range_zero] at he
        have hlen := congrArg List.length he
        rw [length_latest, List.length_append] at hlen
        simp at hlen
      · intro hk
        exact Redis.range_neg _ fun h0 => hk (congrArg some h0)
  | recentMessages => simp [HistoryOp.Bounds, HistoryOp.keep]
  | deleteRoom => simp [HistoryOp.Bounds, HistoryOp.keep]

/-- An operation other than an append that keeps nothing has one answer and one effect. -/
theorem Mirrors.operate (h : Mirrors s r) (hl : ∀ e ∈ s.lists op.roomId, now < e.exp)
    (hx : ∀ x ∈ op.expireAt, now < x) (hk : op.keep ≠ some 0) :
    (s.operate now op).1 = (r.operate now op).1 ∧
      Mirrors (s.operate now op).2 (r.operate now op).2 := by
  have hlook := h.lookup hl
  cases op with
  | appendMessage roomId msg keep exp =>
      replace hlook : Redis.get r.lists now roomId = s.lists.lookup now roomId := hlook
      refine ⟨rfl, ?_⟩
      show Mirrors _ (r.appendMessage now roomId msg keep exp)
      replace hlook : r.held now roomId = (s.lists.lookup now roomId).getD [] :=
        congrArg (Option.getD · []) hlook
      rw [RedisStore.appendMessage_eq (hx exp rfl), hlook,
        Redis.range_neg _ fun h0 => hk (congrArg some h0)]
      exact h.write roomId _ exp
  | recentMessages roomId limit =>
      refine ⟨?_, h⟩
      show (s.recentMessages now roomId limit).1 = r.recentMessages now roomId limit
      replace hlook : Redis.get r.lists now roomId = s.lists.lookup now roomId := hlook
      unfold Store.recentMessages RedisStore.recentMessages
      dsimp only
      by_cases hlim : limit = 0
      · rw [if_pos hlim, if_pos hlim]
      · rw [if_neg hlim, if_neg hlim, hlook, Redis.range_neg _ hlim]
  | deleteRoom roomId => exact ⟨rfl, h.deleteRoom roomId⟩

/-! ### Sequences -/

theorem Mirrors.agree_iff (h : Mirrors s r) (ops : List (ℤ × HistoryOp)) (ht : Timely s ops) :
    Agree s r ops ↔ ∀ p ∈ ops, p.2.keep ≠ some 0 := by
  induction ops generalizing s r with
  | nil => simp [Agree]
  | cons p ops ih =>
      obtain ⟨now, op⟩ := p
      obtain ⟨hl, hx, htail⟩ := ht
      rw [List.forall_mem_cons]
      constructor
      · rintro ⟨-, -, hb, hrest⟩
        have hk := (RedisStore.bounds_iff hx).mp hb
        exact ⟨hk, (ih (h.operate hl hx hk).2 htail).mp hrest⟩
      · rintro ⟨hk, hrest⟩
        have hop := h.operate hl hx hk
        exact ⟨hop.1, Store.bounds hx, (RedisStore.bounds_iff hx).mpr hk,
          (ih hop.2 htail).mpr hrest⟩

/-- **The two history stores.** Before the lists expire, `MemoryStore` and `RedisStore` give the
same answers and every append leaves the last `keep` messages in both, if and only if no append
has the bound `0`. -/
theorem histories_agree_iff (ops : List (ℤ × HistoryOp)) (ht : Timely Store.empty ops) :
    Agree Store.empty RedisStore.empty ops ↔ ∀ p ∈ ops, p.2.keep ≠ some 0 :=
  mirrors_empty.agree_iff ops ht

namespace Demo

/-- A message of a history. -/
def entry (id : ℕ) : StoredMessage :=
  { id, author := "Quiet Fox", text := "hello", ts := 0, country := none, sid := 0 }

end Demo

/-- Two messages to a history of one, which is then read. -/
theorem histories_agree_one : Agree Store.empty RedisStore.empty
    [(0, .appendMessage "day" (Demo.entry 0) 1 100),
      (1, .appendMessage "day" (Demo.entry 1) 1 100), (2, .recentMessages "day" 5)] := by
  apply (histories_agree_iff _ ?_).mpr
  · decide
  · decide

/-- A message to a history of none stays in Redis. -/
theorem histories_differ_zero :
    Timely Store.empty
        [(0, .appendMessage "day" (Demo.entry 0) 0 100), (1, .recentMessages "day" 5)] ∧
      ¬ Agree Store.empty RedisStore.empty
        [(0, .appendMessage "day" (Demo.entry 0) 0 100), (1, .recentMessages "day" 5)] := by
  decide

end RoomBackend
