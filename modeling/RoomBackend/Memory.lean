import Mathlib.Data.List.Basic
import RoomBackend.Keys

/-! # One map for everything (`store/memory.ts`)

`MemoryStore` keeps names, sessions, resume tokens, counters, sets, blocks and locks in one map
from strings to values of any type, and casts what it reads. `Store` keeps them in maps of their
own. Whatever operations are performed, at whatever instants, both answer the same
(`memory_refines`): no key is read as another one, so every cast finds a value of its type, and
deleting a room removes the names of this room only. Presence and the abuse log have no string
keys and are left out here. -/

namespace RoomBackend

open Expiring

/-! ### The store with string keys -/

/-- `unknown`: the values of `kv`. -/
inductive Value where
  | string (s : List Char)
  | number (n : ℕ)
  | record (r : SessionRecord)
  | set (members : List (List Char))

/-- `get<number>(k) ?? 0`, for a value that is a number. -/
def Value.toNumber : Option Value → Option ℕ
  | none => some 0
  | some (number n) => some n
  | some _ => none

/-- `get<Set<string>>(k) ?? new Set()`, for a value that is a set. -/
def Value.toSet : Option Value → Option (List (List Char))
  | none => some []
  | some (set members) => some members
  | some _ => none

/-- `MemoryStore`. -/
structure MemoryStore where
  kv : Map (List Char) Value
  lists : Map (List Char) (List StoredMessage)

namespace MemoryStore

def empty : MemoryStore := { kv := Map.empty, lists := Map.empty }

variable (m : MemoryStore) (now : ℤ)

/-- `get`. -/
def get (key : List Char) : Option Value × MemoryStore :=
  let r := m.kv.read now key
  (r.1, { m with kv := r.2 })

/-- `put`. -/
def put (key : List Char) (v : Value) (exp : ℤ) : MemoryStore :=
  { m with kv := m.kv.write key v exp }

/-- The key of a name: `name:${roomId}:${name}`. -/
def nameKey (roomId name : List Char) : List Char := "name:".toList ++ (roomId ++ ':' :: name)

/-- `claimName`. -/
def claimName (roomId name sid : List Char) (expireAt : ℤ) : Bool × MemoryStore :=
  let key := nameKey roomId name
  let r := m.get now key
  if r.1.isSome then (false, r.2) else (true, r.2.put key (.string sid) expireAt)

/-- `nameOwner`. -/
def nameOwner (roomId name : List Char) : Option Value × MemoryStore :=
  m.get now (nameKey roomId name)

/-- `saveSession`: `sid` is that of the record. -/
def saveSession (sid : List Char) (r : SessionRecord) (expireAt : ℤ) : MemoryStore :=
  m.put ("sess:".toList ++ sid) (.record r) expireAt

/-- `getSession`. -/
def getSession (sid : List Char) : Option Value × MemoryStore := m.get now ("sess:".toList ++ sid)

/-- `setResume`. -/
def setResume (hash sid : List Char) (expireAt : ℤ) : MemoryStore :=
  m.put ("resume:".toList ++ hash) (.string sid) expireAt

/-- `resolveResume`. -/
def resolveResume (hash : List Char) : Option Value × MemoryStore :=
  m.get now ("resume:".toList ++ hash)

/-- `appendMessage`. -/
def appendMessage (roomId : List Char) (msg : StoredMessage) (keep : ℕ) (expireAt : ℤ) :
    MemoryStore :=
  let key := "msgs:".toList ++ roomId
  let old :=
    match m.lists key with
    | none => []
    | some e => if e.exp ≤ now then [] else e.v
  let v := old ++ [msg]
  let v := if v.length > keep then v.drop (v.length - keep) else v
  { m with lists := m.lists.write key v expireAt }

/-- `recentMessages`. -/
def recentMessages (roomId : List Char) (limit : ℕ) : List StoredMessage :=
  match m.lists ("msgs:".toList ++ roomId) with
  | none => []
  | some e => if e.exp ≤ now ∨ limit ≤ 0 then [] else e.v.drop (e.v.length - limit)

/-- `deleteRoom`: the keys of `kv` that start with `name:${roomId}:` are removed. -/
def deleteRoom (roomId : List Char) : MemoryStore :=
  { kv := fun k => if "name:".toList ++ roomId ++ [':'] <+: k then none else m.kv k
    lists := m.lists.erase ("msgs:".toList ++ roomId) }

/-- `hit`: no answer where the value is no number. -/
def hit (key : List Char) (windowMs : ℤ) : Option ℕ × MemoryStore :=
  let k := "rl:".toList ++ (key ++ ':' :: (toString (now / windowMs)).toList)
  let r := m.get now k
  match Value.toNumber r.1 with
  | none => (none, r.2)
  | some n => (some (n + 1), r.2.put k (.number (n + 1)) (now + windowMs))

/-- `addToSet`: no answer where the value is no set. -/
def addToSet (key member : List Char) (ttlMs : ℤ) : Option ℕ × MemoryStore :=
  let k := "set:".toList ++ key
  let r := m.get now k
  match Value.toSet r.1 with
  | none => (none, r.2)
  | some v => (some (v.insert member).length, r.2.put k (.set (v.insert member)) (now + ttlMs))

/-- `setBlock`. -/
def setBlock (key : List Char) (ttlMs : ℤ) (reason : List Char) : MemoryStore :=
  m.put ("block:".toList ++ key) (.string reason) (now + ttlMs)

/-- `blockTtl`, which reads past `get`. -/
def blockTtl (key : List Char) : ℤ :=
  match m.kv ("block:".toList ++ key) with
  | none => 0
  | some e => max 0 (e.exp - now)

/-- `deleteBlock`. -/
def deleteBlock (key : List Char) : MemoryStore :=
  { m with kv := m.kv.erase ("block:".toList ++ key) }

/-- `acquireOnce`. -/
def acquireOnce (key : List Char) (ttlMs : ℤ) : Bool × MemoryStore :=
  let k := "lock:".toList ++ key
  let r := m.get now k
  if r.1.isSome then (false, r.2) else (true, r.2.put k (.number 1) (now + ttlMs))

end MemoryStore

/-! ### Operations and their answers -/

section answers

variable {σ τ ι ω : Type*}

/-- What an object answers to operations performed one after the other. -/
def answers (f : σ → ι → ω × σ) : σ → List ι → List ω
  | _, [] => []
  | x, o :: os => (f x o).1 :: answers f (f x o).2 os

/-- Objects that answer every operation alike, and stay alike, answer alike for ever. -/
theorem answers_eq {f : σ → ι → ω × σ} {g : τ → ι → ω × τ} {R : σ → τ → Prop} {P : ι → Prop}
    (hstep : ∀ x y o, R x y → P o → (f x o).1 = (g y o).1 ∧ R (f x o).2 (g y o).2)
    {x : σ} {y : τ} (h : R x y) {os : List ι} (hos : ∀ o ∈ os, P o) :
    answers f x os = answers g y os := by
  induction os generalizing x y with
  | nil => rfl
  | cons o os ih =>
      obtain ⟨ha, hr⟩ := hstep x y o h (hos o List.mem_cons_self)
      exact congrArg₂ List.cons ha (ih hr fun o' ho' => hos o' (List.mem_cons_of_mem _ ho'))

theorem forall_mem_answers {g : τ → ι → ω × τ} {Q : ω → Prop} (hQ : ∀ y o, Q (g y o).1) {y : τ}
    {os : List ι} : ∀ a ∈ answers g y os, Q a := by
  induction os generalizing y with
  | nil => exact fun _ ha => by cases ha
  | cons o os ih =>
      intro a ha
      rcases List.mem_cons.mp ha with rfl | ha
      · exact hQ y o
      · exact ih a ha

end answers

/-- An operation of the store. -/
inductive StoreOp where
  | claimName (roomId name : String) (sid : Sid) (expireAt : ℤ)
  | nameOwner (roomId name : String)
  | saveSession (r : SessionRecord) (expireAt : ℤ)
  | getSession (sid : Sid)
  | setResume (hash : TokenHash) (sid : Sid) (expireAt : ℤ)
  | resolveResume (hash : TokenHash)
  | appendMessage (roomId : String) (msg : StoredMessage) (keep : ℕ) (expireAt : ℤ)
  | recentMessages (roomId : String) (limit : ℕ)
  | deleteRoom (roomId : String)
  | hit (key : CounterKey) (windowMs : ℤ)
  | addToSet (roomId textHash : String) (member : Sid) (ttlMs : ℤ)
  | setBlock (key : BlockKey) (ttlMs : ℤ) (reason : String)
  | blockTtl (key : BlockKey)
  | deleteBlock (key : BlockKey)
  | acquireOnce (key : String) (ttlMs : ℤ)

/-- The rooms an operation names have no colon in their ids. -/
def StoreOp.Plain : StoreOp → Prop
  | claimName roomId _ _ _ => ':' ∉ roomId.toList
  | nameOwner roomId _ => ':' ∉ roomId.toList
  | deleteRoom roomId => ':' ∉ roomId.toList
  | addToSet roomId _ _ _ => ':' ∉ roomId.toList
  | _ => True

/-- What an operation answers; `miscast`: a value was read as one of another type. -/
inductive Answer where
  | miscast
  | unit
  | bool (b : Bool)
  | value (v : Option Value)
  | messages (v : List StoredMessage)
  | number (n : ℤ)

variable (sp : Spelling)

/-- The operation, with its arguments spelled out, on the string keys. -/
def MemoryStore.perform (m : MemoryStore) : ℤ × StoreOp → Answer × MemoryStore
  | (now, .claimName roomId name sid expireAt) =>
      let x := m.claimName now roomId.toList name.toList (sp.sid sid) expireAt
      (.bool x.1, x.2)
  | (now, .nameOwner roomId name) =>
      let x := m.nameOwner now roomId.toList name.toList
      (.value x.1, x.2)
  | (_, .saveSession r expireAt) => (.unit, m.saveSession (sp.sid r.sid) r expireAt)
  | (now, .getSession sid) =>
      let x := m.getSession now (sp.sid sid)
      (.value x.1, x.2)
  | (_, .setResume hash sid expireAt) =>
      (.unit, m.setResume (sp.hash hash) (sp.sid sid) expireAt)
  | (now, .resolveResume hash) =>
      let x := m.resolveResume now (sp.hash hash)
      (.value x.1, x.2)
  | (now, .appendMessage roomId msg keep expireAt) =>
      (.unit, m.appendMessage now roomId.toList msg keep expireAt)
  | (now, .recentMessages roomId limit) => (.messages (m.recentMessages now roomId.toList limit), m)
  | (_, .deleteRoom roomId) => (.unit, m.deleteRoom roomId.toList)
  | (now, .hit key windowMs) =>
      let x := m.hit now (key.text sp) windowMs
      (x.1.elim .miscast fun n => .number n, x.2)
  | (now, .addToSet roomId textHash member ttlMs) =>
      let x := m.addToSet now ("dup:".toList ++ (roomId.toList ++ ':' :: textHash.toList))
        (sp.sid member) ttlMs
      (x.1.elim .miscast fun n => .number n, x.2)
  | (now, .setBlock key ttlMs reason) => (.unit, m.setBlock now (key.text sp) ttlMs reason.toList)
  | (now, .blockTtl key) => (.number (m.blockTtl now (key.text sp)), m)
  | (_, .deleteBlock key) => (.unit, m.deleteBlock (key.text sp))
  | (now, .acquireOnce key ttlMs) =>
      let x := m.acquireOnce now key.toList ttlMs
      (.bool x.1, x.2)

/-- The operation on the separate maps, its answer spelled out. -/
def Store.perform (s : Store) : ℤ × StoreOp → Answer × Store
  | (now, .claimName roomId name sid expireAt) =>
      let x := s.claimName now roomId name sid expireAt
      (.bool x.1, x.2)
  | (now, .nameOwner roomId name) =>
      let x := s.nameOwner now roomId name
      (.value (x.1.map fun sid => .string (sp.sid sid)), x.2)
  | (_, .saveSession r expireAt) => (.unit, (s.saveSession r expireAt).2)
  | (now, .getSession sid) =>
      let x := s.getSession now sid
      (.value (x.1.map .record), x.2)
  | (_, .setResume hash sid expireAt) => (.unit, (s.setResume hash sid expireAt).2)
  | (now, .resolveResume hash) =>
      let x := s.resolveResume now hash
      (.value (x.1.map fun sid => .string (sp.sid sid)), x.2)
  | (now, .appendMessage roomId msg keep expireAt) =>
      (.unit, (s.appendMessage now roomId msg keep expireAt).2)
  | (now, .recentMessages roomId limit) => (.messages (s.recentMessages now roomId limit).1, s)
  | (_, .deleteRoom roomId) => (.unit, (s.deleteRoom roomId).2)
  | (now, .hit key windowMs) =>
      let x := s.hit now key windowMs
      (.number x.1, x.2)
  | (now, .addToSet roomId textHash member ttlMs) =>
      let x := s.addToSet now (roomId, textHash) member ttlMs
      (.number x.1, x.2)
  | (now, .setBlock key ttlMs reason) => (.unit, (s.setBlock now key ttlMs reason).2)
  | (now, .blockTtl key) => (.number (s.blockTtl now key).1, s)
  | (_, .deleteBlock key) => (.unit, (s.deleteBlock key).2)
  | (now, .acquireOnce key ttlMs) =>
      let x := s.acquireOnce now key ttlMs
      (.bool x.1, x.2)

/-! ### The maps in one -/

/-- The entry that stands under a key, among the separate maps. -/
def Store.kv (s : Store) : Map Key Value
  | .name roomId name => (s.names (roomId, name)).map (Entry.map fun sid => .string (sp.sid sid))
  | .sess sid => (s.sess sid).map (Entry.map .record)
  | .resume hash => (s.resume hash).map (Entry.map fun sid => .string (sp.sid sid))
  | .rl key window => (s.counters (key, window)).map (Entry.map .number)
  | .set roomId textHash =>
      (s.sets (roomId, textHash)).map (Entry.map fun v => .set (v.map sp.sid))
  | .block key => (s.blocks key).map (Entry.map fun reason => .string reason.toList)
  | .lock name => (s.locks name).map (Entry.map fun _ => .number 1)

/-- The string keys hold what the separate maps hold. -/
structure Models (m : MemoryStore) (s : Store) : Prop where
  kv : ∀ k : Key, k.Plain → m.kv (k.text sp) = s.kv sp k
  lists : ∀ roomId : String, m.lists ("msgs:".toList ++ roomId.toList) = s.lists roomId

/-- One of the separate maps, how its keys and values are spelled, and that to set it is to set
what stands under its keys. -/
structure Slot (κ α : Type) where
  key : κ → Key
  value : α → Value
  get : Store → Map κ α
  set : Store → Map κ α → Store
  kv_set : ∀ s v k, (set s v).kv sp (key k) = (v k).map (Entry.map value)
  kv_set_ne : ∀ s v k', (∀ k, key k ≠ k') → (set s v).kv sp k' = s.kv sp k'
  set_get : ∀ s, set s (get s) = s
  lists_set : ∀ s v, (set s v).lists = s.lists

namespace Slot

def names : Slot sp (String × String) Sid where
  key k := .name k.1 k.2
  value sid := .string (sp.sid sid)
  get s := s.names
  set s v := { s with names := v }
  kv_set _ _ _ := rfl
  kv_set_ne _ _ k' h := by cases k' <;> first | rfl | exact absurd rfl (h (_, _))
  set_get _ := rfl
  lists_set _ _ := rfl

def sess : Slot sp Sid SessionRecord where
  key := .sess
  value := .record
  get s := s.sess
  set s v := { s with sess := v }
  kv_set _ _ _ := rfl
  kv_set_ne _ _ k' h := by cases k' <;> first | rfl | exact absurd rfl (h _)
  set_get _ := rfl
  lists_set _ _ := rfl

def resume : Slot sp TokenHash Sid where
  key := .resume
  value sid := .string (sp.sid sid)
  get s := s.resume
  set s v := { s with resume := v }
  kv_set _ _ _ := rfl
  kv_set_ne _ _ k' h := by cases k' <;> first | rfl | exact absurd rfl (h _)
  set_get _ := rfl
  lists_set _ _ := rfl

def counters : Slot sp (CounterKey × ℤ) ℕ where
  key k := .rl k.1 k.2
  value := .number
  get s := s.counters
  set s v := { s with counters := v }
  kv_set _ _ _ := rfl
  kv_set_ne _ _ k' h := by cases k' <;> first | rfl | exact absurd rfl (h (_, _))
  set_get _ := rfl
  lists_set _ _ := rfl

def sets : Slot sp (String × String) (List Sid) where
  key k := .set k.1 k.2
  value v := .set (v.map sp.sid)
  get s := s.sets
  set s v := { s with sets := v }
  kv_set _ _ _ := rfl
  kv_set_ne _ _ k' h := by cases k' <;> first | rfl | exact absurd rfl (h (_, _))
  set_get _ := rfl
  lists_set _ _ := rfl

def blocks : Slot sp BlockKey String where
  key := .block
  value reason := .string reason.toList
  get s := s.blocks
  set s v := { s with blocks := v }
  kv_set _ _ _ := rfl
  kv_set_ne _ _ k' h := by cases k' <;> first | rfl | exact absurd rfl (h _)
  set_get _ := rfl
  lists_set _ _ := rfl

def locks : Slot sp String Unit where
  key := .lock
  value _ := .number 1
  get s := s.locks
  set s v := { s with locks := v }
  kv_set _ _ _ := rfl
  kv_set_ne _ _ k' h := by cases k' <;> first | rfl | exact absurd rfl (h _)
  set_get _ := rfl
  lists_set _ _ := rfl

end Slot

/-! ### Reading and writing a slot -/

namespace Models

variable {sp} {m : MemoryStore} {s : Store}

section slot

variable {κ α : Type} [DecidableEq κ] (c : Slot sp κ α) {k : κ}

omit [DecidableEq κ] in
theorem entry (h : Models sp m s) (hk : (c.key k).Plain) :
    m.kv ((c.key k).text sp) = (c.get s k).map (Entry.map c.value) := by
  rw [h.kv _ hk, ← c.kv_set s (c.get s) k, c.set_get]

/-- What changes under a key of a slot changes under its spelled key only. -/
theorem update (h : Models sp m s) (hk : (c.key k).Plain) (x : Option (Entry α)) :
    Models sp { m with kv := Function.update m.kv ((c.key k).text sp) (x.map (Entry.map c.value)) }
      (c.set s (Function.update (c.get s) k x)) where
  kv k' hk' := by
    by_cases hkk : k' = c.key k
    · rw [hkk, c.kv_set, Function.update_self]
      exact Function.update_self ..
    have htext : k'.text sp ≠ (c.key k).text sp := fun he => hkk (Key.text_inj hk' hk he)
    refine (Function.update_of_ne htext ..).trans ?_
    by_cases hc : ∃ k₀, c.key k₀ = k'
    · obtain ⟨k₀, rfl⟩ := hc
      have hne : k₀ ≠ k := fun he => hkk (congrArg c.key he)
      rw [h.entry c hk', c.kv_set, Function.update_of_ne hne]
    · rw [h.kv k' hk', c.kv_set_ne _ _ _ fun k₀ he => hc ⟨k₀, he⟩]
  lists roomId := by
    rw [c.lists_set]
    exact h.lists roomId

theorem get (h : Models sp m s) (hk : (c.key k).Plain) (now : ℤ) :
    (m.get now ((c.key k).text sp)).1 = ((c.get s).read now k).1.map c.value ∧
      Models sp (m.get now ((c.key k).text sp)).2 (c.set s ((c.get s).read now k).2) := by
  unfold MemoryStore.get Map.read
  rw [h.entry c hk]
  cases c.get s k with
  | none => exact ⟨rfl, (c.set_get s).symm ▸ h⟩
  | some e =>
      by_cases he : e.exp ≤ now
      · simp only [Option.map_some, Entry.map, he, if_true]
        exact ⟨rfl, h.update c hk none⟩
      · simp only [Option.map_some, Entry.map, he, if_false]
        exact ⟨trivial, (c.set_get s).symm ▸ h⟩

theorem put (h : Models sp m s) (hk : (c.key k).Plain) (v : α) (exp : ℤ) :
    Models sp (m.put ((c.key k).text sp) (c.value v) exp) (c.set s ((c.get s).write k v exp)) :=
  h.update c hk (some ⟨v, exp⟩)

theorem erase (h : Models sp m s) (hk : (c.key k).Plain) :
    Models sp { m with kv := m.kv.erase ((c.key k).text sp) } (c.set s ((c.get s).erase k)) :=
  h.update c hk none

end slot

/-! ### The operations -/

section spelled

variable (sp)

theorem name_key (roomId name : String) :
    MemoryStore.nameKey roomId.toList name.toList = (Key.name roomId name).text sp :=
  append_of_tag (by decide : "name:".toList = "name".toList ++ [':']) _

theorem sess_key (sid : Sid) : "sess:".toList ++ sp.sid sid = (Key.sess sid).text sp :=
  append_of_tag (by decide : "sess:".toList = "sess".toList ++ [':']) _

theorem resume_key (hash : TokenHash) :
    "resume:".toList ++ sp.hash hash = (Key.resume hash).text sp :=
  append_of_tag (by decide : "resume:".toList = "resume".toList ++ [':']) _

theorem rl_key (key : CounterKey) (window : ℤ) :
    "rl:".toList ++ (key.text sp ++ ':' :: (toString window).toList) =
      (Key.rl key window).text sp :=
  append_of_tag (by decide : "rl:".toList = "rl".toList ++ [':']) _

theorem set_key (roomId textHash : String) :
    "set:".toList ++ ("dup:".toList ++ (roomId.toList ++ ':' :: textHash.toList)) =
      (Key.set roomId textHash).text sp :=
  append_of_tag (by decide : "set:".toList = "set".toList ++ [':']) _

theorem block_key (key : BlockKey) : "block:".toList ++ key.text sp = (Key.block key).text sp :=
  append_of_tag (by decide : "block:".toList = "block".toList ++ [':']) _

theorem lock_key (key : String) : "lock:".toList ++ key.toList = (Key.lock key).text sp :=
  append_of_tag (by decide : "lock:".toList = "lock".toList ++ [':']) _

end spelled

variable (now : ℤ)

theorem claimName (h : Models sp m s) {roomId : String} (hr : ':' ∉ roomId.toList) (name : String)
    (sid : Sid) (expireAt : ℤ) :
    (m.claimName now roomId.toList name.toList (sp.sid sid) expireAt).1 =
        (s.claimName now roomId name sid expireAt).1 ∧
      Models sp (m.claimName now roomId.toList name.toList (sp.sid sid) expireAt).2
        (s.claimName now roomId name sid expireAt).2 := by
  obtain ⟨hv, hm⟩ := h.get (Slot.names sp) (k := (roomId, name)) hr now
  have hs := (congrArg Option.isSome hv).trans Option.isSome_map
  unfold MemoryStore.claimName Store.claimName
  simp only [name_key sp]
  split_ifs with ht ht' ht'
  · exact ⟨rfl, hm⟩
  · exact absurd (hs.symm.trans ht) ht'
  · exact absurd (hs.trans ht') ht
  · exact ⟨rfl, hm.put (Slot.names sp) (k := (roomId, name)) hr sid expireAt⟩

theorem nameOwner (h : Models sp m s) {roomId : String} (hr : ':' ∉ roomId.toList)
    (name : String) :
    (m.nameOwner now roomId.toList name.toList).1 =
        (s.nameOwner now roomId name).1.map (fun sid => .string (sp.sid sid)) ∧
      Models sp (m.nameOwner now roomId.toList name.toList).2 (s.nameOwner now roomId name).2 := by
  unfold MemoryStore.nameOwner
  rw [name_key sp]
  exact h.get (Slot.names sp) (k := (roomId, name)) hr now

theorem saveSession (h : Models sp m s) (r : SessionRecord) (expireAt : ℤ) :
    Models sp (m.saveSession (sp.sid r.sid) r expireAt) (s.saveSession r expireAt).2 := by
  unfold MemoryStore.saveSession
  rw [sess_key]
  exact h.put (Slot.sess sp) (k := r.sid) trivial r expireAt

theorem getSession (h : Models sp m s) (sid : Sid) :
    (m.getSession now (sp.sid sid)).1 = (s.getSession now sid).1.map .record ∧
      Models sp (m.getSession now (sp.sid sid)).2 (s.getSession now sid).2 := by
  unfold MemoryStore.getSession
  rw [sess_key]
  exact h.get (Slot.sess sp) (k := sid) trivial now

theorem setResume (h : Models sp m s) (hash : TokenHash) (sid : Sid) (expireAt : ℤ) :
    Models sp (m.setResume (sp.hash hash) (sp.sid sid) expireAt)
      (s.setResume hash sid expireAt).2 := by
  unfold MemoryStore.setResume
  rw [resume_key]
  exact h.put (Slot.resume sp) (k := hash) trivial sid expireAt

theorem resolveResume (h : Models sp m s) (hash : TokenHash) :
    (m.resolveResume now (sp.hash hash)).1 =
        (s.resolveResume now hash).1.map (fun sid => .string (sp.sid sid)) ∧
      Models sp (m.resolveResume now (sp.hash hash)).2 (s.resolveResume now hash).2 := by
  unfold MemoryStore.resolveResume
  rw [resume_key]
  exact h.get (Slot.resume sp) (k := hash) trivial now

theorem hit (h : Models sp m s) (key : CounterKey) (windowMs : ℤ) :
    (m.hit now (key.text sp) windowMs).1 = some (s.hit now key windowMs).1 ∧
      Models sp (m.hit now (key.text sp) windowMs).2 (s.hit now key windowMs).2 := by
  obtain ⟨hv, hm⟩ := h.get (Slot.counters sp) (k := (key, now / windowMs)) trivial now
  unfold MemoryStore.hit Store.hit
  rw [rl_key]
  have hn : Value.toNumber (m.get now ((Key.rl key (now / windowMs)).text sp)).1 =
      some ((s.counters.read now (key, now / windowMs)).1.getD 0) := by
    refine (congrArg Value.toNumber hv).trans ?_
    show Value.toNumber (Option.map Value.number (s.counters.read now (key, now / windowMs)).1) = _
    cases (s.counters.read now (key, now / windowMs)).1 <;> rfl
  simp only [hn]
  exact ⟨trivial, hm.put (Slot.counters sp) (k := (key, now / windowMs)) trivial _ _⟩

theorem addToSet (h : Models sp m s) {roomId : String} (hr : ':' ∉ roomId.toList)
    (textHash : String) (member : Sid) (ttlMs : ℤ) :
    (m.addToSet now ("dup:".toList ++ (roomId.toList ++ ':' :: textHash.toList)) (sp.sid member)
        ttlMs).1 = some (s.addToSet now (roomId, textHash) member ttlMs).1 ∧
      Models sp (m.addToSet now ("dup:".toList ++ (roomId.toList ++ ':' :: textHash.toList))
        (sp.sid member) ttlMs).2 (s.addToSet now (roomId, textHash) member ttlMs).2 := by
  obtain ⟨hv, hm⟩ := h.get (Slot.sets sp) (k := (roomId, textHash)) hr now
  have insert_map : ∀ v : List Sid,
      (v.map sp.sid).insert (sp.sid member) = (v.insert member).map sp.sid := by
    intro v
    by_cases hmem : member ∈ v
    · rw [List.insert_of_mem hmem, List.insert_of_mem (List.mem_map_of_mem hmem)]
    · have hmem' : sp.sid member ∉ v.map sp.sid :=
        fun hx => hmem ((List.mem_map_of_injective sp.sid_injective).mp hx)
      rw [List.insert_of_not_mem hmem, List.insert_of_not_mem hmem', List.map_cons]
  unfold MemoryStore.addToSet Store.addToSet
  rw [set_key sp]
  have hset : Value.toSet (m.get now ((Key.set roomId textHash).text sp)).1 =
      some (((s.sets.read now (roomId, textHash)).1.getD []).map sp.sid) := by
    refine (congrArg Value.toSet hv).trans ?_
    show Value.toSet (Option.map (fun v => Value.set (v.map sp.sid))
      (s.sets.read now (roomId, textHash)).1) = _
    cases (s.sets.read now (roomId, textHash)).1 <;> rfl
  simp only [hset, insert_map, List.length_map]
  exact ⟨trivial, hm.put (Slot.sets sp) (k := (roomId, textHash)) hr _ _⟩

theorem setBlock (h : Models sp m s) (key : BlockKey) (ttlMs : ℤ) (reason : String) :
    Models sp (m.setBlock now (key.text sp) ttlMs reason.toList)
      (s.setBlock now key ttlMs reason).2 := by
  unfold MemoryStore.setBlock
  rw [block_key]
  exact h.put (Slot.blocks sp) (k := key) trivial reason (now + ttlMs)

theorem blockTtl (h : Models sp m s) (key : BlockKey) :
    m.blockTtl now (key.text sp) = (s.blockTtl now key).1 := by
  unfold MemoryStore.blockTtl Store.blockTtl
  have he : m.kv ((Key.block key).text sp) = (s.blocks key).map (Entry.map _) :=
    h.entry (Slot.blocks sp) (k := key) trivial
  rw [block_key, he]
  cases s.blocks key <;> rfl

theorem deleteBlock (h : Models sp m s) (key : BlockKey) :
    Models sp (m.deleteBlock (key.text sp)) (s.deleteBlock key).2 := by
  unfold MemoryStore.deleteBlock
  rw [block_key]
  exact h.erase (Slot.blocks sp) (k := key) trivial

theorem acquireOnce (h : Models sp m s) (key : String) (ttlMs : ℤ) :
    (m.acquireOnce now key.toList ttlMs).1 = (s.acquireOnce now key ttlMs).1 ∧
      Models sp (m.acquireOnce now key.toList ttlMs).2 (s.acquireOnce now key ttlMs).2 := by
  obtain ⟨hv, hm⟩ := h.get (Slot.locks sp) (k := key) trivial now
  have hs := (congrArg Option.isSome hv).trans Option.isSome_map
  unfold MemoryStore.acquireOnce Store.acquireOnce
  simp only [lock_key sp]
  split_ifs with ht ht' ht'
  · exact ⟨rfl, hm⟩
  · exact absurd (hs.symm.trans ht) ht'
  · exact absurd (hs.trans ht') ht
  · exact ⟨rfl, hm.put (Slot.locks sp) (k := key) trivial () (now + ttlMs)⟩

theorem lists_key {roomId roomId' : String}
    (h : "msgs:".toList ++ roomId.toList = "msgs:".toList ++ roomId'.toList) : roomId = roomId' :=
  String.toList_inj.mp (List.append_cancel_left h)

theorem held (h : Models sp m s) (roomId : String) :
    (match m.lists ("msgs:".toList ++ roomId.toList) with
      | none => []
      | some e => if e.exp ≤ now then [] else e.v) = (s.lists.lookup now roomId).getD [] := by
  rw [h.lists]
  unfold Map.lookup
  cases s.lists roomId with
  | none => rfl
  | some e =>
      show (if e.exp ≤ now then [] else e.v) = (if e.exp ≤ now then none else some e.v).getD []
      split_ifs <;> rfl

theorem appendMessage (h : Models sp m s) (roomId : String) (msg : StoredMessage) (keep : ℕ)
    (expireAt : ℤ) :
    Models sp (m.appendMessage now roomId.toList msg keep expireAt)
      (s.appendMessage now roomId msg keep expireAt).2 where
  kv k hk := h.kv k hk
  lists roomId' := by
    have trimmed : ∀ v : List StoredMessage,
        (if v.length > keep then v.drop (v.length - keep) else v) = v.drop (v.length - keep) := by
      intro v
      split_ifs with hv
      · rfl
      · rw [Nat.sub_eq_zero_of_le (not_lt.mp hv), List.drop_zero]
    unfold MemoryStore.appendMessage Store.appendMessage
    simp only [h.held now, trimmed]
    by_cases hr : roomId' = roomId
    · rw [hr, Map.write_same, Map.write_same]
    · rw [Map.write_ne _ _ _ fun he => hr (lists_key he), Map.write_ne _ _ _ hr, h.lists]

theorem recentMessages (h : Models sp m s) (roomId : String) (limit : ℕ) :
    m.recentMessages now roomId.toList limit = (s.recentMessages now roomId limit).1 := by
  unfold MemoryStore.recentMessages Store.recentMessages Map.lookup
  rw [h.lists]
  cases s.lists roomId with
  | none => simp
  | some e =>
      by_cases he : e.exp ≤ now <;> by_cases hl : limit = 0 <;> simp [he, hl]

theorem deleteRoom (h : Models sp m s) {roomId : String} (hr : ':' ∉ roomId.toList) :
    Models sp (m.deleteRoom roomId.toList) (s.deleteRoom roomId).2 where
  kv k hk := by
    show (if namePrefix roomId <+: k.text sp then none else m.kv (k.text sp)) = _
    by_cases hn : namePrefix roomId <+: k.text sp
    · obtain ⟨n, rfl⟩ := (Key.prefix_iff hk hr).mp hn
      rw [if_pos hn]
      simp [Store.kv, Store.deleteRoom]
    · rw [if_neg hn, h.kv k hk]
      cases k with
      | name roomId' n =>
          have hne : roomId' ≠ roomId := fun he => hn ((Key.prefix_iff hk hr).mpr ⟨n, he ▸ rfl⟩)
          simp [Store.kv, Store.deleteRoom, hne]
      | _ => rfl
  lists roomId' := by
    show m.lists.erase _ _ = s.lists.erase _ _
    by_cases hr' : roomId' = roomId
    · rw [hr', Map.erase_same, Map.erase_same]
    · rw [Map.erase_ne _ fun he => hr' (lists_key he), Map.erase_ne _ hr', h.lists]

/-- Every operation answers the same, and leaves stores that hold the same. -/
theorem perform (h : Models sp m s) {o : ℤ × StoreOp} (ho : o.2.Plain) :
    (m.perform sp o).1 = (s.perform sp o).1 ∧ Models sp (m.perform sp o).2 (s.perform sp o).2 := by
  obtain ⟨now, op⟩ := o
  cases op with
  | claimName roomId name sid expireAt =>
      obtain ⟨hv, hm⟩ := h.claimName now ho name sid expireAt
      exact ⟨congrArg Answer.bool hv, hm⟩
  | nameOwner roomId name =>
      obtain ⟨hv, hm⟩ := h.nameOwner now ho name
      exact ⟨congrArg Answer.value hv, hm⟩
  | saveSession r expireAt => exact ⟨rfl, h.saveSession r expireAt⟩
  | getSession sid =>
      obtain ⟨hv, hm⟩ := h.getSession now sid
      exact ⟨congrArg Answer.value hv, hm⟩
  | setResume hash sid expireAt => exact ⟨rfl, h.setResume hash sid expireAt⟩
  | resolveResume hash =>
      obtain ⟨hv, hm⟩ := h.resolveResume now hash
      exact ⟨congrArg Answer.value hv, hm⟩
  | appendMessage roomId msg keep expireAt =>
      exact ⟨rfl, h.appendMessage now roomId msg keep expireAt⟩
  | recentMessages roomId limit =>
      exact ⟨congrArg Answer.messages (h.recentMessages now roomId limit), h⟩
  | deleteRoom roomId => exact ⟨rfl, h.deleteRoom ho⟩
  | hit key windowMs =>
      obtain ⟨hv, hm⟩ := h.hit now key windowMs
      exact ⟨congrArg (fun x => x.elim Answer.miscast fun n => .number n) hv, hm⟩
  | addToSet roomId textHash member ttlMs =>
      obtain ⟨hv, hm⟩ := h.addToSet now ho textHash member ttlMs
      exact ⟨congrArg (fun x => x.elim Answer.miscast fun n => .number n) hv, hm⟩
  | setBlock key ttlMs reason => exact ⟨rfl, h.setBlock now key ttlMs reason⟩
  | blockTtl key => exact ⟨congrArg Answer.number (h.blockTtl now key), h⟩
  | deleteBlock key => exact ⟨rfl, h.deleteBlock key⟩
  | acquireOnce key ttlMs =>
      obtain ⟨hv, hm⟩ := h.acquireOnce now key ttlMs
      exact ⟨congrArg Answer.bool hv, hm⟩

theorem empty : Models sp MemoryStore.empty Store.empty where
  kv k _ := by cases k <;> rfl
  lists _ := rfl

end Models

theorem Store.perform_ne_miscast (s : Store) (o : ℤ × StoreOp) : (s.perform sp o).1 ≠ .miscast := by
  obtain ⟨now, op⟩ := o
  cases op <;> exact fun h => by cases h

/-- The one map answers as the separate maps do, and no value is read as one of another type. -/
theorem memory_refines {os : List (ℤ × StoreOp)} (hos : ∀ o ∈ os, o.2.Plain) :
    answers (MemoryStore.perform sp) .empty os = answers (Store.perform sp) .empty os ∧
      Answer.miscast ∉ answers (MemoryStore.perform sp) .empty os := by
  have he : answers (MemoryStore.perform sp) .empty os = answers (Store.perform sp) .empty os :=
    answers_eq (fun _ _ _ h ho => h.perform ho) Models.empty hos
  refine ⟨he, fun hm => ?_⟩
  rw [he] at hm
  exact forall_mem_answers (Q := (· ≠ .miscast)) (fun s o => s.perform_ne_miscast sp o) _ hm rfl

/-- Ids and hashes spelled as numerals. -/
def Spelling.numerals : Spelling where
  sid n := (toString (n : ℤ)).toList
  hash h := (toString (h.token : ℤ)).toList
  sid_injective _ _ h := Int.ofNat.inj (toString_toList_inj h)
  hash_injective := by
    rintro ⟨t⟩ ⟨t'⟩ h
    exact congrArg TokenHash.mk (Int.ofNat.inj (toString_toList_inj h))

/-- A name is claimed and counted, the room is deleted, the name is claimed again. -/
def Demo.tidied (roomId : String) : List (ℤ × StoreOp) :=
  [(0, .claimName roomId "otter" 7 1000), (1, .hit (.rejoin 7) 60),
    (2, .claimName roomId "otter" 8 1000), (3, .deleteRoom roomId),
    (4, .claimName roomId "otter" 8 1000), (5, .hit (.rejoin 7) 60)]

theorem memory_refines_tidied :
    let os := Demo.tidied (Day.roomAt 1789084800000 Day.utc ⟨2026, 3, 11⟩).roomId
    answers (MemoryStore.perform .numerals) .empty os =
        answers (Store.perform .numerals) .empty os ∧
      Answer.miscast ∉ answers (MemoryStore.perform .numerals) .empty os := by
  refine memory_refines .numerals fun o ho => ?_
  have hr := colon_not_mem_roomDateAt 1789084800000 Day.utc
  simp only [Demo.tidied, List.mem_cons, List.not_mem_nil, or_false] at ho
  rcases ho with rfl | rfl | rfl | rfl | rfl | rfl
  · exact hr
  · trivial
  · exact hr
  · exact hr
  · exact hr
  · trivial

end RoomBackend
