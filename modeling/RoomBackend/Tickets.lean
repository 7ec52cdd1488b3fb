import Mathlib.Data.List.Nodup
import Mathlib.Data.List.Range
import Mathlib.Data.List.Perm.Subperm
import RoomBackend.Expiring

/-! # Numbered tickets

A counter hands out tickets, numbered from one. Whoever has drawn a ticket can spend it, once, or
lose it; what is got without a ticket is noted as such. In a book that is kept so no ticket is
spent twice (`Sound.once`), hence no more is got for the tickets of one counter than the highest
number that is let through (`Sound.countP_le`).

A map whose entries lapse can keep such counters for fixed windows of time: counting in the window
of the instant hands out the numbers of this window one after another, as long as an entry
outlives its window (`hit_fst`, `tally_hit`). -/

namespace RoomBackend.Tickets

/-! ### Books -/

/-- The ticket each holder has (a counter and a number), and what was got for which ticket. -/
structure Book (θ κ α : Type*) where
  held : θ → Option (κ × ℕ)
  spent : List (α × Option (κ × ℕ))

namespace Book

variable {θ κ α : Type*}

/-- The book in which nothing is noted. -/
def empty : Book θ κ α := { held := fun _ => none, spent := [] }

variable [DecidableEq θ] (b : Book θ κ α) (th : θ)

/-- A holder draws the ticket with the given number. -/
def draw (c : κ) (n : ℕ) : Book θ κ α := { b with held := Function.update b.held th (some (c, n)) }

/-- A holder has no ticket any more. -/
def drop : Book θ κ α := { b with held := Function.update b.held th none }

/-- A holder gets something for its ticket, or without one. -/
def spend (a : α) : Book θ κ α :=
  { held := Function.update b.held th none, spent := b.spent ++ [(a, b.held th)] }

@[simp] theorem draw_held (c : κ) (n : ℕ) :
    (b.draw th c n).held = Function.update b.held th (some (c, n)) := rfl

@[simp] theorem drop_held : (b.drop th).held = Function.update b.held th none := rfl

@[simp] theorem spend_held (a : α) :
    (b.spend th a).held = Function.update b.held th none := rfl

omit [DecidableEq θ] in
/-- The tickets that were spent. -/
def tickets : List (κ × ℕ) := b.spent.filterMap Prod.snd

omit [DecidableEq θ] in
/-- Every ticket was drawn from its counter, is held by one holder or was spent once. -/
structure Sound (tally : κ → ℕ) (b : Book θ κ α) : Prop where
  drawn : ∀ {th : θ} {c : κ} {n : ℕ}, b.held th = some (c, n) → 0 < n ∧ n ≤ tally c
  own : ∀ {th th' : θ} {x : κ × ℕ}, b.held th = some x → b.held th' = some x → th = th'
  used : ∀ {c : κ} {n : ℕ}, (c, n) ∈ b.tickets → 0 < n ∧ n ≤ tally c
  once : b.tickets.Nodup
  fresh : ∀ {th : θ} {x : κ × ℕ}, b.held th = some x → x ∉ b.tickets

variable {b} {tally tally' : κ → ℕ}

omit [DecidableEq θ] in
theorem sound_empty (tally : κ → ℕ) : (empty : Book θ κ α).Sound tally :=
  { drawn := fun h => by cases h
    own := fun h _ => by cases h
    used := fun h => absurd h List.not_mem_nil
    once := List.nodup_nil
    fresh := fun h => by cases h }

namespace Sound

omit [DecidableEq θ] in
/-- A count that nobody is told leaves a gap in the numbers. -/
theorem mono (hb : b.Sound tally) (h : ∀ c, tally c ≤ tally' c) : b.Sound tally' :=
  { hb with
    drawn := fun hx => ⟨(hb.drawn hx).1, (hb.drawn hx).2.trans (h _)⟩
    used := fun hx => ⟨(hb.used hx).1, (hb.used hx).2.trans (h _)⟩ }

theorem drop (hb : b.Sound tally) (th : θ) : (b.drop th).Sound tally := by
  have held : ∀ {th' x}, (b.drop th).held th' = some x → b.held th' = some x := by
    intro th' x h
    by_cases he : th' = th
    · subst he
      rw [drop_held, Function.update_self] at h
      cases h
    · rwa [drop_held, Function.update_of_ne he] at h
  exact
    { drawn := fun h => hb.drawn (held h)
      own := fun h h' => hb.own (held h) (held h')
      used := hb.used
      once := hb.once
      fresh := fun h => hb.fresh (held h) }

variable [DecidableEq κ]

/-- The next number of a counter is one nobody has had. -/
theorem draw (hb : b.Sound tally) (th : θ) (c : κ) :
    (b.draw th c (tally c + 1)).Sound (Function.update tally c (tally c + 1)) := by
  have hle : ∀ c', tally c' ≤ Function.update tally c (tally c + 1) c' := by
    intro c'
    by_cases he : c' = c
    · subst he
      rw [Function.update_self]
      exact Nat.le_succ _
    · rw [Function.update_of_ne he]
  have hm := hb.mono hle
  have held : ∀ {th' x}, (b.draw th c (tally c + 1)).held th' = some x →
      th' = th ∧ x = (c, tally c + 1) ∨ th' ≠ th ∧ b.held th' = some x := by
    intro th' x h
    by_cases he : th' = th
    · subst he
      rw [draw_held, Function.update_self] at h
      exact Or.inl ⟨rfl, (Option.some.inj h).symm⟩
    · rw [draw_held, Function.update_of_ne he] at h
      exact Or.inr ⟨he, h⟩
  have hnew : ∀ {th'}, b.held th' ≠ some (c, tally c + 1) := by
    intro th' h
    exact absurd (hb.drawn h).2 (Nat.not_succ_le_self _)
  refine
    { drawn := fun {th' c' n} h => ?_
      own := fun {th₁ th₂ x} h₁ h₂ => ?_
      used := hm.used
      once := hb.once
      fresh := fun {th' x} h hx => ?_ }
  · rcases held h with ⟨-, hx⟩ | ⟨-, hx⟩
    · obtain ⟨rfl, rfl⟩ := Prod.mk.inj hx
      rw [Function.update_self]
      exact ⟨Nat.succ_pos _, le_rfl⟩
    · exact hm.drawn hx
  · rcases held h₁ with ⟨rfl, rfl⟩ | ⟨-, hx₁⟩
    · rcases held h₂ with ⟨rfl, -⟩ | ⟨-, hx₂⟩
      · rfl
      · exact absurd hx₂ hnew
    · rcases held h₂ with ⟨-, rfl⟩ | ⟨-, hx₂⟩
      · exact absurd hx₁ hnew
      · exact hb.own hx₁ hx₂
  · rcases held h with ⟨-, rfl⟩ | ⟨-, hx'⟩
    · exact absurd (hb.used hx).2 (Nat.not_succ_le_self _)
    · exact hb.fresh hx' hx

omit [DecidableEq κ] in
theorem tickets_spend (b : Book θ κ α) (th : θ) (a : α) :
    (b.spend th a).tickets = b.tickets ++ (b.held th).toList := by
  unfold tickets Book.spend
  rw [List.filterMap_append]
  cases h : b.held th with
  | none => simp
  | some x => simp

omit [DecidableEq κ] in
/-- A ticket that is spent leaves its holder. -/
theorem spend (hb : b.Sound tally) (th : θ) (a : α) : (b.spend th a).Sound tally := by
  have held : ∀ {th' x}, (b.spend th a).held th' = some x → th' ≠ th ∧ b.held th' = some x := by
    intro th' x h
    by_cases he : th' = th
    · subst he
      rw [spend_held, Function.update_self] at h
      cases h
    · rw [spend_held, Function.update_of_ne he] at h
      exact ⟨he, h⟩
  have hmem : ∀ {x}, x ∈ (b.spend th a).tickets → x ∈ b.tickets ∨ b.held th = some x := by
    intro x hx
    rw [tickets_spend] at hx
    exact (List.mem_append.mp hx).imp_right Option.mem_toList.mp
  refine
    { drawn := fun h => hb.drawn (held h).2
      own := fun h h' => hb.own (held h).2 (held h').2
      used := fun h => (hmem h).elim hb.used hb.drawn
      once := ?_
      fresh := fun {th' x} h hx => ?_ }
  · rw [tickets_spend]
    cases h : b.held th with
    | none => simpa using hb.once
    | some x =>
        refine List.nodup_append.mpr ⟨hb.once, List.nodup_singleton x, ?_⟩
        rintro y hy z hz rfl
        exact hb.fresh h (List.mem_singleton.mp hz ▸ hy)
  · obtain ⟨hne, hx'⟩ := held h
    rcases hmem hx with hx | hx
    · exact hb.fresh hx' hx
    · exact hne (hb.own hx' hx)

omit [DecidableEq θ] [DecidableEq κ] in
/-- No more is got for the tickets of a counter than the highest number that is let through. -/
theorem countP_le (hb : b.Sound tally) {c : κ} {limit : ℕ} {p : α × Option (κ × ℕ) → Bool}
    (hp : ∀ e ∈ b.spent, p e = true → ∃ n ≤ limit, e.2 = some (c, n)) :
    b.spent.countP p ≤ limit := by
  have hsome : ∀ e ∈ b.spent.filter p, ∃ n ≤ limit, e.2 = some (c, n) := fun e he =>
    hp e (List.mem_filter.mp he).1 (List.mem_filter.mp he).2
  have hlen : ((b.spent.filter p).filterMap Prod.snd).length = (b.spent.filter p).length := by
    rw [List.length_filterMap_eq_countP, List.countP_eq_length]
    intro e he
    obtain ⟨n, -, hn⟩ := hsome e he
    rw [hn]
    rfl
  have hnodup : ((b.spent.filter p).filterMap Prod.snd).Nodup :=
    hb.once.sublist (List.filter_sublist.filterMap Prod.snd)
  have hsub : (b.spent.filter p).filterMap Prod.snd ⊆
      (List.range limit).map fun n => (c, n + 1) := by
    intro x hx
    obtain ⟨e, he, hex⟩ := List.mem_filterMap.mp hx
    obtain ⟨n, hle, hn⟩ := hsome e he
    obtain rfl := Option.some.inj (hn.symm.trans hex)
    obtain ⟨hpos, -⟩ := hb.used
      (List.mem_filterMap.mpr ⟨e, (List.mem_filter.mp he).1, hn⟩)
    refine List.mem_map.mpr ⟨n - 1, List.mem_range.mpr (by omega), ?_⟩
    rw [Nat.sub_add_cancel hpos]
  calc b.spent.countP p = (b.spent.filter p).length := List.countP_eq_length_filter
    _ = ((b.spent.filter p).filterMap Prod.snd).length := hlen.symm
    _ ≤ ((List.range limit).map fun n => (c, n + 1)).length := (hnodup.subperm hsub).length_le
    _ = limit := by rw [List.length_map, List.length_range]

end Sound

end Book

/-! ### Counters of fixed windows -/

open Expiring

section windows

variable {κ : Type*} [DecidableEq κ]

/-- Count in the window of the instant; the counter lives for one window from now. -/
def hit (m : Map (κ × ℤ) ℕ) (now : ℤ) (key : κ) (windowMs : ℤ) : ℕ × Map (κ × ℤ) ℕ :=
  let r := m.read now (key, now / windowMs)
  let n := r.1.getD 0 + 1
  (n, r.2.write (key, now / windowMs) n (now + windowMs))

omit [DecidableEq κ] in
/-- Where the counter of a window stands. -/
def counterValue (m : Map (κ × ℤ) ℕ) (x : κ × ℤ) : ℕ := ((m x).map Entry.v).getD 0

omit [DecidableEq κ] in
/-- A counter outlives its window. -/
def Outlives (windowMs : κ → ℤ) (m : Map (κ × ℤ) ℕ) : Prop :=
  ∀ key i e, m (key, i) = some e → (i + 1) * windowMs key ≤ e.exp

variable {windowMs : κ → ℤ} {m : Map (κ × ℤ) ℕ} {now : ℤ} {key : κ}

/-- Within its window a counter is there to be read. -/
theorem read_of_outlives (hm : Outlives windowMs m) (hW : 0 < windowMs key) :
    m.read now (key, now / windowMs key) =
      ((m (key, now / windowMs key)).map Entry.v, m) := by
  unfold Map.read
  cases h : m (key, now / windowMs key) with
  | none => rfl
  | some e =>
      have hexp := hm _ _ _ h
      have hnow := Int.lt_ediv_add_one_mul_self now hW
      dsimp only
      rw [if_neg (by omega)]
      rfl

theorem hit_fst (hm : Outlives windowMs m) (hW : 0 < windowMs key) :
    (hit m now key (windowMs key)).1 = counterValue m (key, now / windowMs key) + 1 := by
  unfold hit
  rw [read_of_outlives hm hW]
  rfl

theorem tally_hit (hm : Outlives windowMs m) (hW : 0 < windowMs key) :
    counterValue (hit m now key (windowMs key)).2 = Function.update (counterValue m)
      (key, now / windowMs key) (counterValue m (key, now / windowMs key) + 1) := by
  unfold hit
  rw [read_of_outlives hm hW]
  funext x
  unfold counterValue
  dsimp only
  by_cases hx : x = (key, now / windowMs key)
  · subst hx
    rw [Function.update_self, Map.write_same]
    rfl
  · rw [Function.update_of_ne hx, Map.write_ne _ _ _ hx]

theorem Outlives.hit (hm : Outlives windowMs m) (hW : 0 < windowMs key) :
    Outlives windowMs (hit m now key (windowMs key)).2 := by
  unfold Tickets.hit
  rw [read_of_outlives hm hW]
  intro key' i e he
  dsimp only at he
  by_cases hx : (key', i) = (key, now / windowMs key)
  · obtain ⟨rfl, rfl⟩ := Prod.mk.inj hx
    rw [Map.write_same] at he
    obtain rfl := Option.some.inj he
    have hnow := Int.ediv_mul_le now hW.ne'
    dsimp only
    rw [Int.add_mul, Int.one_mul]
    omega
  · rw [Map.write_ne _ _ _ hx] at he
    exact hm _ _ _ he

end windows

end RoomBackend.Tickets
