import Mathlib.Data.Finset.Card
import RoomBackend.Expiring

/-! # Sets that are renewed as a whole

A set under a key whose expiry is moved on with every member that is added, so that it lapses only
after `ttl` without an add, or `grace` later where a key outlives its expiry by that. It holds every
member that was added since it last lapsed (`kept`), which may be more than those that were added
in the last `ttl` (`recent`). Adds are listed latest first. -/

namespace RoomBackend.Gathering

open Expiring

/-- A member that is added under a key. -/
structure Add (κ μ : Type*) where
  key : κ
  member : μ
  time : ℤ
deriving DecidableEq

variable {κ μ : Type*} [DecidableEq κ] [DecidableEq μ]

section adding
variable (grace ttl : ℤ)

/-- Add a member and renew the set: the number of members, and the sets. -/
def add (m : Map κ (List μ)) (a : Add κ μ) : ℕ × Map κ (List μ) :=
  let v := ((m.lookup (a.time - grace) a.key).getD []).insert a.member
  (v.length, m.write a.key v (a.time + ttl))

/-- The sets after a history of adds. -/
def after : List (Add κ μ) → Map κ (List μ)
  | [] => Map.empty
  | a :: past => (add grace ttl (after past) a).2

/-- What an add is answered. -/
def answer (past : List (Add κ μ)) (a : Add κ μ) : ℕ :=
  (add grace ttl (after grace ttl past) a).1

omit [DecidableEq μ] in
/-- The adds under a key since its set last lapsed, seen at `now`. -/
def kept (k : κ) : ℤ → List (Add κ μ) → List (Add κ μ)
  | _, [] => []
  | now, a :: past =>
      if a.key = k then if a.time + ttl ≤ now - grace then [] else a :: kept k a.time past
      else kept k now past

omit [DecidableEq μ] in
/-- The adds under the key of `a` in the last `ttl`, `a` included. -/
def recent (past : List (Add κ μ)) (a : Add κ μ) : List (Add κ μ) :=
  (a :: past).filter fun d => d.key = a.key ∧ a.time - ttl ≤ d.time

omit [DecidableEq κ] in
/-- The members of a list of adds. -/
def members (adds : List (Add κ μ)) : Finset μ := (adds.map Add.member).toFinset

/-- Every member that the set still holds has also been added in the last `ttl`. -/
def Fresh (past : List (Add κ μ)) (a : Add κ μ) : Prop :=
  ∀ d ∈ kept grace ttl a.key a.time past, ∃ e ∈ recent ttl past a, e.member = d.member

instance (past : List (Add κ μ)) (a : Add κ μ) : Decidable (Fresh grace ttl past a) :=
  inferInstanceAs (Decidable (∀ d ∈ _, ∃ e ∈ _, _))

end adding

/-- The adds of a history, none before an older one. -/
def Ordered (adds : List (Add κ μ)) : Prop := adds.Pairwise fun a d => d.time ≤ a.time

instance (adds : List (Add κ μ)) : Decidable (Ordered adds) :=
  inferInstanceAs (Decidable (adds.Pairwise _))

variable {grace ttl now : ℤ} {k : κ} {a d w : Add κ μ} {past : List (Add κ μ)}

/-! ### What a set holds -/

omit [DecidableEq κ] in
theorem members_insert {l : List μ} {adds : List (Add κ μ)} (h : l.toFinset = members adds)
    (a : Add κ μ) : (l.insert a.member).toFinset = members (a :: adds) := by
  ext x
  rw [List.mem_toFinset, List.mem_insert_iff, ← List.mem_toFinset, h]
  unfold members
  rw [List.map_cons, List.mem_toFinset, List.mem_toFinset, List.mem_cons]

theorem lookup_after (k : κ) (now : ℤ) (past : List (Add κ μ)) :
    (((after grace ttl past).lookup (now - grace) k).getD []).Nodup ∧
      (((after grace ttl past).lookup (now - grace) k).getD []).toFinset =
        members (kept grace ttl k now past) := by
  induction past generalizing now with
  | nil => exact ⟨List.nodup_nil, rfl⟩
  | cons a past ih =>
      by_cases hk : a.key = k
      · subst hk
        obtain ⟨hnodup, hset⟩ := ih a.time
        have hw : after grace ttl (a :: past) a.key =
            some ⟨((((after grace ttl past).lookup (a.time - grace) a.key).getD []).insert
              a.member), a.time + ttl⟩ := Map.write_same ..
        unfold Map.lookup kept
        rw [hw, if_pos rfl]
        dsimp only
        split
        · exact ⟨List.nodup_nil, rfl⟩
        · exact ⟨hnodup.insert, members_insert hset a⟩
      · have hw : after grace ttl (a :: past) k = after grace ttl past k :=
          Map.write_ne _ _ _ (Ne.symm hk)
        have hl : (after grace ttl (a :: past)).lookup (now - grace) k =
            (after grace ttl past).lookup (now - grace) k := by
          unfold Map.lookup
          rw [hw]
        unfold kept
        rw [hl, if_neg hk]
        exact ih now

/-- An add is answered with the number of the members since the set last lapsed. -/
theorem answer_eq (past : List (Add κ μ)) (a : Add κ μ) :
    answer grace ttl past a = (members (a :: kept grace ttl a.key a.time past)).card := by
  obtain ⟨hnodup, hset⟩ := lookup_after a.key a.time past
  rw [← members_insert hset a, List.toFinset_card_of_nodup hnodup.insert]
  rfl

omit [DecidableEq μ] in
theorem mem_of_mem_kept (h : d ∈ kept grace ttl k now past) : d ∈ past ∧ d.key = k := by
  induction past generalizing now with
  | nil => cases h
  | cons a past ih =>
      unfold kept at h
      split at h
      · rename_i hk
        split at h
        · cases h
        · rcases List.mem_cons.mp h with rfl | h
          · exact ⟨List.mem_cons_self .., hk⟩
          · exact (ih h).imp_left (List.mem_cons_of_mem _)
      · exact (ih h).imp_left (List.mem_cons_of_mem _)

omit [DecidableEq μ] in
/-- An add that is not kept is one after which the set has lapsed. -/
theorem lapsed_of_not_mem_kept (ho : Ordered past) (hnow : ∀ d ∈ past, d.time ≤ now)
    (hw : w ∈ past) (hk : w.key = k) (hnot : w ∉ kept grace ttl k now past) :
    w.time + ttl ≤ now - grace := by
  induction past generalizing now with
  | nil => cases hw
  | cons a past ih =>
      obtain ⟨ha, hrec⟩ := List.pairwise_cons.mp ho
      have hle : a.time ≤ now := hnow a (List.mem_cons_self ..)
      have hrest : ∀ d ∈ past, d.time ≤ now := fun d hd => hnow d (List.mem_cons_of_mem _ hd)
      unfold kept at hnot
      split at hnot
      · split at hnot
        · rename_i hlapsed
          rcases List.mem_cons.mp hw with rfl | hw
          · exact hlapsed
          · have := ha w hw
            omega
        · rw [List.mem_cons, not_or] at hnot
          rcases List.mem_cons.mp hw with rfl | hw
          · exact absurd rfl hnot.1
          · have := ih hrec ha hw hnot.2
            omega
      · rename_i hka
        rcases List.mem_cons.mp hw with rfl | hw
        · exact absurd hk hka
        · exact ih hrec hrest hw hnot

omit [DecidableEq μ] in
/-- And everything that is kept was added after the set had lapsed. -/
theorem lapsed_before_kept (ho : Ordered past) (hnow : ∀ d ∈ past, d.time ≤ now)
    (hw : w ∈ past) (hk : w.key = k) (hnot : w ∉ kept grace ttl k now past)
    (hd : d ∈ kept grace ttl k now past) : w.time + ttl ≤ d.time - grace := by
  induction past generalizing now with
  | nil => cases hw
  | cons a past ih =>
      obtain ⟨ha, hrec⟩ := List.pairwise_cons.mp ho
      have hrest : ∀ d ∈ past, d.time ≤ now := fun d hd => hnow d (List.mem_cons_of_mem _ hd)
      unfold kept at hnot hd
      split at hnot
      · rename_i hka
        rw [if_pos hka] at hd
        split at hnot
        · rename_i hlapsed
          rw [if_pos hlapsed] at hd
          cases hd
        · rename_i hlive
          rw [if_neg hlive] at hd
          rw [List.mem_cons, not_or] at hnot
          have hwp : w ∈ past := (List.mem_cons.mp hw).resolve_left hnot.1
          rcases List.mem_cons.mp hd with rfl | hd
          · exact lapsed_of_not_mem_kept hrec ha hwp hk hnot.2
          · exact ih hrec ha hwp hnot.2 hd
      · rename_i hka
        rw [if_neg hka] at hd
        rcases List.mem_cons.mp hw with rfl | hw
        · exact absurd hk hka
        · exact ih hrec hrest hw hnot hd

/-! ### When the answer is fair -/

omit [DecidableEq μ] in
theorem mem_recent : d ∈ recent ttl past a ↔
    d ∈ a :: past ∧ d.key = a.key ∧ a.time - ttl ≤ d.time := by
  unfold recent
  rw [List.mem_filter, decide_eq_true_iff]

omit [DecidableEq κ] in
theorem mem_members {adds : List (Add κ μ)} {x : μ} :
    x ∈ members adds ↔ ∃ d ∈ adds, d.member = x := by
  unfold members
  rw [List.mem_toFinset, List.mem_map]

omit [DecidableEq μ] in
theorem self_mem_recent (h : 0 ≤ ttl) : a ∈ recent ttl past a :=
  mem_recent.mpr ⟨List.mem_cons_self .., rfl, by omega⟩

/-- With every member fresh, the set holds no more than the recent members. -/
theorem Fresh.subset (httl : 0 ≤ ttl) (h : Fresh grace ttl past a) :
    members (a :: kept grace ttl a.key a.time past) ⊆ members (recent ttl past a) := by
  intro x hx
  obtain ⟨d, hd, rfl⟩ := mem_members.mp hx
  rw [mem_members]
  rcases List.mem_cons.mp hd with rfl | hd
  · exact ⟨d, self_mem_recent httl, rfl⟩
  · exact h d hd

/-- The answer counts recent members only exactly if every member that is held is fresh. -/
theorem answer_le_iff (hgrace : 0 ≤ grace) (httl : 0 ≤ ttl) (ho : Ordered (a :: past)) :
    answer grace ttl past a ≤ (members (recent ttl past a)).card ↔ Fresh grace ttl past a := by
  obtain ⟨ha, hpast⟩ := List.pairwise_cons.mp ho
  rw [answer_eq]
  constructor
  · intro hle d hd
    by_cases hall : ∀ w ∈ recent ttl past a, w ∈ a :: kept grace ttl a.key a.time past
    · have hsub : members (recent ttl past a) ⊆
          members (a :: kept grace ttl a.key a.time past) := by
        intro x hx
        obtain ⟨w, hw, rfl⟩ := mem_members.mp hx
        exact mem_members.mpr ⟨w, hall w hw, rfl⟩
      have heq := Finset.eq_of_subset_of_card_le hsub hle
      rw [← mem_members, heq]
      exact mem_members.mpr ⟨d, List.mem_cons_of_mem _ hd, rfl⟩
    · -- the set lapsed at this very instant, and all that it holds was added since
      push Not at hall
      obtain ⟨w, hw, hnot⟩ := hall
      obtain ⟨hmem, hk, ht⟩ := mem_recent.mp hw
      rw [List.mem_cons, not_or] at hnot
      have hwp : w ∈ past := (List.mem_cons.mp hmem).resolve_left hnot.1
      have hlate := lapsed_before_kept hpast ha hwp hk hnot.2 hd
      obtain ⟨hdp, hdk⟩ := mem_of_mem_kept hd
      exact ⟨d, mem_recent.mpr ⟨List.mem_cons_of_mem _ hdp, hdk, by omega⟩, rfl⟩
  · intro h
    exact Finset.card_le_card (h.subset httl)

end RoomBackend.Gathering
