import RoomBackend.Expiring

/-! # Leases

A lock that expires: it is granted to the first who asks, and to nobody else until its time is
over. Beside the map of the locks a run keeps the list of what was granted and when. Whatever is
asked, at instants that do not decrease, two grants of one lock are a lease apart
(`Sound.acquire`). -/

namespace RoomBackend.Leases

open Expiring

variable {κ : Type*} [DecidableEq κ]

/-- Ask for a lock: whether it is granted, and the map. -/
def acquire (m : Map κ Unit) (now : ℤ) (k : κ) (lease : ℤ) : Bool × Map κ Unit :=
  let r := m.read now k
  if r.1.isSome then (false, r.2) else (true, r.2.write k () (now + lease))

/-- The grants so far, the last one first, after `k` was asked for. -/
def granted (m : Map κ Unit) (now : ℤ) (k : κ) (lease : ℤ) (grants : List (κ × ℤ)) : List (κ × ℤ) :=
  if (acquire m now k lease).1 then (k, now) :: grants else grants

/-- A grant keeps its lock until the lease is over, and grants of one lock are a lease apart. -/
structure Sound (lease : ℤ) (m : Map κ Unit) (now : ℤ) (grants : List (κ × ℤ)) : Prop where
  live : ∀ k t, (k, t) ∈ grants → now < t + lease → ∃ e, m k = some e ∧ t + lease ≤ e.exp
  apart : grants.Pairwise fun a b => a.1 = b.1 → b.2 + lease ≤ a.2

theorem acquire_granted {m : Map κ Unit} {now : ℤ} {k : κ} {lease : ℤ}
    (h : (acquire m now k lease).1 = true) :
    m.lookup now k = none ∧
      (acquire m now k lease).2 = (m.read now k).2.write k () (now + lease) := by
  unfold acquire at h ⊢
  simp only [Map.read_fst] at h ⊢
  cases hl : m.lookup now k with
  | none => simp
  | some v => simp [hl] at h

theorem acquire_refused {m : Map κ Unit} {now : ℤ} {k : κ} {lease : ℤ}
    (h : (acquire m now k lease).1 = false) : (acquire m now k lease).2 = (m.read now k).2 := by
  unfold acquire at h ⊢
  dsimp only at h ⊢
  split
  · rfl
  · rename_i hn
    rw [if_neg hn] at h
    cases h

namespace Sound

variable {lease : ℤ} {m : Map κ Unit} {now now' : ℤ} {grants : List (κ × ℤ)} {k : κ} {t : ℤ}

omit [DecidableEq κ] in
theorem nil : Sound lease (Map.empty : Map κ Unit) now [] :=
  ⟨fun _ _ hm => absurd hm List.not_mem_nil, List.Pairwise.nil⟩

omit [DecidableEq κ] in
theorem later (h : Sound lease m now grants) (hn : now ≤ now') : Sound lease m now' grants :=
  ⟨fun k t hm ht => h.live k t hm (by omega), h.apart⟩

/-- Whoever is granted a lock comes a lease after all who were granted it before. -/
theorem le_of_granted (h : Sound lease m now grants) (hg : (Leases.acquire m now k lease).1 = true)
    (hm : (k, t) ∈ grants) : t + lease ≤ now := by
  by_contra hlt
  obtain ⟨e, he, hexp⟩ := h.live k t hm (by omega)
  have hnone := (acquire_granted hg).1
  have hsome : m.lookup now k = some e.v := Map.lookup_eq_some.mpr ⟨e, he, by omega, rfl⟩
  rw [hnone] at hsome
  cases hsome

theorem acquire (h : Sound lease m now grants) (k : κ) :
    Sound lease (Leases.acquire m now k lease).2 now (granted m now k lease grants) := by
  have kept : ∀ k' t, (k', t) ∈ grants → now < t + lease →
      ∃ e, (m.read now k).2 k' = some e ∧ t + lease ≤ e.exp := by
    intro k' t hm ht
    obtain ⟨e, he, hexp⟩ := h.live k' t hm ht
    exact ⟨e, Map.read_snd_of_live he (by omega), hexp⟩
  unfold granted
  cases hg : (Leases.acquire m now k lease).1 with
  | false =>
      rw [acquire_refused hg]
      exact ⟨kept, h.apart⟩
  | true =>
      rw [(acquire_granted hg).2]
      refine ⟨fun k' t hm ht => ?_, List.Pairwise.cons (fun x hx hk => ?_) h.apart⟩
      · by_cases hk : k' = k
        · subst hk
          refine ⟨_, Map.write_same .., ?_⟩
          rcases List.mem_cons.mp hm with he | hm
          · rw [(Prod.mk.inj he).2]
          · have := h.le_of_granted hg hm
            dsimp only
            omega
        · rw [Map.write_ne _ _ _ hk]
          rcases List.mem_cons.mp hm with he | hm
          · exact absurd (Prod.mk.inj he).1 hk
          · exact kept k' t hm ht
      · obtain ⟨k', t⟩ := x
        obtain rfl : k = k' := hk
        exact h.le_of_granted hg hx

end Sound

end RoomBackend.Leases
