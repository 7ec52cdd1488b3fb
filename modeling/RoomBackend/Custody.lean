import Mathlib.Order.Nat

/-! # Who has a secret

Secrets are drawn one after another, each by one party. A party has a secret because it drew it or
because it was given it; nobody else has a secret that was drawn, unless it was given to him
(`Sound`). A step in which one party draws keeps this (`Sound.step`). So if two parties have one
secret, one of them was given it (`Sound.shared`). -/

namespace RoomBackend.Custody

variable {κ τ : Type*}

/-- A party was given a secret that it has; or it drew it, and everyone else who has it was given
it. `n` secrets were drawn so far. -/
def Sound (drawn : ℕ → τ) (n : ℕ) (has given : κ → τ → Prop) : Prop :=
  ∀ k x, has k x → given k x ∨
    (∃ d < n, x = drawn d) ∧ ∀ j, j ≠ k → has j x → given j x

namespace Sound

variable {drawn : ℕ → τ} {n n' : ℕ} {has has' given given' : κ → τ → Prop}

/-- What a party has it had before, or it is given it, or it is the one that draws it. -/
theorem step (hinj : Function.Injective drawn) (h : Sound drawn n has given) (hn : n ≤ n')
    (hgiven : ∀ k x, given k x → given' k x) (drawer : Option κ)
    (hhas : ∀ k x, has' k x → has k x ∨ given' k x ∨ drawer = some k ∧ x = drawn n ∧ n < n') :
    Sound drawn n' has' given' := by
  -- the secret that is drawn now was not drawn before
  have fresh : ¬∃ d < n, drawn n = drawn d := by
    rintro ⟨d, hd, he⟩
    rw [hinj he] at hd
    exact Nat.lt_irrefl _ hd
  intro k x hk
  rcases hhas k x hk with hold | hg | ⟨hd, rfl, hlt⟩
  · rcases h k x hold with hg | ⟨⟨d, hd, rfl⟩, hothers⟩
    · exact Or.inl (hgiven k x hg)
    · refine Or.inr ⟨⟨d, Nat.lt_of_lt_of_le hd hn, rfl⟩, fun j hj hhj => ?_⟩
      rcases hhas j _ hhj with hold' | hg | ⟨-, he, -⟩
      · exact hgiven j _ (hothers j hj hold')
      · exact hg
      · exact absurd ⟨d, hd, he.symm⟩ fresh
  · exact Or.inl hg
  · refine Or.inr ⟨⟨n, hlt, rfl⟩, fun j hj hhj => ?_⟩
    rcases hhas j _ hhj with hold | hg | ⟨hd', -, -⟩
    · rcases h j _ hold with hg | ⟨hdrawn, -⟩
      · exact hgiven j _ hg
      · exact absurd hdrawn fresh
    · exact hg
    · exact absurd (Option.some.inj (hd'.symm.trans hd)) hj

/-- If two parties have one secret, one of them was given it. -/
theorem shared (h : Sound drawn n has given) {j k : κ} {x : τ} (hne : j ≠ k) (hk : has k x)
    (hj : has j x) : given j x ∨ given k x := by
  rcases h k x hk with hg | ⟨-, hothers⟩
  · exact Or.inr hg
  · exact Or.inl (hothers j hne hj)

end Sound

end RoomBackend.Custody
