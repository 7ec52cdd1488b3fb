import Mathlib.Data.Int.Order.Basic

/-! # Decimal numerals

What `toString` prints of an integer, up to leading zeros. A numeral that is followed by
something other than a digit is read in one way. -/

namespace RoomBackend.Numerals

/-- The decimal digits `ds` are those of `n`, up to leading zeros. -/
structure Digits (n : ℕ) (ds : List Char) : Prop where
  ne_nil : ds ≠ []
  digit : ∀ c ∈ ds, c.isDigit = true
  value : Nat.ofDigitChars 10 ds 0 = n

/-- `l` is a decimal numeral of `n`, up to leading zeros. -/
def Numeral (n : ℤ) (l : List Char) : Prop :=
  (∃ m : ℕ, n = m ∧ Digits m l) ∨
    ∃ (m : ℕ) (ds : List Char), n = -m ∧ 0 < m ∧ l = '-' :: ds ∧ Digits m ds

theorem digits_toDigits (n : ℕ) : Digits n (Nat.toDigits 10 n) :=
  ⟨Nat.toDigits_ne_nil, fun _ hc => Nat.isDigit_of_mem_toDigits (by omega) (by omega) hc,
    Nat.ofDigitChars_ten_toDigits⟩

theorem numeral_toString (n : ℤ) : Numeral n (toString n).toList := by
  cases n with
  | ofNat m =>
      have h : (toString (Int.ofNat m)).toList = Nat.toDigits 10 m := Nat.toList_repr
      rw [h]
      exact Or.inl ⟨m, rfl, digits_toDigits m⟩
  | negSucc m =>
      have h : (toString (Int.negSucc m)).toList = '-' :: Nat.toDigits 10 (m + 1) := by
        have h' : toString (Int.negSucc m) = "-" ++ Nat.repr (m + 1) := rfl
        rw [h', String.toList_append, Nat.toList_repr]
        rfl
      rw [h]
      exact Or.inr ⟨m + 1, _, rfl, by omega, rfl, digits_toDigits _⟩

/-- Where the digits end is determined by what follows. -/
theorem digits_append_inj {ds ds' xs xs' : List Char} (hd : ∀ c ∈ ds, c.isDigit = true)
    (hd' : ∀ c ∈ ds', c.isDigit = true) (hx : ∀ c ∈ xs.head?, c.isDigit = false)
    (hx' : ∀ c ∈ xs'.head?, c.isDigit = false) (h : ds ++ xs = ds' ++ xs') :
    ds = ds' ∧ xs = xs' := by
  induction ds generalizing ds' with
  | nil =>
      cases ds' with
      | nil => exact ⟨rfl, h⟩
      | cons c ds' =>
          have hc := hd' c List.mem_cons_self
          have : xs.head? = some c := by
            rw [List.nil_append] at h
            rw [h]
            rfl
          rw [hx c this] at hc
          cases hc
  | cons c ds ih =>
      cases ds' with
      | nil =>
          have hc := hd c List.mem_cons_self
          have : xs'.head? = some c := by
            rw [List.nil_append] at h
            rw [← h]
            rfl
          rw [hx' c this] at hc
          cases hc
      | cons c' ds' =>
          rw [List.cons_append, List.cons_append] at h
          obtain ⟨rfl, htail⟩ := List.cons.inj h
          obtain ⟨rfl, rfl⟩ := ih (fun x hx => hd x (List.mem_cons_of_mem _ hx))
            (fun x hx => hd' x (List.mem_cons_of_mem _ hx)) htail
          exact ⟨rfl, rfl⟩

theorem Digits.not_dash {n : ℕ} {ds xs ys : List Char} (h : Digits n ds)
    (he : ds ++ xs = '-' :: ys) : False := by
  cases ds with
  | nil => exact h.ne_nil rfl
  | cons c ds =>
      obtain ⟨rfl, -⟩ := List.cons.inj he
      have := h.digit '-' List.mem_cons_self
      cases this

/-- A numeral is read in one way. -/
theorem numeral_append_inj {n n' : ℤ} {l l' xs xs' : List Char} (hn : Numeral n l)
    (hn' : Numeral n' l') (hx : ∀ c ∈ xs.head?, c.isDigit = false)
    (hx' : ∀ c ∈ xs'.head?, c.isDigit = false) (h : l ++ xs = l' ++ xs') : n = n' ∧ xs = xs' := by
  rcases hn with ⟨m, rfl, hd⟩ | ⟨m, ds, rfl, hm, rfl, hd⟩ <;>
    rcases hn' with ⟨m', rfl, hd'⟩ | ⟨m', ds', rfl, hm', rfl, hd'⟩
  · obtain ⟨rfl, hxs⟩ := digits_append_inj hd.digit hd'.digit hx hx' h
    exact ⟨by rw [← hd.value, hd'.value], hxs⟩
  · exact (hd.not_dash h).elim
  · exact (hd'.not_dash h.symm).elim
  · obtain ⟨-, h⟩ := List.cons.inj h
    obtain ⟨rfl, hxs⟩ := digits_append_inj hd.digit hd'.digit hx hx' h
    exact ⟨by rw [← hd.value, hd'.value], hxs⟩

end RoomBackend.Numerals
