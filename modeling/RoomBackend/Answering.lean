import Mathlib.Tactic.Common

/-! # Programs that answer once

A program that may throw, over a state that records what it has answered. Such a program does not
answer before its last step: what comes before leaves the state alone, whether it returns or throws.

* `Keeps p`: the state is left alone.
* `Answers s₀ P p`: from `s₀`, the program returns in a state of `P`, or throws in `s₀`.
* `Returns s₀ P p`: from `s₀`, it returns in a state of `P`.
* `Answers.tryCatch`: with a handler that returns whatever is thrown, it returns. -/

namespace RoomBackend.Answering

variable {ε σ α β : Type}

/-- A program: it returns or throws, and the state is kept in both cases. -/
abbrev Prog (ε σ α : Type) := ExceptT ε (StateM σ) α

/-- What comes of the program, and the state it ends in. -/
def Prog.outcome (p : Prog ε σ α) (s : σ) : Except ε α × σ := p.run.run s

variable {p : Prog ε σ α} {f : α → Prog ε σ β} {h : ε → Prog ε σ α} {s s₀ : σ} {P : σ → Prop}

/-! ### Outcomes -/

theorem outcome_bind : (p >>= f).outcome s =
    match p.outcome s with
    | (.ok a, t) => (f a).outcome t
    | (.error e, t) => (.error e, t) := by
  unfold Prog.outcome
  rw [ExceptT.run_bind, StateT.run_bind]
  rcases p.run.run s with ⟨e | a, t⟩ <;> rfl

theorem outcome_tryCatch : (tryCatch p h).outcome s =
    match p.outcome s with
    | (.ok a, t) => (.ok a, t)
    | (.error e, t) => (h e).outcome t := by
  unfold Prog.outcome
  rw [ExceptT.run_tryCatch, StateT.run_bind]
  rcases p.run.run s with ⟨e | a, t⟩ <;> rfl

/-- An operation that returns or throws by itself. -/
def await (x : Except ε α) : Prog ε σ α :=
  match x with
  | .ok a => pure a
  | .error e => throw e

/-! ### What comes before the answer -/

/-- The state is left alone. -/
def Keeps (p : Prog ε σ α) : Prop := ∀ s, (p.outcome s).2 = s

theorem Keeps.eq_of_outcome (hp : Keeps p) {x : Except ε α} {t : σ} (h : p.outcome s = (x, t)) :
    t = s := by
  rw [← hp s, h]

theorem Keeps.pure (a : α) : Keeps (pure a : Prog ε σ α) := fun _ => rfl

theorem Keeps.throw (e : ε) : Keeps (throw e : Prog ε σ α) := fun _ => rfl

theorem Keeps.await (x : Except ε α) : Keeps (await x : Prog ε σ α) := by
  cases x with
  | ok a => exact .pure a
  | error e => exact .throw e

theorem Keeps.bind (hp : Keeps p) (hf : ∀ a, Keeps (f a)) : Keeps (p >>= f) := by
  intro s
  rw [outcome_bind]
  rcases hout : p.outcome s with ⟨e | a, t⟩
  · exact hp.eq_of_outcome hout
  · exact (hf a t).trans (hp.eq_of_outcome hout)

/-! ### The answer -/

/-- From `s₀`, the program returns in a state of `P`, or throws in `s₀`. -/
def Answers (s₀ : σ) (P : σ → Prop) (p : Prog ε σ α) : Prop :=
  (∃ a s, p.outcome s₀ = (.ok a, s) ∧ P s) ∨ ∃ e, p.outcome s₀ = (.error e, s₀)

/-- From `s₀`, the program returns in a state of `P`. -/
def Returns (s₀ : σ) (P : σ → Prop) (p : Prog ε σ α) : Prop :=
  ∃ a s, p.outcome s₀ = (.ok a, s) ∧ P s

theorem Returns.answers (hp : Returns s₀ P p) : Answers s₀ P p := Or.inl hp

/-- What keeps the state may come before. -/
theorem Answers.bind (hp : Keeps p) (hf : ∀ a, Answers s₀ P (f a)) : Answers s₀ P (p >>= f) := by
  unfold Answers
  rw [outcome_bind]
  rcases hout : p.outcome s₀ with ⟨e | a, t⟩
  · rw [hp.eq_of_outcome hout]
    exact Or.inr ⟨e, rfl⟩
  · rw [hp.eq_of_outcome hout]
    exact hf a

/-- A handler that returns makes of a program that answers one that returns. -/
theorem Answers.tryCatch (hp : Answers s₀ P p) (hh : ∀ e, Returns s₀ P (h e)) :
    Returns s₀ P (tryCatch p h) := by
  unfold Returns
  rw [outcome_tryCatch]
  rcases hp with ⟨a, s, he, hs⟩ | ⟨e, he⟩
  · rw [he]
    exact ⟨a, s, rfl, hs⟩
  · rw [he]
    exact hh e

end RoomBackend.Answering
