import Mathlib.Logic.Function.Basic

/-! # Asynchronous operations

An `async` function suspends on a promise. The operation behind the promise takes effect on
a shared world at some instant between the suspension and the answer; the function goes on
at some later instant. `Promise` is what the suspended function waits for, `Outcome` is what
becomes of the operation, and `settle` performs it. An operation that times out has taken
effect although the caller sees a failure. -/

namespace RoomBackend.Async

/-- What a suspended function waits for. -/
inductive Promise (α : Type*) where
  | pending
  | fulfilled (a : α)
  | rejected
deriving DecidableEq, Repr

/-- What becomes of an operation: it is answered, it fails without effect, or it takes
effect and the caller sees a failure. -/
inductive Outcome where
  | answered
  | refused
  | timedOut
deriving DecidableEq, Repr

/-- The operation took effect on the world. -/
def Outcome.applied : Outcome → Bool
  | answered => true
  | refused => false
  | timedOut => true

namespace Promise

variable {α ω : Type*}

/-- `p.catch(() => a)`: the value once the promise is settled. -/
def orElse (p : Promise α) (a : α) : Option α :=
  match p with
  | pending => none
  | fulfilled b => some b
  | rejected => some a

/-- Perform the operation behind a pending promise on the world. -/
def settle (p : Promise α) (op : ω → α × ω) (o : Outcome) (w : ω) : Option (Promise α × ω) :=
  match p with
  | pending =>
      match o with
      | .answered => some (fulfilled (op w).1, (op w).2)
      | .refused => some (rejected, w)
      | .timedOut => some (rejected, (op w).2)
  | _ => none

/-- The world after the operation. -/
def effect (op : ω → α × ω) (o : Outcome) (w : ω) : ω :=
  if o.applied then (op w).2 else w

/-- The promise after the operation. -/
def answer (op : ω → α × ω) (o : Outcome) (w : ω) : Promise α :=
  if o = .answered then fulfilled (op w).1 else rejected

theorem settle_eq_some {p p' : Promise α} {op : ω → α × ω} {o : Outcome} {w w' : ω} :
    p.settle op o w = some (p', w') ↔
      p = pending ∧ p' = answer op o w ∧ w' = effect op o w := by
  cases p with
  | pending =>
      cases o <;> simp [settle, answer, effect, Outcome.applied, eq_comm]
  | fulfilled a => simp [settle]
  | rejected => simp [settle]

/-- A promise is fulfilled by the answer of its operation, which has taken effect. -/
theorem settle_fulfilled {p : Promise α} {op : ω → α × ω} {o : Outcome} {w w' : ω} {a : α}
    (h : p.settle op o w = some (fulfilled a, w')) : a = (op w).1 ∧ w' = (op w).2 := by
  cases p with
  | pending =>
      cases o with
      | answered =>
          simp only [settle, Option.some.injEq, Prod.mk.injEq, fulfilled.injEq] at h
          exact ⟨h.1.symm, h.2.symm⟩
      | refused => cases h
      | timedOut => cases h
  | fulfilled b => cases h
  | rejected => cases h

theorem orElse_eq_some {p : Promise α} {a b : α} :
    p.orElse a = some b ↔ p = fulfilled b ∨ (p = rejected ∧ b = a) := by
  cases p <;> simp [orElse, eq_comm]

end Promise

end RoomBackend.Async
