import Mathlib.Tactic.TypeStar

/-!
# Computations that fail or panic

A computation returns a value, returns an error to its caller, or panics, and a panic tells its
cause. Both kinds of failure end a sequence of computations, so that a sequence returns a value
exactly if all of its computations do (`bind_eq_ok_iff`), and it panics exactly if one of them does
after the ones before it have returned (`bind_eq_panic_iff`).

## Main definitions

* `Fallible`, with its monad.
* `Fallible.ofExcept`, `Fallible.ofOption` : computations that do not panic, and whose panic is
  `none`.
* `Fallible.mapFailure` : computations with errors and panics of their own.

## Main results

* `Fallible.bind_eq_ok_iff`, `Fallible.bind_eq_panic_iff`.
-/

/-- The outcome of a computation. -/
inductive Fallible (π ε α : Type*) where
  | ok (a : α)
  | error (e : ε)
  | panic (p : π)
  deriving DecidableEq, Repr

namespace Fallible

variable {π ε α β : Type*}

/-- Go on with the value that was returned. -/
def andThen (x : Fallible π ε α) (f : α → Fallible π ε β) : Fallible π ε β :=
  match x with
  | ok a => f a
  | error e => error e
  | panic p => panic p

instance : Monad (Fallible π ε) where
  pure := ok
  bind := andThen

/-- A computation that does not panic; its error is mapped to that of the sequence. -/
def ofExcept {ε' : Type*} (toError : ε' → ε) : Except ε' α → Fallible π ε α
  | .ok a => ok a
  | .error e => error (toError e)

/-- A computation whose panic is `none`. -/
def ofOption (p : π) : Option (Except ε α) → Fallible π ε α
  | some (.ok a) => ok a
  | some (.error e) => error e
  | none => panic p

/-- A computation whose failures are mapped to those of the sequence. -/
def mapFailure {π' ε' : Type*} (toPanic : π' → π) (toError : ε' → ε) :
    Fallible π' ε' α → Fallible π ε α
  | ok a => ok a
  | error e => error (toError e)
  | panic p => panic (toPanic p)

section Sequence

variable {α β : Type _} {x : Fallible π ε α} {f : α → Fallible π ε β}

/-- A sequence returns what its last computation returns. -/
theorem bind_eq_ok_iff {b : β} : x >>= f = ok b ↔ ∃ a, x = ok a ∧ f a = ok b := by
  change x.andThen f = ok b ↔ _
  cases x with
  | ok a => simp [andThen]
  | error e => simp [andThen]
  | panic p => simp [andThen]

/-- A sequence panics where one of its computations does. -/
theorem bind_eq_panic_iff {p : π} :
    x >>= f = panic p ↔ x = panic p ∨ ∃ a, x = ok a ∧ f a = panic p := by
  change x.andThen f = panic p ↔ _
  cases x with
  | ok a => simp [andThen]
  | error e => simp [andThen]
  | panic p => simp [andThen]

end Sequence

theorem pure_eq_ok_iff {a b : α} : (pure a : Fallible π ε α) = ok b ↔ a = b := by
  change ok a = ok b ↔ _
  rw [ok.injEq]

variable {π' ε' : Type*} {toPanic : π' → π} {toError : ε' → ε}

@[simp] theorem ofExcept_eq_ok_iff {x : Except ε' α} {a : α} :
    (ofExcept toError x : Fallible π ε α) = ok a ↔ x = .ok a := by
  cases x <;> simp [ofExcept]

@[simp] theorem ofExcept_ne_panic {x : Except ε' α} {p : π} :
    (ofExcept toError x : Fallible π ε α) ≠ panic p := by
  cases x <;> simp [ofExcept]

@[simp] theorem ofOption_eq_ok_iff {x : Option (Except ε α)} {a : α} {p : π} :
    ofOption p x = ok a ↔ x = some (.ok a) := by
  rcases x with _ | (_ | _) <;> simp [ofOption]

@[simp] theorem mapFailure_eq_ok_iff {x : Fallible π' ε' α} {a : α} :
    x.mapFailure toPanic toError = ok a ↔ x = ok a := by
  cases x <;> simp [mapFailure]

@[simp] theorem mapFailure_eq_panic_iff {x : Fallible π' ε' α} {p : π} :
    x.mapFailure toPanic toError = panic p ↔ ∃ q, x = panic q ∧ toPanic q = p := by
  cases x <;> simp [mapFailure]

end Fallible
