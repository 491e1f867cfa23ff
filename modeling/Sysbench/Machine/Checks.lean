import Mathlib

/-! # Checks in a row

A function that gives up at the first check that fails.
-/
namespace Sysbench.Checks

variable {α β ε : Type}

/-- Nothing failed, so there was a value to go on with. -/
theorem bind_eq_ok {x : Except ε α} {f : α → Except ε β} {b : β} :
    (x >>= f) = .ok b ↔ ∃ a, x = .ok a ∧ f a = .ok b := by
  cases x with
  | error e => simp [bind, Except.bind]
  | ok a => simp [bind, Except.bind]

end Sysbench.Checks
