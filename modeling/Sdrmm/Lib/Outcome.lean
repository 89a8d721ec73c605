/-!
# Results that may be errors

What a sequence of steps that may fail says about its steps when it succeeds.
-/

namespace Sdrmm.Lib.Outcome

variable {ε α β : Type}

theorem bind_eq_ok {x : Except ε α} {f : α → Except ε β} {b : β} :
    (x >>= f) = Except.ok b ↔ ∃ a, x = Except.ok a ∧ f a = Except.ok b := by
  cases x with
  | error err => simp [bind, Except.bind]
  | ok a => simp [bind, Except.bind]

theorem map_eq_ok {x : Except ε α} {f : α → β} {b : β} :
    (f <$> x) = Except.ok b ↔ ∃ a, x = Except.ok a ∧ f a = b := by
  cases x with
  | error err => simp [Functor.map, Except.map]
  | ok a => simp [Functor.map, Except.map]

end Sdrmm.Lib.Outcome
