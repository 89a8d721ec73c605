import Mathlib.Data.List.Basic
import Mathlib.Tactic

/-!
# The last frames in a ring of lines

A ring of lines takes frames in turn, each into the line of the oldest.  `Holds` says which frame a line holds by
its age, and a push keeps it for the history with one frame more.
-/

namespace Sdrmm.FrameRing

variable {α : Type*} {blank : α} {history lines : List α}

/-- The lines hold the last frames of a history, and blanks for those that never came. -/
structure Holds (blank : α) (history lines : List α) : Prop where
  lines_ne : lines ≠ []
  line : ∀ age < lines.length,
    lines[(history.length + (lines.length - 1 - age)) % lines.length]? = some (history.reverse.getD age blank)

theorem holds_blank {depth : ℕ} (hdepth : 0 < depth) : Holds blank [] (List.replicate depth blank) where
  lines_ne := List.ne_nil_of_length_pos (by rwa [List.length_replicate])
  line := by
    intro age hage
    rw [List.length_replicate] at hage ⊢
    rw [List.getElem?_replicate_of_lt (Nat.mod_lt _ hdepth)]
    rfl

/-- The frame of an age is in the line of that age. -/
theorem Holds.at_line (hholds : Holds blank history lines) {age line : ℕ} (hage : age < lines.length)
    (hline : line = (history.length + (lines.length - 1 - age)) % lines.length) :
    lines[line]? = some (history.reverse.getD age blank) := hline ▸ hholds.line age hage

theorem Holds.push (hholds : Holds blank history lines) (frame : α) :
    Holds blank (history ++ [frame]) (lines.set (history.length % lines.length) frame) where
  lines_ne := by
    rw [ne_eq, List.set_eq_nil_iff]
    exact hholds.lines_ne
  line := by
    have hpos : 0 < lines.length := List.length_pos_of_ne_nil hholds.lines_ne
    intro age hage
    rw [List.length_set] at hage ⊢
    rw [List.length_append, List.length_singleton, List.reverse_append, List.reverse_singleton,
      List.singleton_append]
    cases age with
    | zero =>
      have hplace : (history.length + 1 + (lines.length - 1 - 0)) % lines.length = history.length % lines.length := by
        rw [Nat.sub_zero, Nat.add_assoc, Nat.add_sub_cancel' hpos, Nat.add_mod_right]
      rw [hplace, List.getElem?_set_self (Nat.mod_lt _ hpos)]
      rfl
    | succ age =>
      have hplace : history.length + 1 + (lines.length - 1 - (age + 1)) =
          history.length + (lines.length - 1 - age) := by omega
      have hne : history.length % lines.length ≠ (history.length + (lines.length - 1 - age)) % lines.length := by
        intro heq
        have hdvd := (Nat.modEq_iff_dvd' (Nat.le_add_right _ _)).mp heq
        rw [Nat.add_sub_cancel_left] at hdvd
        have hle := Nat.le_of_dvd (by omega) hdvd
        omega
      rw [hplace, List.getElem?_set_ne hne, hholds.line age (by omega)]
      rfl

end Sdrmm.FrameRing
