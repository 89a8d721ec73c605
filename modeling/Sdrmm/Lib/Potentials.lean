import Mathlib.Algebra.Order.BigOperators.Group.Finset
import Mathlib.Logic.Equiv.Fintype
import Mathlib.Tactic

/-!
# Potentials of an assignment problem

Rows are matched with columns, each pair at a cost in an ordered group.  Potentials of the rows and columns
leave a reduced cost of each pair.  An assignment on pairs of reduced cost zero costs the least of all when
no reduced cost is negative (`sum_le_of_tight`).  `raised` is the change of potentials that makes a new pair
tight and keeps what is matched, and `exists_completion` takes a matching of some rows to an assignment.
-/

namespace Sdrmm.Lib.Potentials

variable {R C Γ : Type*} [AddCommGroup Γ]

/-- What a pair costs beyond the potentials of its row and its column. -/
def reduced (cost : R → C → Γ) (u : R → Γ) (v : C → Γ) (row : R) (col : C) : Γ :=
  cost row col - u row - v col

section Assignments

variable {cost : R → C → Γ} {u : R → Γ} {v : C → Γ} {rows : Finset R} {cols : Finset C}

/-- A column for each row, none twice, and as many columns as rows. -/
structure IsAssignment (rows : Finset R) (cols : Finset C) (pick : R → C) : Prop where
  mem : ∀ row ∈ rows, pick row ∈ cols
  inj : ∀ row ∈ rows, ∀ other ∈ rows, pick row = pick other → row = other
  card : rows.card = cols.card

theorem IsAssignment.sum_cols {pick : R → C} (hpick : IsAssignment rows cols pick) :
    ∑ row ∈ rows, v (pick row) = ∑ col ∈ cols, v col := by
  have hsurj := Finset.surjOn_of_injOn_of_card_le pick hpick.mem
    (fun row hrow other hother ↦ hpick.inj row hrow other hother) hpick.card.ge
  apply Finset.sum_bij (fun row _ ↦ pick row)
  · exact hpick.mem
  · exact fun row hrow other hother ↦ hpick.inj row hrow other hother
  · intro col hcol
    obtain ⟨row, hrow, heq⟩ := hsurj hcol
    exact ⟨row, hrow, heq⟩
  · exact fun row _ ↦ rfl

/-- The potentials are in every assignment alike. -/
theorem IsAssignment.sum_cost {pick : R → C} (hpick : IsAssignment rows cols pick) :
    ∑ row ∈ rows, cost row (pick row) =
      ∑ row ∈ rows, reduced cost u v row (pick row) + (∑ row ∈ rows, u row + ∑ col ∈ cols, v col) := by
  rw [← hpick.sum_cols, ← Finset.sum_add_distrib, ← Finset.sum_add_distrib]
  apply Finset.sum_congr rfl
  intro row _
  rw [reduced]
  abel

variable [LinearOrder Γ] [IsOrderedAddMonoid Γ]

theorem sum_le_of_tight {pick other : R → C} (hpick : IsAssignment rows cols pick)
    (hother : IsAssignment rows cols other)
    (hfeasible : ∀ row ∈ rows, ∀ col ∈ cols, 0 ≤ reduced cost u v row col)
    (htight : ∀ row ∈ rows, reduced cost u v row (pick row) = 0) :
    ∑ row ∈ rows, cost row (pick row) ≤ ∑ row ∈ rows, cost row (other row) := by
  rw [hpick.sum_cost (u := u) (v := v), hother.sum_cost (u := u) (v := v), Finset.sum_eq_zero htight, zero_add]
  have hsum : 0 ≤ ∑ row ∈ rows, reduced cost u v row (other row) :=
    Finset.sum_nonneg fun row hrow ↦ hfeasible row hrow (other row) (hother.mem row hrow)
  exact le_add_of_nonneg_left hsum

end Assignments

/-! ## Raising potentials -/

section Raise

variable (cost : R → C → Γ) (u : R → Γ) (v : C → Γ) (heldRow : R → Prop) (heldCol : C → Prop)
  [DecidablePred heldRow] [DecidablePred heldCol] (delta : Γ)

/-- The potentials of the rows held go up. -/
def raisedRow : R → Γ := fun row ↦ if heldRow row then u row + delta else u row

/-- The potentials of the columns held go down. -/
def loweredCol : C → Γ := fun col ↦ if heldCol col then v col - delta else v col

theorem reduced_raise (row : R) (col : C) :
    reduced cost (raisedRow u heldRow delta) (loweredCol v heldCol delta) row col =
      reduced cost u v row col + (if heldCol col then delta else 0) - (if heldRow row then delta else 0) := by
  rw [reduced, reduced, raisedRow, loweredCol]
  split_ifs <;> abel

variable {row : R} {col : C}

/-- Between a row and a column of the same side nothing changes. -/
theorem reduced_raise_of_iff (hsame : heldRow row ↔ heldCol col) :
    reduced cost (raisedRow u heldRow delta) (loweredCol v heldCol delta) row col = reduced cost u v row col := by
  rw [reduced_raise, if_congr hsame rfl rfl, add_sub_cancel_right]

theorem reduced_raise_row (hrow : heldRow row) (hcol : ¬heldCol col) :
    reduced cost (raisedRow u heldRow delta) (loweredCol v heldCol delta) row col =
      reduced cost u v row col - delta := by
  rw [reduced_raise, if_neg hcol, if_pos hrow, add_zero]

theorem reduced_raise_col (hrow : ¬heldRow row) (hcol : heldCol col) :
    reduced cost (raisedRow u heldRow delta) (loweredCol v heldCol delta) row col =
      reduced cost u v row col + delta := by
  rw [reduced_raise, if_pos hcol, if_neg hrow, sub_zero]

end Raise

/-! ## Matchings of some rows -/

/-- A matching that uses no column twice is part of a permutation. -/
theorem exists_completion {α : Type*} [Finite α] {pick : α → Option α}
    (hinj : ∀ row other col, pick row = some col → pick other = some col → row = other) :
    ∃ perm : Equiv.Perm α, ∀ row col, pick row = some col → perm row = col := by
  let matched := {row : α // (pick row).isSome}
  have hpicked : Function.Injective fun row : matched ↦ (pick row.1).get row.2 := by
    intro row other heq
    apply Subtype.ext
    apply hinj row.1 other.1 ((pick row.1).get row.2) (Option.some_get row.2).symm
    rw [show (pick row.1).get row.2 = (pick other.1).get other.2 from heq]
    exact (Option.some_get other.2).symm
  obtain ⟨perm, hperm⟩ := Equiv.Perm.exists_extending_pair (Subtype.val : matched → α) _
    Subtype.val_injective hpicked
  refine ⟨perm, ?_⟩
  intro row col hcol
  have hrow := hperm ⟨row, Option.isSome_of_eq_some hcol⟩
  rw [hrow]
  exact Option.get_of_eq_some _ hcol

end Sdrmm.Lib.Potentials
