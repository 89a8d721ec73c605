import Mathlib.Algebra.Order.BigOperators.Group.Finset
import Sdrmm.Dsp.AssignLoops

/-!
# Matchings of a padded problem

A problem is padded to a square.  An assignment of the square chooses the pairs of it that are allowed, and any
matching of allowed pairs is part of what some assignment chooses.  As all assignments have as many pairs inside
the problem, one that costs the least chooses as many pairs as any matching has and the least total of those that
have as many (`chosen_optimal`).
-/

namespace Sdrmm.Assign

open Lib.Potentials Assignment

section Matching

variable (rows cols : ℕ) (cost : ℕ → ℕ → Option F64) (pick : ℕ → Option ℕ)

/-- Only allowed pairs, and no column twice. -/
structure IsMatching : Prop where
  allowed : ∀ row < rows, ∀ col, pick row = some col → col < cols ∧ ∃ total, cost row col = some (.finite total)
  inj : ∀ row < rows, ∀ other < rows, ∀ col, pick row = some col → pick other = some col → row = other

/-- How many rows have a column. -/
def matched : ℕ := ((Finset.range rows).filter fun row ↦ (pick row).isSome).card

def finiteTotal : Option F64 → ℚ
  | some (.finite total) => total
  | _ => 0

def pairTotal (row : ℕ) : Option ℕ → ℚ
  | some col => finiteTotal (cost row col)
  | none => 0

/-- What the pairs of a matching cost together. -/
def totalCost : ℚ := ∑ row ∈ Finset.range rows, pairTotal cost row (pick row)

end Matching

/-- What a pair of the padded square costs. -/
def weight (rows cols : ℕ) (cost : ℕ → ℕ → Option F64) (row col : ℕ) : Exact :=
  if row < rows ∧ col < cols then
    match cost row col with
    | some (.finite total) => toLex (0, total)
    | _ => toLex (1, 0)
  else 0

theorem allowed_of {value : Option F64} : (Cost.of value).allowed = true ↔ ∃ total, value = some (.finite total) := by
  match value with
  | some (.finite total) => exact iff_of_true (by rfl) ⟨total, rfl⟩
  | some (.infinite negative) => exact iff_of_false Bool.false_ne_true nofun
  | some .nan => exact iff_of_false (by decide) nofun
  | none => exact iff_of_false (by decide) nofun

theorem padded_eq_weight (rows cols : ℕ) (cost : ℕ → ℕ → Option F64) (row col : ℕ) :
    padded rows cols cost row col = .exact (weight rows cols cost row col) := by
  rw [padded, weight]
  split_ifs
  · match cost row col with
    | some (.finite total) => rfl
    | some (.infinite negative) => rfl
    | some .nan => rfl
    | none => rfl
  · rfl

/-! ## What an assignment chooses -/

section Chosen

variable {rows cols : ℕ} {cost : ℕ → ℕ → Option F64} {pick : ℕ → ℕ}

/-- The column that a row is assigned, when it is a pair that is allowed. -/
def chosen (cols : ℕ) (cost : ℕ → ℕ → Option F64) (pick : ℕ → ℕ) (row : ℕ) : Option ℕ :=
  if pick row < cols ∧ (Cost.of (cost row (pick row))).allowed then some (pick row) else none

theorem chosen_eq_some {row col : ℕ} :
    chosen cols cost pick row = some col ↔
      pick row = col ∧ col < cols ∧ ∃ total, cost row col = some (.finite total) := by
  rw [chosen]
  constructor
  · intro h
    split_ifs at h with hallowed
    rw [← Option.some.inj h]
    exact ⟨rfl, hallowed.1, allowed_of.mp hallowed.2⟩
  · rintro ⟨rfl, hlt, hallowed⟩
    exact if_pos ⟨hlt, allowed_of.mpr hallowed⟩

abbrev Square (rows cols : ℕ) (pick : ℕ → ℕ) : Prop :=
  IsAssignment (Finset.range (max rows cols)) (Finset.range (max rows cols)) pick

theorem isMatching_chosen (hpick : Square rows cols pick) : IsMatching rows cols cost (chosen cols cost pick) where
  allowed := fun _ _ _ h ↦ (chosen_eq_some.mp h).2
  inj := by
    intro row hrow other hother col h h'
    have hmem {row : ℕ} (hrow : row < rows) : row ∈ Finset.range (max rows cols) :=
      Finset.mem_range.mpr (hrow.trans_le (le_max_left rows cols))
    exact hpick.inj row (hmem hrow) other (hmem hother)
      ((chosen_eq_some.mp h).1.trans (chosen_eq_some.mp h').1.symm)

/-- Whether a pair of the padded square is inside the problem. -/
def inside (rows cols row col : ℕ) : ℚ := if row < rows ∧ col < cols then 1 else 0

def taken (rows cols : ℕ) (cost : ℕ → ℕ → Option F64) (pick : ℕ → ℕ) (row : ℕ) : ℚ :=
  if row < rows ∧ (chosen cols cost pick row).isSome then 1 else 0

/-- All assignments have as many pairs inside. -/
theorem sum_inside (hpick : Square rows cols pick) {other : ℕ → ℕ} (hother : Square rows cols other) :
    ∑ row ∈ Finset.range (max rows cols), inside rows cols row (pick row) =
      ∑ row ∈ Finset.range (max rows cols), inside rows cols row (other row) := by
  rcases Nat.le_total rows cols with hle | hle
  · apply Finset.sum_congr rfl
    intro row hrow
    have hlt {pick : ℕ → ℕ} (hpick : Square rows cols pick) : pick row < cols :=
      (Finset.mem_range.mp (hpick.mem row hrow)).trans_le (max_le hle le_rfl)
    rw [inside, inside, if_congr (and_congr_right fun _ ↦ iff_of_true (hlt hpick) (hlt hother)) rfl rfl]
  · have hcols {pick : ℕ → ℕ} (hpick : Square rows cols pick) :
        ∑ row ∈ Finset.range (max rows cols), inside rows cols row (pick row) =
          ∑ col ∈ Finset.range (max rows cols), if col < cols then (1 : ℚ) else 0 := by
      rw [← hpick.sum_cols (v := fun col ↦ if col < cols then (1 : ℚ) else 0)]
      apply Finset.sum_congr rfl
      intro row hrow
      have hlt : row < rows := (Finset.mem_range.mp hrow).trans_le (max_le le_rfl hle)
      exact if_congr (and_iff_right hlt) rfl rfl
    rw [hcols hpick, hcols hother]

/-- A pair counts as forbidden when it is inside and not taken. -/
theorem weight_eq (row : ℕ) : weight rows cols cost row (pick row) =
    toLex (inside rows cols row (pick row) - taken rows cols cost pick row,
      if row < rows then pairTotal cost row (chosen cols cost pick row) else 0) := by
  by_cases hrow : row < rows
  · by_cases hcol : pick row < cols
    · rw [weight, inside, taken, if_pos ⟨hrow, hcol⟩, if_pos ⟨hrow, hcol⟩, if_pos hrow]
      by_cases hallowed : ∃ total, cost row (pick row) = some (.finite total)
      · obtain ⟨total, htotal⟩ := hallowed
        have hchosen : chosen cols cost pick row = some (pick row) :=
          chosen_eq_some.mpr ⟨rfl, hcol, total, htotal⟩
        rw [hchosen, if_pos ⟨hrow, rfl⟩, sub_self, pairTotal, htotal]
        rfl
      · have hchosen : chosen cols cost pick row = none := if_neg fun h ↦ hallowed (allowed_of.mp h.2)
        rw [hchosen, if_neg fun h ↦ Bool.false_ne_true h.2, sub_zero, pairTotal]
        split
        · exact absurd ⟨_, ‹_›⟩ hallowed
        · rfl
    · have hchosen : chosen cols cost pick row = none := if_neg fun h ↦ hcol h.1
      rw [weight, inside, taken, hchosen, if_neg fun h ↦ hcol h.2, if_neg fun h ↦ hcol h.2,
        if_neg fun h ↦ Bool.false_ne_true h.2, if_pos hrow, sub_zero]
      rfl
  · rw [weight, inside, taken, if_neg fun h ↦ hrow h.1, if_neg fun h ↦ hrow h.1, if_neg fun h ↦ hrow h.1,
      if_neg hrow, sub_zero]
    rfl

theorem sum_toLex {ι : Type} (items : Finset ι) (f g : ι → ℚ) :
    (∑ i ∈ items, (toLex (f i, g i) : Exact)) = toLex (∑ i ∈ items, f i, ∑ i ∈ items, g i) := by
  classical
  induction items using Finset.induction_on with
  | empty => rfl
  | insert i items hi ih =>
    rw [Finset.sum_insert hi, Finset.sum_insert hi, Finset.sum_insert hi, ih]
    rfl

theorem sum_range_ite {count size : ℕ} (hle : count ≤ size) (f : ℕ → ℚ) :
    (∑ row ∈ Finset.range size, if row < count then f row else 0) = ∑ row ∈ Finset.range count, f row := by
  rw [← Finset.sum_filter]
  congr 1
  ext row
  rw [Finset.mem_filter, Finset.mem_range, Finset.mem_range]
  exact ⟨And.right, fun h ↦ ⟨h.trans_le hle, h⟩⟩

theorem sum_taken : ∑ row ∈ Finset.range (max rows cols), taken rows cols cost pick row =
    matched rows (chosen cols cost pick) := by
  calc
    _ = ∑ row ∈ Finset.range (max rows cols),
        if row < rows then (if (chosen cols cost pick row).isSome then (1 : ℚ) else 0) else 0 := by
      apply Finset.sum_congr rfl
      intro row _
      exact ite_and ..
    _ = ∑ row ∈ Finset.range rows, if (chosen cols cost pick row).isSome then (1 : ℚ) else 0 :=
      sum_range_ite (le_max_left rows cols) _
    _ = matched rows (chosen cols cost pick) := Finset.sum_boole ..

theorem sum_weight : ∑ row ∈ Finset.range (max rows cols), weight rows cols cost row (pick row) =
    toLex (∑ row ∈ Finset.range (max rows cols), inside rows cols row (pick row) -
      matched rows (chosen cols cost pick), totalCost rows cost (chosen cols cost pick)) := by
  rw [Finset.sum_congr rfl fun row _ ↦ weight_eq row, sum_toLex, Finset.sum_sub_distrib, sum_taken,
    sum_range_ite (le_max_left rows cols)]
  rfl

/-- Of two assignments the one that costs less chooses more pairs, or as many and a total no greater. -/
theorem chosen_le_of_weight_le {other : ℕ → ℕ} (hpick : Square rows cols pick) (hother : Square rows cols other)
    (hle : ∑ row ∈ Finset.range (max rows cols), weight rows cols cost row (pick row) ≤
      ∑ row ∈ Finset.range (max rows cols), weight rows cols cost row (other row)) :
    matched rows (chosen cols cost other) < matched rows (chosen cols cost pick) ∨
      matched rows (chosen cols cost other) = matched rows (chosen cols cost pick) ∧
        totalCost rows cost (chosen cols cost pick) ≤ totalCost rows cost (chosen cols cost other) := by
  rw [sum_weight, sum_weight, sum_inside hpick hother, Prod.Lex.toLex_le_toLex] at hle
  refine hle.imp (fun hlt ↦ ?_) (fun ⟨heq, htotal⟩ ↦ ⟨?_, htotal⟩)
  · exact Nat.cast_lt.mp (sub_lt_sub_iff_left _ |>.mp hlt)
  · exact (Nat.cast_inj.mp (sub_right_inj.mp heq)).symm

end Chosen

/-! ## Any matching -/

section Optimal

variable {rows cols : ℕ} {cost : ℕ → ℕ → Option F64} {pick : ℕ → Option ℕ}

/-- A matching is part of an assignment of the square. -/
theorem IsMatching.exists_square (hmatching : IsMatching rows cols cost pick) :
    ∃ other, Square rows cols other ∧ ∀ row < rows, ∀ col, pick row = some col → other row = col := by
  let size := max rows cols
  let placed : Fin size → Option (Fin size) := fun row ↦
    if row.1 < rows then (pick row.1).bind fun col ↦ if h : col < size then some ⟨col, h⟩ else none else none
  have hplaced (row col : Fin size) (h : placed row = some col) : row.1 < rows ∧ pick row.1 = some col.1 := by
    simp only [placed] at h
    split_ifs at h with hrow
    obtain ⟨value, hvalue, hcol⟩ := Option.bind_eq_some_iff.mp h
    split_ifs at hcol
    rw [← Option.some.inj hcol]
    exact ⟨hrow, hvalue⟩
  obtain ⟨perm, hperm⟩ := @exists_completion _ _ placed fun row other col h h' ↦
    Fin.ext (hmatching.inj row (hplaced row col h).1 other (hplaced other col h').1 col
      (hplaced row col h).2 (hplaced other col h').2)
  refine ⟨fun row ↦ if h : row < size then (perm ⟨row, h⟩).1 else 0, ?_, ?_⟩
  · constructor
    · intro row hrow
      rw [dif_pos (Finset.mem_range.mp hrow)]
      exact Finset.mem_range.mpr (perm _).2
    · intro row hrow other hother heq
      rw [dif_pos (Finset.mem_range.mp hrow), dif_pos (Finset.mem_range.mp hother)] at heq
      exact congrArg Fin.val (perm.injective (Fin.ext heq))
    · rfl
  · intro row hrow col hcol
    have hsize : row < size := hrow.trans_le (le_max_left rows cols)
    have hcolSize : col < size := (hmatching.allowed row hrow col hcol).1.trans_le (le_max_right rows cols)
    have hput : placed ⟨row, hsize⟩ = some ⟨col, hcolSize⟩ := by
      simp only [placed]
      rw [if_pos hrow, hcol, Option.bind_some, dif_pos hcolSize]
    exact (dif_pos hsize).trans (by rw [hperm _ _ hput])

section Extends

variable {larger : ℕ → Option ℕ}
  (hextends : ∀ row < rows, ∀ col, pick row = some col → larger row = some col)

include hextends

theorem filter_subset_of_extends : (Finset.range rows).filter (fun row ↦ (pick row).isSome) ⊆
    (Finset.range rows).filter fun row ↦ (larger row).isSome := by
  intro row hrow
  obtain ⟨hmem, hsome⟩ := Finset.mem_filter.mp hrow
  obtain ⟨col, hcol⟩ := Option.isSome_iff_exists.mp hsome
  exact Finset.mem_filter.mpr
    ⟨hmem, Option.isSome_of_eq_some (hextends row (Finset.mem_range.mp hmem) col hcol)⟩

theorem matched_le_of_extends : matched rows pick ≤ matched rows larger :=
  Finset.card_le_card (filter_subset_of_extends hextends)

theorem totalCost_of_extends (heq : matched rows larger ≤ matched rows pick) :
    totalCost rows cost larger = totalCost rows cost pick := by
  have hsame := Finset.eq_of_subset_of_card_le (filter_subset_of_extends hextends) heq
  apply Finset.sum_congr rfl
  intro row hrow
  cases hpick : pick row with
  | some col => rw [hextends row (Finset.mem_range.mp hrow) col hpick]
  | none =>
    have hnot : row ∉ (Finset.range rows).filter fun row ↦ (larger row).isSome := by
      rw [← hsame, Finset.mem_filter, hpick]
      exact fun h ↦ Bool.false_ne_true h.2
    rw [Option.not_isSome_iff_eq_none.mp fun h ↦ hnot (Finset.mem_filter.mpr ⟨hrow, h⟩)]

end Extends

/-- The assignment that costs the least is best among all matchings. -/
theorem chosen_optimal {least : ℕ → ℕ} (hsquare : Square rows cols least)
    (hleast : ∀ other, Square rows cols other →
      ∑ row ∈ Finset.range (max rows cols), weight rows cols cost row (least row) ≤
        ∑ row ∈ Finset.range (max rows cols), weight rows cols cost row (other row))
    (hmatching : IsMatching rows cols cost pick) :
    matched rows pick ≤ matched rows (chosen cols cost least) ∧
      (matched rows pick = matched rows (chosen cols cost least) →
        totalCost rows cost (chosen cols cost least) ≤ totalCost rows cost pick) := by
  obtain ⟨other, hother, hpart⟩ := hmatching.exists_square
  have hextends : ∀ row < rows, ∀ col, pick row = some col → chosen cols cost other row = some col :=
    fun row hrow col hcol ↦ chosen_eq_some.mpr ⟨hpart row hrow col hcol, hmatching.allowed row hrow col hcol⟩
  have hfewer := matched_le_of_extends hextends
  rcases chosen_le_of_weight_le hsquare hother (hleast other hother) with hmore | ⟨heq, htotal⟩
  · have hlt := hfewer.trans_lt hmore
    exact ⟨hlt.le, fun h ↦ absurd h hlt.ne⟩
  · refine ⟨hfewer.trans heq.le, fun h ↦ ?_⟩
    rw [← totalCost_of_extends hextends (heq.trans h.symm).le]
    exact htotal

end Optimal

end Sdrmm.Assign
