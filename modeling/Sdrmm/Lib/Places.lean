import Mathlib.Tactic

/-!
# Parts of an array

Reading an array at a list of places and writing a list of values there, for arrays as functions
from their indices.
-/

namespace Sdrmm.Places

variable {ι α : Type*} [DecidableEq ι]

omit [DecidableEq ι] in
def gather (places : List ι) (array : ι → α) : List α := places.map array

/-- Write the values at the places one after the other. -/
def scatter (places : List ι) (values : List α) (array : ι → α) : ι → α :=
  (places.zip values).foldl (fun array (place, value) ↦ Function.update array place value) array

theorem scatter_cons (place : ι) (places : List ι) (value : α) (values : List α) (array : ι → α) :
    scatter (place :: places) (value :: values) array =
      scatter places values (Function.update array place value) := rfl

theorem scatter_of_notMem {places : List ι} {place : ι} (hplace : place ∉ places)
    (values : List α) (array : ι → α) : scatter places values array place = array place := by
  induction places generalizing values array with
  | nil => rfl
  | cons first places ih =>
    rw [List.mem_cons, not_or] at hplace
    cases values with
    | nil => rfl
    | cons value values => rw [scatter_cons, ih hplace.2, Function.update_of_ne hplace.1]

theorem gather_scatter {places : List ι} (hplaces : places.Nodup) {values : List α}
    (hlength : values.length = places.length) (array : ι → α) :
    gather places (scatter places values array) = values := by
  induction places generalizing values array with
  | nil => exact (List.length_eq_zero_iff.mp hlength).symm
  | cons place places ih =>
    obtain ⟨hplace, hrest⟩ := List.nodup_cons.mp hplaces
    cases values with
    | nil => exact nomatch hlength
    | cons value values =>
      rw [scatter_cons, gather, List.map_cons, scatter_of_notMem hplace, Function.update_self]
      congr 1
      exact ih hrest (Nat.succ.inj hlength) _

theorem scatter_gather (places : List ι) (array : ι → α) :
    scatter places (gather places array) array = array := by
  induction places with
  | nil => rfl
  | cons place places ih =>
    change scatter places (gather places array) (Function.update array place (array place)) = array
    rw [Function.update_eq_self, ih]

omit [DecidableEq ι] in
theorem gather_congr_iff {places : List ι} {first second : ι → α} :
    gather places first = gather places second ↔ ∀ place ∈ places, first place = second place :=
  List.map_inj_left

/-! ## Flipped bits -/

omit [DecidableEq ι] in
theorem gather_eq_of_countP {places : List ι} {first second : ι → Bool}
    (hnone : places.countP (fun place ↦ first place != second place) = 0) :
    gather places first = gather places second := by
  apply gather_congr_iff.mpr
  intro place hplace
  have hsame := List.countP_eq_zero.mp hnone place hplace
  rwa [bne_iff_ne, not_not] at hsame

omit [DecidableEq ι] in
theorem gather_eq_modify {places : List ι} {first second : ι → Bool}
    (hone : places.countP (fun place ↦ first place != second place) = 1) :
    ∃ i < places.length, gather places first = (gather places second).modify i not := by
  induction places with
  | nil => exact nomatch hone
  | cons place places ih =>
    rw [List.countP_cons] at hone
    cases hdiffer : first place != second place with
    | true =>
      rw [hdiffer, if_pos rfl, Nat.add_eq_right] at hone
      have hflip : first place = !second place := Bool.eq_not_of_ne (bne_iff_ne.mp hdiffer)
      refine ⟨0, Nat.succ_pos _, ?_⟩
      change first place :: gather places first = (!second place) :: gather places second
      rw [hflip, gather_eq_of_countP hone]
    | false =>
      rw [hdiffer, if_neg Bool.false_ne_true, Nat.add_zero] at hone
      obtain ⟨i, hi, hrest⟩ := ih hone
      refine ⟨i + 1, Nat.succ_lt_succ hi, ?_⟩
      change first place :: gather places first = second place :: (gather places second).modify i not
      rw [bne_eq_false_iff_eq.mp hdiffer, hrest]

end Sdrmm.Places
