import Mathlib.Data.List.GetD

/-!
# Tables filled entry by entry
-/

namespace Sdrmm.LookupTable

variable {α : Type*} {blank : α} {address : ℕ → ℕ} {entry : ℕ → α}

def fill (address : ℕ → ℕ) (entry : ℕ → α) (count : ℕ) (table : List α) : List α :=
  (List.range count).foldl (fun table i ↦ table.set (address i) (entry i)) table

theorem fill_succ (count : ℕ) (table : List α) :
    fill address entry (count + 1) table =
      (fill address entry count table).set (address count) (entry count) := by
  rw [fill, List.range_succ, List.foldl_append]
  rfl

theorem length_fill (count : ℕ) (table : List α) :
    (fill address entry count table).length = table.length := by
  induction count with
  | zero => rfl
  | succ count ih => rw [fill_succ, List.length_set, ih]

/-- No entry is overwritten when no address comes twice. -/
theorem getD_fill {count i : ℕ} {table : List α} (hi : i < count)
    (hfits : address i < table.length)
    (hdistinct : ∀ j < count, address j = address i → j = i) :
    (fill address entry count table).getD (address i) blank = entry i := by
  induction count with
  | zero => exact absurd hi (Nat.not_lt_zero i)
  | succ count ih =>
    rw [fill_succ, List.getD_eq_getElem?_getD, List.getElem?_set, length_fill]
    by_cases hlast : address count = address i
    · obtain rfl : count = i := hdistinct count (Nat.lt_succ_self count) hlast
      rw [if_pos rfl, if_pos hfits]
      rfl
    · have hlow : i < count := by
        apply Nat.lt_of_le_of_ne (Nat.le_of_lt_succ hi)
        intro heq
        exact hlast (congrArg address heq.symm)
      rw [if_neg hlast, ← List.getD_eq_getElem?_getD]
      apply ih hlow
      intro j hj
      exact hdistinct j (Nat.lt_succ_of_lt hj)

theorem getD_map_range {count i : ℕ} (hi : i < count) :
    ((List.range count).map entry).getD i blank = entry i := by
  rw [List.getD_eq_getElem?_getD, List.getElem?_map, List.getElem?_range hi]
  rfl

end Sdrmm.LookupTable
