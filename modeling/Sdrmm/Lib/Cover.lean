import Mathlib.Data.Finset.Card
import Mathlib.Data.List.MinMax
import Mathlib.Tactic

/-!
# Choosing one set from every family

Given a list of families of finite sets, choose one member of each so that the union is large.
`reach` is the best that can be had on top of what is covered already.  `card_le_reach` bounds every
choice by it, and `reach_le_union` and `reach_le_gains` are two over-estimates that need no search:
everything there is, and the best member of each family on its own.
-/

namespace Sdrmm.Cover

variable {α : Type*} [DecidableEq α]

def greatest (values : List ℕ) : ℕ := values.foldr max 0

theorem le_greatest {values : List ℕ} {value : ℕ} (hmem : value ∈ values) :
    value ≤ greatest values :=
  List.le_max_of_le hmem le_rfl

theorem greatest_le {values : List ℕ} {bound : ℕ} (hbound : ∀ value ∈ values, value ≤ bound) :
    greatest values ≤ bound :=
  List.max_le_of_forall_le values bound hbound

theorem greatest_map_mono {β : Type*} {f g : β → ℕ} {items : List β}
    (hle : ∀ item ∈ items, f item ≤ g item) :
    greatest (items.map f) ≤ greatest (items.map g) := by
  refine greatest_le ?_
  intro value hvalue
  obtain ⟨item, hitem, rfl⟩ := List.mem_map.mp hvalue
  exact (hle item hitem).trans (le_greatest (List.mem_map_of_mem hitem))

theorem greatest_mem {values : List ℕ} (hvalues : values ≠ []) : greatest values ∈ values :=
  List.maximum_mem (List.foldr_max_of_ne_nil hvalues).symm

/-- The union of some sets. -/
def union (sets : List (Finset α)) : Finset α := sets.foldr (· ∪ ·) ∅

theorem mem_union {sets : List (Finset α)} {a : α} : a ∈ union sets ↔ ∃ s ∈ sets, a ∈ s := by
  induction sets with
  | nil => simp [union]
  | cons s sets ih =>
    rw [union, List.foldr_cons, Finset.mem_union, ← union, ih]
    simp

theorem card_union_le_sum (sets : List (Finset α)) :
    (union sets).card ≤ (sets.map Finset.card).sum := by
  induction sets with
  | nil => simp [union]
  | cons s sets ih =>
    rw [List.map_cons, List.sum_cons]
    exact (Finset.card_union_le s (union sets)).trans (Nat.add_le_add_left ih _)

/-- The largest union of one member per family with what is covered. -/
def reach : List (List (Finset α)) → Finset α → ℕ
  | [], covered => covered.card
  | family :: families, covered =>
      greatest (family.map fun member ↦ reach families (member ∪ covered))

/-- No choice of one member per family does better. -/
theorem card_le_reach {selection : List (Finset α)} {families : List (List (Finset α))}
    (hselection : List.Forall₂ (· ∈ ·) selection families) (covered : Finset α) :
    (covered ∪ union selection).card ≤ reach families covered := by
  induction hselection generalizing covered with
  | nil => simp [union, reach]
  | @cons member family selection families hmember _ ih =>
    have hregroup : covered ∪ union (member :: selection) =
        (member ∪ covered) ∪ union selection := by
      rw [union, List.foldr_cons, ← union, ← Finset.union_assoc, Finset.union_comm covered member]
    rw [hregroup]
    exact (ih (member ∪ covered)).trans (le_greatest (List.mem_map_of_mem hmember))

/-- Where no family is empty, some choice of one member per family attains it. -/
theorem exists_card_eq_reach {families : List (List (Finset α))} (hfamilies : ∀ family ∈ families, family ≠ [])
    (covered : Finset α) :
    ∃ selection, List.Forall₂ (· ∈ ·) selection families ∧
      (covered ∪ union selection).card = reach families covered := by
  induction families generalizing covered with
  | nil => exact ⟨[], .nil, by rw [union, List.foldr_nil, Finset.union_empty, reach]⟩
  | cons family families ih =>
    rw [List.forall_mem_cons] at hfamilies
    have hbest : reach (family :: families) covered ∈
        family.map fun member ↦ reach families (member ∪ covered) := by
      apply greatest_mem
      rw [ne_eq, List.map_eq_nil_iff]
      exact hfamilies.1
    obtain ⟨member, hmember, hreach⟩ := List.mem_map.mp hbest
    obtain ⟨selection, hselection, hcard⟩ := ih hfamilies.2 (member ∪ covered)
    refine ⟨member :: selection, .cons hmember hselection, ?_⟩
    calc
      (covered ∪ union (member :: selection)).card = (member ∪ covered ∪ union selection).card := by
        rw [union, List.foldr_cons, ← union, ← Finset.union_assoc, Finset.union_comm covered member]
      _ = reach (family :: families) covered := by rw [hcard, hreach]

theorem reach_le_union (families : List (List (Finset α))) (covered : Finset α) :
    reach families covered ≤ (covered ∪ union families.flatten).card := by
  induction families generalizing covered with
  | nil => exact Finset.card_le_card Finset.subset_union_left
  | cons family families ih =>
    refine greatest_le ?_
    intro value hvalue
    obtain ⟨member, hmember, rfl⟩ := List.mem_map.mp hvalue
    refine (ih (member ∪ covered)).trans (Finset.card_le_card ?_)
    intro a ha
    rw [List.flatten_cons, Finset.mem_union, mem_union]
    rw [Finset.mem_union, Finset.mem_union, mem_union] at ha
    rcases ha with (hmem | hcovered) | ⟨s, hs, hmem⟩
    · exact .inr ⟨member, List.mem_append_left _ hmember, hmem⟩
    · exact .inl hcovered
    · exact .inr ⟨s, List.mem_append_right _ hs, hmem⟩

/-- The best member of each family, counted by what it adds to what is covered now. -/
def gains (families : List (List (Finset α))) (covered : Finset α) : ℕ :=
  (families.map fun family ↦ greatest (family.map fun member ↦ (member \ covered).card)).sum

theorem gains_anti (families : List (List (Finset α))) {small large : Finset α}
    (hsubset : small ⊆ large) : gains families large ≤ gains families small := by
  refine List.sum_le_sum ?_
  intro family _
  refine greatest_map_mono ?_
  intro member _
  exact Finset.card_le_card (Finset.sdiff_subset_sdiff (Finset.Subset.refl member) hsubset)

theorem reach_le_gains (families : List (List (Finset α))) (covered : Finset α) :
    reach families covered ≤ covered.card + gains families covered := by
  induction families generalizing covered with
  | nil => exact Nat.le_add_right _ _
  | cons family families ih =>
    refine greatest_le ?_
    intro value hvalue
    obtain ⟨member, hmember, rfl⟩ := List.mem_map.mp hvalue
    have hadded : (member ∪ covered).card = (member \ covered).card + covered.card := by
      rw [← Finset.card_sdiff_add_card]
    have hbest : (member \ covered).card ≤
        greatest (family.map fun member ↦ (member \ covered).card) :=
      le_greatest (List.mem_map_of_mem hmember)
    have hrest : gains families (member ∪ covered) ≤ gains families covered :=
      gains_anti families Finset.subset_union_right
    have hsplit : gains (family :: families) covered =
        greatest (family.map fun member ↦ (member \ covered).card) + gains families covered := by
      rw [gains, List.map_cons, List.sum_cons, ← gains]
    calc reach families (member ∪ covered)
        ≤ (member ∪ covered).card + gains families (member ∪ covered) := ih _
      _ ≤ covered.card + gains (family :: families) covered := by omega

end Sdrmm.Cover
