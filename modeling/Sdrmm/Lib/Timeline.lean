import Mathlib

/-!
# Timelines

Entries with the position at which they stand.  A list of entries of which some have a length is a
timeline once every entry is stamped with the length of those before it.  What is in force at a position
is the latest entry at or before it, and what is counted at a position is the sum over the entries there.
-/

namespace Sdrmm.Lib.Timeline

variable {ε δ β : Type*}

/-- Every entry with the total length of the entries before it. -/
def stamp (length : ε → ℕ) : ℕ → List ε → List (ℕ × ε)
  | _, [] => []
  | position, entry :: rest => (position, entry) :: stamp length (position + length entry) rest

theorem stamp_append (length : ε → ℕ) (position : ℕ) (first second : List ε) :
    stamp length position (first ++ second) =
      stamp length position first ++ stamp length (position + (first.map length).sum) second := by
  induction first generalizing position with
  | nil => simp only [stamp, List.nil_append, List.map_nil, List.sum_nil, Nat.add_zero]
  | cons entry rest ih =>
    simp only [stamp, List.cons_append, ih, List.map_cons, List.sum_cons, Nat.add_assoc]

/-- What the latest selected entry at or before `at₀` says. -/
def latest (select : ε → Option β) (at₀ : ℕ) (held : β) (entries : List (ℕ × ε)) : β :=
  entries.foldl (fun held entry ↦ if entry.1 ≤ at₀ then (select entry.2).getD held else held) held

/-- The weight of all entries at `at₀`. -/
def sumAt (weight : ε → ℕ) (at₀ : ℕ) (entries : List (ℕ × ε)) : ℕ :=
  (entries.map fun entry ↦ if entry.1 = at₀ then weight entry.2 else 0).sum

theorem latest_cons (select : ε → Option β) (at₀ : ℕ) (held : β) (entry : ℕ × ε)
    (entries : List (ℕ × ε)) : latest select at₀ held (entry :: entries) =
      latest select at₀ (if entry.1 ≤ at₀ then (select entry.2).getD held else held) entries := rfl

theorem latest_append (select : ε → Option β) (at₀ : ℕ) (held : β) (first second : List (ℕ × ε)) :
    latest select at₀ held (first ++ second) =
      latest select at₀ (latest select at₀ held first) second := List.foldl_append

theorem sumAt_cons (weight : ε → ℕ) (at₀ : ℕ) (entry : ℕ × ε) (entries : List (ℕ × ε)) :
    sumAt weight at₀ (entry :: entries) =
      (if entry.1 = at₀ then weight entry.2 else 0) + sumAt weight at₀ entries := by
  rw [sumAt, List.map_cons, List.sum_cons, sumAt]

theorem sumAt_append (weight : ε → ℕ) (at₀ : ℕ) (first second : List (ℕ × ε)) :
    sumAt weight at₀ (first ++ second) = sumAt weight at₀ first + sumAt weight at₀ second := by
  rw [sumAt, List.map_append, List.sum_append, sumAt, sumAt]

theorem sumAt_perm (weight : ε → ℕ) (at₀ : ℕ) {first second : List (ℕ × ε)}
    (hperm : first.Perm second) : sumAt weight at₀ first = sumAt weight at₀ second :=
  (hperm.map _).sum_eq

theorem sumAt_eq_zero {weight : ε → ℕ} {at₀ : ℕ} {entries : List (ℕ × ε)}
    (hnone : ∀ entry ∈ entries, entry.1 = at₀ → weight entry.2 = 0) :
    sumAt weight at₀ entries = 0 := by
  apply List.sum_eq_zero
  intro value hvalue
  obtain ⟨entry, hentry, rfl⟩ := List.mem_map.mp hvalue
  split_ifs with hat
  · exact hnone entry hentry hat
  · rfl

/-- The selected entries, where they stand. -/
def pick (select : ε → Option β) (entries : List (ℕ × ε)) : List (ℕ × β) :=
  entries.filterMap fun entry ↦ (select entry.2).map (entry.1, ·)

theorem pick_append (select : ε → Option β) (first second : List (ℕ × ε)) :
    pick select (first ++ second) = pick select first ++ pick select second := List.filterMap_append

theorem mem_pick {select : ε → Option β} {entries : List (ℕ × ε)} {picked : ℕ × β} :
    picked ∈ pick select entries ↔ ∃ entry, (picked.1, entry) ∈ entries ∧ select entry = some picked.2 := by
  rw [pick, List.mem_filterMap]
  constructor
  · rintro ⟨entry, hentry, hpicked⟩
    obtain ⟨value, hvalue, rfl⟩ := Option.map_eq_some_iff.mp hpicked
    exact ⟨entry.2, hentry, hvalue⟩
  · rintro ⟨entry, hentry, hvalue⟩
    exact ⟨(picked.1, entry), hentry, by rw [hvalue]; rfl⟩

/-- Only the selected entries count. -/
theorem latest_pick (select : ε → Option β) (at₀ : ℕ) (held : β) (entries : List (ℕ × ε)) :
    latest select at₀ held entries = latest some at₀ held (pick select entries) := by
  induction entries generalizing held with
  | nil => rfl
  | cons entry entries ih =>
    rw [latest_cons, ih, pick, pick]
    cases hselect : select entry.2 with
    | none => rw [List.filterMap_cons_none (by rw [hselect]; rfl), Option.getD_none, ite_self]
    | some value =>
      rw [List.filterMap_cons_some (by rw [hselect]; rfl), latest_cons, Option.getD_some]

/-- Entries that stand at different positions have one order. -/
theorem eq_of_perm {first second : List (ℕ × ε)} (hperm : first.Perm second)
    (hfirst : first.Pairwise fun a b ↦ a.1 ≤ b.1) (hsecond : second.Pairwise fun a b ↦ a.1 < b.1) :
    first = second := by
  apply hperm.eq_of_pairwise _ hfirst (hsecond.imp Nat.le_of_lt)
  intro a b ha hb hab hba
  by_contra hne
  have hdistinct : second.Pairwise fun x y ↦ x.1 ≠ y.1 := hsecond.imp fun h ↦ Nat.ne_of_lt h
  have hsymmetric : Std.Symm fun x y : ℕ × ε ↦ x.1 ≠ y.1 := ⟨fun _ _ h ↦ h.symm⟩
  exact hdistinct.forall (hperm.mem_iff.mp ha) hb hne (Nat.le_antisymm hab hba)

/-- Sorting does not change what is in force, where no two selected entries stand at one position. -/
theorem latest_of_perm {select : ε → Option β} {first second : List (ℕ × ε)} (hperm : first.Perm second)
    (hfirst : first.Pairwise fun a b ↦ a.1 ≤ b.1)
    (hsecond : (pick select second).Pairwise fun a b ↦ a.1 < b.1) (at₀ : ℕ) (held : β) :
    latest select at₀ held first = latest select at₀ held second := by
  have hsorted : (pick select first).Pairwise fun a b ↦ a.1 ≤ b.1 := by
    apply hfirst.filterMap
    intro a b hab a' ha b' hb
    obtain ⟨-, -, rfl⟩ := Option.map_eq_some_iff.mp ha
    obtain ⟨-, -, rfl⟩ := Option.map_eq_some_iff.mp hb
    exact hab
  have hpicked : pick select first = pick select second :=
    eq_of_perm (hperm.filterMap _) hsorted hsecond
  rw [latest_pick, hpicked, ← latest_pick]

end Sdrmm.Lib.Timeline
