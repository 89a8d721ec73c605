import Mathlib.Tactic
import Sdrmm.Lib.SortedMap

/-!
# Values written down only where they change

A map over consecutive numbers in which an entry may leave out its value, to say that it is that of its
neighbours.  `held` looks for the nearest entry behind that has one, and ahead where there is none behind.
It answers the value each number has, `Stands`, as long as the two sides of every change are written down.
-/

namespace Sdrmm.Lib.Held

variable {α β : Type*}

def behind (map : SortedMap ℕ α) (own : α → Option β) (key : ℕ) : Option (ℕ × α) :=
  map.findRev? fun entry ↦ entry.1 ≤ key && (own entry.2).isSome

def ahead (map : SortedMap ℕ α) (own : α → Option β) (key : ℕ) : Option (ℕ × α) :=
  map.find? fun entry ↦ key < entry.1 && (own entry.2).isSome

/-- The value of the nearest entry that has one. -/
def held (map : SortedMap ℕ α) (own : α → Option β) (key : ℕ) : Option β :=
  ((behind map own key).or (ahead map own key)).bind fun entry ↦ own entry.2

/-- The entries of a map have the values `value`, and leave one out only where the numbers on both sides
have the same. -/
structure Stands (map : SortedMap ℕ α) (own : α → Option β) (value : ℕ → β) : Prop where
  gapless : ∀ low ∈ map.keys, ∀ high ∈ map.keys, ∀ key, low ≤ key → key ≤ high → key ∈ map.keys
  own_eq : ∀ entry ∈ map.entries, ∀ given, own entry.2 = some given → given = value entry.1
  change : ∀ entry ∈ map.entries, ∀ next ∈ map.entries, next.1 = entry.1 + 1 →
    value entry.1 ≠ value next.1 → (own entry.2).isSome ∧ (own next.2).isSome

variable {map : SortedMap ℕ α} {own : α → Option β} {value : ℕ → β} {key : ℕ}

/-- The value does not change over a stretch in which no change is written down. -/
theorem Stands.value_eq_of_le (hheld : Stands map own value) {low high : ℕ} (hlow : low ∈ map.keys)
    (hhigh : high ∈ map.keys) (hle : low ≤ high)
    (hnone : ∀ entry ∈ map.entries, ∀ next ∈ map.entries, low ≤ entry.1 → next.1 ≤ high →
      next.1 = entry.1 + 1 → own entry.2 = none ∨ own next.2 = none) :
    value low = value high := by
  induction high, hle using Nat.le_induction with
  | base => rfl
  | succ middle hmiddle ih =>
    have hkey : middle ∈ map.keys :=
      hheld.gapless low hlow (middle + 1) hhigh middle hmiddle (Nat.le_succ middle)
    have hbelow : value low = value middle := by
      apply ih hkey
      intro entry hentry next hnext hfrom hto
      exact hnone entry hentry next hnext hfrom (hto.trans (Nat.le_succ middle))
    obtain ⟨entry, hentry, rfl⟩ := List.mem_map.mp hkey
    obtain ⟨next, hnext, hnextkey⟩ := List.mem_map.mp hhigh
    rw [hbelow, ← hnextkey]
    by_contra hchange
    have hgiven := hheld.change entry hentry next hnext hnextkey hchange
    rcases hnone entry hentry next hnext hmiddle hnextkey.le hnextkey with hown | hown
    · rw [hown] at hgiven
      exact Bool.noConfusion hgiven.1
    · rw [hown] at hgiven
      exact Bool.noConfusion hgiven.2

theorem behind_eq_none : behind map own key = none ↔
    ∀ entry ∈ map.entries, entry.1 ≤ key → own entry.2 = none := by
  rw [behind, SortedMap.findRev?_eq_none]
  simp only [Bool.and_eq_false_iff, decide_eq_false_iff_not, Option.isSome_eq_false_iff,
    Option.isNone_iff_eq_none, or_iff_not_imp_left, not_not]

theorem ahead_eq_none : ahead map own key = none ↔
    ∀ entry ∈ map.entries, key < entry.1 → own entry.2 = none := by
  rw [ahead, SortedMap.find?_eq_none]
  simp only [Bool.and_eq_false_iff, decide_eq_false_iff_not, Option.isSome_eq_false_iff,
    Option.isNone_iff_eq_none, or_iff_not_imp_left, not_not]

/-- What is found behind has the value of the number it is found from. -/
theorem Stands.behind_value (hheld : Stands map own value) (hkey : key ∈ map.keys) {entry : ℕ × α}
    (hbehind : behind map own key = some entry) : value entry.1 = value key := by
  obtain ⟨hentry, hcond, hlast⟩ := SortedMap.findRev?_eq_some.mp hbehind
  rw [Bool.and_eq_true, decide_eq_true_iff] at hcond
  apply hheld.value_eq_of_le (List.mem_map_of_mem hentry) hkey hcond.1
  intro first _ next hnext hfrom hto hsucc
  right
  by_contra hown
  have hle : next.1 ≤ entry.1 := by
    apply hlast next hnext
    rw [Bool.and_eq_true, decide_eq_true_iff]
    exact ⟨hto, Option.isSome_iff_ne_none.mpr hown⟩
  omega

theorem Stands.ahead_value (hheld : Stands map own value) (hkey : key ∈ map.keys)
    (hbehind : behind map own key = none) {entry : ℕ × α} (hahead : ahead map own key = some entry) :
    value entry.1 = value key := by
  obtain ⟨hentry, hcond, hfirst⟩ := SortedMap.find?_eq_some.mp hahead
  rw [Bool.and_eq_true, decide_eq_true_iff] at hcond
  symm
  apply hheld.value_eq_of_le hkey (List.mem_map_of_mem hentry) hcond.1.le
  intro first hmem next _ hfrom hto hsucc
  left
  rcases Nat.lt_or_ge key first.1 with hlt | hge
  · by_contra hown
    have hle : entry.1 ≤ first.1 := by
      apply hfirst first hmem
      rw [Bool.and_eq_true, decide_eq_true_iff]
      exact ⟨hlt, Option.isSome_iff_ne_none.mpr hown⟩
    omega
  · exact behind_eq_none.mp hbehind first hmem hge

theorem Stands.held_eq (hheld : Stands map own value) (hkey : key ∈ map.keys) {given : β}
    (hgiven : held map own key = some given) : given = value key := by
  rw [held] at hgiven
  cases hbehind : behind map own key with
  | some entry =>
    rw [hbehind, Option.some_or, Option.bind_some] at hgiven
    have hentry := (SortedMap.findRev?_eq_some.mp hbehind).1
    exact (hheld.own_eq entry hentry given hgiven).trans (hheld.behind_value hkey hbehind)
  | none =>
    rw [hbehind, Option.none_or, Option.bind_eq_some_iff] at hgiven
    obtain ⟨entry, hahead, hgiven⟩ := hgiven
    have hentry := (SortedMap.find?_eq_some.mp hahead).1
    exact (hheld.own_eq entry hentry given hgiven).trans (hheld.ahead_value hkey hbehind hahead)

/-- Where nothing is found, no value is written down. -/
theorem own_eq_none_of_held (hnone : held map own key = none) {entry : ℕ × α}
    (hentry : entry ∈ map.entries) : own entry.2 = none := by
  rw [held, Option.bind_eq_none_iff] at hnone
  cases hbehind : behind map own key with
  | some found =>
    rw [hbehind, Option.some_or] at hnone
    have hcond := (SortedMap.findRev?_eq_some.mp hbehind).2.1
    rw [hnone found rfl, Bool.and_eq_true] at hcond
    exact Bool.noConfusion hcond.2
  | none =>
    rw [hbehind, Option.none_or] at hnone
    cases hahead : ahead map own key with
    | some found =>
      rw [hahead] at hnone
      have hcond := (SortedMap.find?_eq_some.mp hahead).2.1
      rw [hnone found rfl, Bool.and_eq_true] at hcond
      exact Bool.noConfusion hcond.2
    | none =>
      rcases Nat.lt_or_ge key entry.1 with hlt | hge
      · exact ahead_eq_none.mp hahead entry hentry hlt
      · exact behind_eq_none.mp hbehind entry hentry hge

/-- Where nothing is found, every number has the same value. -/
theorem Stands.value_eq_of_none (hheld : Stands map own value) (hnone : held map own key = none) {a b : ℕ}
    (ha : a ∈ map.keys) (hb : b ∈ map.keys) : value a = value b := by
  wlog hle : a ≤ b generalizing a b
  · exact (this hb ha (Nat.le_of_not_le hle)).symm
  apply hheld.value_eq_of_le ha hb hle
  intro entry hentry _ _ _ _ _
  exact Or.inl (own_eq_none_of_held hnone hentry)

end Sdrmm.Lib.Held
