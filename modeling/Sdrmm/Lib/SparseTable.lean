import Mathlib.Tactic

/-!
# Sparse tables

The used slots of a table with their values, in ascending order.  A value has a slot and a position
among the used ones, and an index that was meant for one finds the same value as the other only
under the conditions of `InPlace`.
-/

namespace Sdrmm.SparseTable

variable {α : Type*}

/-- The slots of a table are ascending. -/
def Ascending (table : List (ℕ × α)) : Prop := table.Pairwise fun a b ↦ a.1 < b.1

def Used (table : List (ℕ × α)) (slot : ℕ) : Prop := ∃ entry ∈ table, entry.1 = slot

/-- The value in a slot. -/
def valueAt (table : List (ℕ × α)) (slot : ℕ) : Option α :=
  (table.find? fun entry ↦ entry.1 = slot).map Prod.snd

/-- The value at a position among the used slots. -/
def compact (table : List (ℕ × α)) (position : ℕ) : Option α := (table.map Prod.snd)[position]?

/-- An index finds the same value as a slot and as a position: no slot up to it is free, or it is a
free slot and the used ones are too few for it, or the slot and the position happen to hold the same
value. -/
def InPlace (table : List (ℕ × α)) (index : ℕ) : Prop :=
  (∀ slot ≤ index, Used table slot) ∨ (¬Used table index ∧ table.length ≤ index) ∨
    ∃ position value, position ≠ index ∧ table[position]? = some (index, value) ∧
      compact table index = some value

variable {table : List (ℕ × α)}

theorem Ascending.le_of_getElem? (hasc : Ascending table) {base : ℕ}
    (hbase : ∀ entry ∈ table, base ≤ entry.1) {position : ℕ} {entry : ℕ × α}
    (hentry : table[position]? = some entry) : base + position ≤ entry.1 := by
  induction table generalizing base position with
  | nil => cases hentry
  | cons first rest ih =>
    rw [Ascending, List.pairwise_cons] at hasc
    have hfirst := hbase first List.mem_cons_self
    cases position with
    | zero =>
      obtain rfl := Option.some.inj hentry
      exact hfirst
    | succ position =>
      have hnext : ∀ other ∈ rest, first.1 + 1 ≤ other.1 := hasc.1
      have hrest := ih hasc.2 hnext hentry
      omega

/-- The position of a slot below which no slot is free is the slot itself. -/
theorem Ascending.getElem?_of_used (hasc : Ascending table) {base : ℕ}
    (hbase : ∀ entry ∈ table, base ≤ entry.1) {index : ℕ}
    (hused : ∀ slot, base ≤ slot → slot ≤ base + index → Used table slot) :
    ∃ value, table[index]? = some (base + index, value) := by
  induction table generalizing base index with
  | nil =>
    obtain ⟨entry, hentry, _⟩ := hused base le_rfl (Nat.le_add_right _ _)
    cases hentry
  | cons first rest ih =>
    rw [Ascending, List.pairwise_cons] at hasc
    have hfirst : first.1 = base := by
      obtain ⟨entry, hentry, hslot⟩ := hused base le_rfl (Nat.le_add_right _ _)
      rcases List.mem_cons.mp hentry with rfl | hrest
      · exact hslot
      · have := hasc.1 entry hrest
        have := hbase first List.mem_cons_self
        omega
    cases index with
    | zero => exact ⟨first.2, by rw [add_zero, ← hfirst, List.getElem?_cons_zero]⟩
    | succ index =>
      have hnext : ∀ entry ∈ rest, base + 1 ≤ entry.1 := by
        intro entry hentry
        have := hasc.1 entry hentry
        omega
      have hrest : ∀ slot, base + 1 ≤ slot → slot ≤ base + 1 + index → Used rest slot := by
        intro slot hlow hhigh
        obtain ⟨entry, hentry, hslot⟩ := hused slot (by omega) (by omega)
        rcases List.mem_cons.mp hentry with rfl | hmem
        · omega
        · exact ⟨entry, hmem, hslot⟩
      obtain ⟨value, hvalue⟩ := ih hasc.2 hnext hrest
      refine ⟨value, ?_⟩
      rw [List.getElem?_cons_succ, hvalue]
      congr 2
      omega

/-- A slot that is its own position has no free slot below it. -/
theorem Ascending.used_of_getElem? (hasc : Ascending table) {base : ℕ}
    (hbase : ∀ entry ∈ table, base ≤ entry.1) {index : ℕ} {value : α}
    (hindex : table[index]? = some (base + index, value)) {slot : ℕ} (hlow : base ≤ slot)
    (hhigh : slot ≤ base + index) : Used table slot := by
  induction table generalizing base index with
  | nil => cases hindex
  | cons first rest ih =>
    rw [Ascending, List.pairwise_cons] at hasc
    have hfirst := hbase first List.mem_cons_self
    cases index with
    | zero =>
      obtain rfl := Option.some.inj hindex
      exact ⟨_, List.mem_cons_self, by omega⟩
    | succ index =>
      rw [List.getElem?_cons_succ] at hindex
      have hnext : ∀ entry ∈ rest, first.1 + 1 ≤ entry.1 := hasc.1
      have hplace := Ascending.le_of_getElem? hasc.2 hnext hindex
      have hbaseFirst : first.1 = base := by
        simp only at hplace
        omega
      rcases eq_or_lt_of_le hlow with rfl | hlt
      · exact ⟨first, List.mem_cons_self, hbaseFirst⟩
      · rw [hbaseFirst] at hnext
        have hslot := ih hasc.2 hnext (by rw [hindex]; congr 2; omega) hlt (by omega)
        obtain ⟨entry, hentry, hsame⟩ := hslot
        exact ⟨entry, List.mem_cons_of_mem _ hentry, hsame⟩

theorem Ascending.valueAt_of_getElem? (hasc : Ascending table) {position slot : ℕ} {value : α}
    (hentry : table[position]? = some (slot, value)) : valueAt table slot = some value := by
  induction table generalizing position with
  | nil => cases hentry
  | cons first rest ih =>
    rw [Ascending, List.pairwise_cons] at hasc
    cases position with
    | zero =>
      obtain rfl := Option.some.inj hentry
      rw [valueAt, List.find?_cons_of_pos (by simp)]
      rfl
    | succ position =>
      rw [List.getElem?_cons_succ] at hentry
      have hlt := hasc.1 _ (List.mem_of_getElem? hentry)
      rw [valueAt, List.find?_cons_of_neg (by simp only [decide_eq_true_eq]; omega)]
      exact ih hasc.2 hentry

theorem valueAt_eq_none (slot : ℕ) : valueAt table slot = none ↔ ¬Used table slot := by
  rw [valueAt, Option.map_eq_none_iff, List.find?_eq_none, Used]
  push Not
  simp only [decide_eq_true_eq, ne_eq]

theorem compact_eq_none (position : ℕ) : compact table position = none ↔ table.length ≤ position := by
  rw [compact, List.getElem?_eq_none_iff, List.length_map]

/-- Positions can stand for slots exactly where they are in place. -/
theorem Ascending.compact_eq_valueAt (hasc : Ascending table) (index : ℕ) :
    compact table index = valueAt table index ↔ InPlace table index := by
  have hzero : ∀ entry ∈ table, 0 ≤ entry.1 := fun _ _ ↦ Nat.zero_le _
  by_cases hused : Used table index
  · obtain ⟨⟨slot, value⟩, hmem, rfl⟩ := hused
    obtain ⟨position, hposition⟩ := List.mem_iff_getElem?.mp hmem
    rw [hasc.valueAt_of_getElem? hposition]
    constructor
    · intro hsame
      by_cases hplace : position = slot
      · left
        intro other hother
        subst hplace
        exact hasc.used_of_getElem? hzero (by rw [Nat.zero_add]; exact hposition)
          (Nat.zero_le _) (by omega)
      · exact Or.inr (Or.inr ⟨position, value, hplace, hposition, hsame⟩)
    · rintro (hall | ⟨hfree, _⟩ | ⟨other, value', _, hother, hsame⟩)
      · have hbelow : ∀ other, 0 ≤ other → other ≤ 0 + slot → Used table other :=
          fun other _ hother ↦ hall other (by omega)
        obtain ⟨value', hvalue⟩ := hasc.getElem?_of_used hzero hbelow
        rw [Nat.zero_add] at hvalue
        have hfound := hasc.valueAt_of_getElem? hvalue
        rw [hasc.valueAt_of_getElem? hposition] at hfound
        obtain rfl := Option.some.inj hfound
        rw [compact, List.getElem?_map, hvalue]
        rfl
      · exact absurd ⟨_, hmem, rfl⟩ hfree
      · have hfound := hasc.valueAt_of_getElem? hother
        rw [hasc.valueAt_of_getElem? hposition] at hfound
        rw [hsame, hfound]
  · rw [(valueAt_eq_none index).mpr hused, compact_eq_none]
    constructor
    · intro hfew
      exact Or.inr (Or.inl ⟨hused, hfew⟩)
    · rintro (hall | ⟨_, hfew⟩ | ⟨position, value, _, hposition, _⟩)
      · exact absurd (hall index le_rfl) hused
      · exact hfew
      · exact absurd ⟨_, List.mem_of_getElem? hposition, rfl⟩ hused

end Sdrmm.SparseTable
