import Mathlib.Data.List.Rotate
import Mathlib.Data.Finset.Card

/-!
# Delay lines

A delay line kept in a ring of cells gives the oldest value back and writes the new one into its
cell.  `pending` is what such a ring has still to give, in order, and `pending_push` is its step.
`delayed` is a stream after a number of blanks.  `card_le_of_apart` bounds how much of a burst can
reach a set of places that a permutation has moved apart.
-/

namespace Sdrmm.DelayLine

section Ring

variable {α : Type*} {cells : List α} {slot : ℕ}

/-- The values a ring has still to give, the next one first. -/
def pending (cells : List α) (slot : ℕ) : List α := cells.rotate slot

theorem pending_zero (cells : List α) : pending cells 0 = cells := List.rotate_zero cells

theorem pending_eq (hslot : slot < cells.length) :
    pending cells slot = cells[slot] :: (cells.drop (slot + 1) ++ cells.take slot) := by
  unfold pending
  rw [List.rotate_eq_drop_append_take hslot.le, List.drop_eq_getElem_cons hslot]
  rfl

/-- Writing into the next cell gives the first pending value up and puts the new one last. -/
theorem pending_push (hslot : slot < cells.length) (value : α) :
    cells[slot] :: pending (cells.set slot value) ((slot + 1) % cells.length) =
      pending cells slot ++ [value] := by
  have hlength : (cells.set slot value).length = cells.length := List.length_set
  have hrotate : pending (cells.set slot value) ((slot + 1) % cells.length) =
      cells.drop (slot + 1) ++ (cells.take slot ++ [value]) := by
    unfold pending
    rw [← hlength, List.rotate_mod, List.rotate_eq_drop_append_take (by omega),
      List.drop_set_of_lt (by omega), List.take_add_one, List.take_set_of_le le_rfl]
    simp [hslot]
  rw [hrotate, pending_eq hslot]
  simp

end Ring

section Delayed

variable {α : Type*} (blank : α) (stream : List α)

/-- A stream after a number of blanks. -/
def delayed (lag index : ℕ) : α := if index < lag then blank else stream.getD (index - lag) blank

theorem delayed_of_lt {lag index : ℕ} (hindex : index < lag) : delayed blank stream lag index = blank :=
  if_pos hindex

theorem delayed_add (lag index : ℕ) : delayed blank stream lag (index + lag) = stream.getD index blank := by
  unfold delayed
  rw [if_neg (by omega), Nat.add_sub_cancel]

end Delayed

/-- Places that are moved at least `gap` apart share a burst of `count * gap` in at most `count`
of them. -/
theorem card_le_of_apart (places : Finset ℕ) (moved : ℕ → ℕ) {gap start count : ℕ}
    (hinside : ∀ place ∈ places, start ≤ moved place ∧ moved place < start + count * gap)
    (hapart : ∀ first ∈ places, ∀ second ∈ places, first < second →
      moved first + gap ≤ moved second ∨ moved second + gap ≤ moved first) :
    places.card ≤ count := by
  have hmaps : ∀ place ∈ places, (moved place - start) / gap ∈ Finset.range count := by
    intro place hplace
    have hin := hinside place hplace
    rw [Finset.mem_range]
    apply Nat.div_lt_of_lt_mul
    rw [Nat.mul_comm]
    omega
  have hne : ∀ first ∈ places, ∀ second ∈ places, first < second →
      (moved first - start) / gap ≠ (moved second - start) / gap := by
    intro first hfirst second hsecond hlt heq
    have hin := hinside first hfirst
    have hin' := hinside second hsecond
    have hgap : 0 < gap := by
      rcases Nat.eq_zero_or_pos gap with hzero | hpos
      · rw [hzero] at hin
        omega
      · exact hpos
    have hfst := Nat.div_add_mod (moved first - start) gap
    have hsnd := Nat.div_add_mod (moved second - start) gap
    have hmod := Nat.mod_lt (moved first - start) hgap
    have hmod' := Nat.mod_lt (moved second - start) hgap
    rw [heq] at hfst
    have := hapart first hfirst second hsecond hlt
    omega
  have hinj : Set.InjOn (fun place ↦ (moved place - start) / gap) places := by
    intro first hfirst second hsecond heq
    rcases Nat.lt_trichotomy first second with hlt | heq' | hgt
    · exact absurd heq (hne first hfirst second hsecond hlt)
    · exact heq'
    · exact absurd heq.symm (hne second hsecond first hfirst hgt)
  calc
    places.card ≤ (Finset.range count).card := Finset.card_le_card_of_injOn _ hmaps hinj
    _ = count := Finset.card_range count

end Sdrmm.DelayLine
