import Mathlib

/-!
# Numbered streams with gaps

The elements of a queue are numbered from `start` on, except where a cut `(position, length)` leaves
numbers out.  A list of cuts fits a queue when every cut stands where the elements before it end.
-/

namespace Sdrmm.Cuts

/-- Each cut stands at or behind the end of the one before, and the elements reach it. -/
def Fits : ℕ → List (ℕ × ℕ) → ℕ → Prop
  | _, [], _ => True
  | start, (position, length) :: rest, count =>
      start ≤ position ∧ position ≤ start + count ∧
        Fits (position + length) rest (start + count - position)

/-- The numbers of the elements. -/
def numbers : ℕ → List (ℕ × ℕ) → ℕ → List ℕ
  | start, [], count => List.range' start count
  | start, (position, length) :: rest, count =>
      List.range' start (position - start) ++
        numbers (position + length) rest (start + count - position)

/-- The number behind the last element and the last cut. -/
def stop (start : ℕ) (cuts : List (ℕ × ℕ)) (count : ℕ) : ℕ := start + count + (cuts.map Prod.snd).sum

variable {start count more : ℕ} {cuts : List (ℕ × ℕ)}

theorem stop_cons {position length : ℕ} (hle : position ≤ start + count) :
    stop (position + length) cuts (start + count - position) =
      stop start ((position, length) :: cuts) count := by
  rw [stop, stop, List.map_cons, List.sum_cons]
  omega

theorem fits_append (hfits : Fits start cuts count) (length : ℕ) :
    Fits start (cuts ++ [(stop start cuts count, length)]) count := by
  induction cuts generalizing start count with
  | nil =>
    refine ⟨?_, ?_, trivial⟩
    · exact Nat.le_trans (Nat.le_add_right start count) (Nat.le_add_right _ _)
    · exact Nat.le_refl _
  | cons cut cuts ih =>
    obtain ⟨hstart, hreach, hrest⟩ := hfits
    have happend := ih hrest
    rw [stop_cons hreach] at happend
    exact ⟨hstart, hreach, happend⟩

theorem numbers_append (hfits : Fits start cuts count) (length : ℕ) :
    numbers start (cuts ++ [(stop start cuts count, length)]) count = numbers start cuts count := by
  induction cuts generalizing start count with
  | nil =>
    show List.range' start (start + count + 0 - start) ++
      List.range' _ (start + count - (start + count + 0)) = _
    rw [Nat.add_zero, Nat.add_sub_cancel_left, Nat.sub_self, List.range'_zero, List.append_nil, numbers]
  | cons cut cuts ih =>
    obtain ⟨-, hreach, hrest⟩ := hfits
    have happend := ih hrest
    rw [stop_cons hreach] at happend
    rw [List.cons_append, numbers, happend, numbers]

theorem fits_grow (hfits : Fits start cuts count) (more : ℕ) : Fits start cuts (count + more) := by
  induction cuts generalizing start count with
  | nil => trivial
  | cons cut cuts ih =>
    obtain ⟨hstart, hreach, hrest⟩ := hfits
    refine ⟨hstart, by omega, ?_⟩
    have hgrown := ih hrest
    rwa [show start + count - cut.1 + more = start + (count + more) - cut.1 by omega] at hgrown

theorem numbers_grow (hfits : Fits start cuts count) (more : ℕ) :
    numbers start cuts (count + more) =
      numbers start cuts count ++ List.range' (stop start cuts count) more := by
  induction cuts generalizing start count with
  | nil =>
    rw [numbers, numbers, stop, List.map_nil, List.sum_nil, Nat.add_zero, ← List.range'_append_1]
  | cons cut cuts ih =>
    obtain ⟨-, hreach, hrest⟩ := hfits
    have hgrown := ih hrest
    rw [stop_cons hreach, show start + count - cut.1 + more = start + (count + more) - cut.1 by omega]
      at hgrown
    rw [numbers, hgrown, numbers, List.append_assoc]

/-- Elements in front of the first cut leave the queue. -/
theorem fits_pass (hfits : Fits start cuts count) (hmore : more ≤ count)
    (hfree : ∀ cut ∈ cuts.head?, start + more ≤ cut.1) : Fits (start + more) cuts (count - more) := by
  cases cuts with
  | nil => trivial
  | cons cut cuts =>
    obtain ⟨-, hreach, hrest⟩ := hfits
    have hcut := hfree cut rfl
    refine ⟨hcut, by omega, ?_⟩
    rwa [show start + more + (count - more) = start + count by omega]

theorem numbers_pass (hmore : more ≤ count) (hfree : ∀ cut ∈ cuts.head?, start + more ≤ cut.1) :
    numbers start cuts count = List.range' start more ++ numbers (start + more) cuts (count - more) := by
  cases cuts with
  | nil => rw [numbers, numbers, List.range'_append_1, Nat.add_sub_cancel' hmore]
  | cons cut cuts =>
    have hcut : start + more ≤ cut.1 := hfree cut rfl
    rw [numbers, numbers, show start + more + (count - more) = start + count by omega,
      show cut.1 - start = more + (cut.1 - (start + more)) by omega, ← List.range'_append_1,
      List.append_assoc]

theorem range'_split {low middle high : ℕ} (hlow : low ≤ middle) (hhigh : middle ≤ high) :
    List.range' low (middle - low) ++ List.range' middle (high - middle) = List.range' low (high - low) := by
  have happend := List.range'_append_1 (s := low) (m := middle - low) (n := high - middle)
  rwa [Nat.add_sub_cancel' hlow, show middle - low + (high - middle) = high - low by omega] at happend

/-- A cut that leaves nothing out. -/
theorem fits_tail {position : ℕ} (hfits : Fits start ((position, 0) :: cuts) count) :
    Fits start cuts count := by
  cases cuts with
  | nil => trivial
  | cons cut cuts =>
    obtain ⟨hstart, hreach, hnext, hrest⟩ := hfits
    refine ⟨by omega, by omega, ?_⟩
    rw [show position + 0 + (start + count - position) = start + count by omega] at hrest
    exact hrest.2

theorem numbers_tail {position : ℕ} (hfits : Fits start ((position, 0) :: cuts) count) :
    numbers start ((position, 0) :: cuts) count = numbers start cuts count := by
  cases cuts with
  | nil =>
    obtain ⟨hstart, hreach, -⟩ := hfits
    rw [numbers, numbers, numbers, Nat.add_zero, range'_split hstart hreach, Nat.add_sub_cancel_left]
  | cons cut cuts =>
    obtain ⟨hstart, hreach, hnext, -⟩ := hfits
    rw [numbers, numbers, numbers, Nat.add_zero, ← List.append_assoc, range'_split hstart hnext,
      Nat.add_sub_cancel' hreach]

end Sdrmm.Cuts
