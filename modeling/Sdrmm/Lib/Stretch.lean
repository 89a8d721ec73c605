import Mathlib.Tactic
import Mathlib.Data.List.Basic

/-!
# Stretches with gaps

The numbers from a start to an end with some gaps left out, each gap given by where it begins and how
long it is.  A stretch grows at its end by numbers or by a gap and shrinks at its start the same way,
which is all that a reader that follows a writer needs.
-/

namespace Sdrmm

/-- Gaps between `start` and `stop`, in order and apart from each other. -/
def GapsWithin (start : ℕ) : List (ℕ × ℕ) → ℕ → Prop
  | [], stop => start ≤ stop
  | gap :: gaps, stop => start ≤ gap.1 ∧ GapsWithin (gap.1 + gap.2) gaps stop

/-- The numbers from `start` to `stop` that are in no gap. -/
def stretch (start : ℕ) : List (ℕ × ℕ) → ℕ → List ℕ
  | [], stop => List.range' start (stop - start)
  | gap :: gaps, stop => List.range' start (gap.1 - start) ++ stretch (gap.1 + gap.2) gaps stop

variable {start stop : ℕ} {gaps : List (ℕ × ℕ)}

theorem GapsWithin.le (hgaps : GapsWithin start gaps stop) : start ≤ stop := by
  induction gaps generalizing start with
  | nil => exact hgaps
  | cons gap gaps ih =>
    have := ih hgaps.2
    have := hgaps.1
    omega

theorem GapsWithin.le_gap (hgaps : GapsWithin start gaps stop) :
    ∀ gap ∈ gaps, start ≤ gap.1 := by
  induction gaps generalizing start with
  | nil =>
    intro gap hgap
    cases hgap
  | cons first gaps ih =>
    intro gap hgap
    rcases List.mem_cons.mp hgap with rfl | hgap
    · exact hgaps.1
    · have := ih hgaps.2 gap hgap
      have := hgaps.1
      omega

theorem GapsWithin.extend (hgaps : GapsWithin start gaps stop) (count : ℕ) :
    GapsWithin start gaps (stop + count) := by
  induction gaps generalizing start with
  | nil => exact Nat.le_add_right_of_le hgaps
  | cons gap gaps ih => exact ⟨hgaps.1, ih hgaps.2⟩

theorem GapsWithin.concat (hgaps : GapsWithin start gaps stop) (missing : ℕ) :
    GapsWithin start (gaps ++ [(stop, missing)]) (stop + missing) := by
  induction gaps generalizing start with
  | nil => exact ⟨hgaps, le_rfl⟩
  | cons gap gaps ih => exact ⟨hgaps.1, ih hgaps.2⟩

/-- Starting later, but not past the first gap. -/
theorem GapsWithin.advance (hgaps : GapsWithin start gaps stop) {count : ℕ}
    (hfirst : ∀ gap ∈ gaps, start + count ≤ gap.1) (hstop : start + count ≤ stop) :
    GapsWithin (start + count) gaps stop := by
  cases gaps with
  | nil => exact hstop
  | cons gap gaps => exact ⟨hfirst gap (List.mem_cons_self ..), hgaps.2⟩

/-- More numbers at the end. -/
theorem stretch_extend (hgaps : GapsWithin start gaps stop) (count : ℕ) :
    stretch start gaps (stop + count) = stretch start gaps stop ++ List.range' stop count := by
  induction gaps generalizing start with
  | nil =>
    have hle : start ≤ stop := hgaps
    rw [stretch, stretch, show stop + count - start = stop - start + count by omega,
      ← List.range'_append_1, show start + (stop - start) = stop by omega]
  | cons gap gaps ih => rw [stretch, stretch, ih hgaps.2, List.append_assoc]

/-- A gap at the end. -/
theorem stretch_concat (hgaps : GapsWithin start gaps stop) (missing : ℕ) :
    stretch start (gaps ++ [(stop, missing)]) (stop + missing) = stretch start gaps stop := by
  induction gaps generalizing start with
  | nil => simp [stretch]
  | cons gap gaps ih => rw [List.cons_append, stretch, ih hgaps.2, stretch]

/-- Numbers at the start. -/
theorem stretch_advance (hgaps : GapsWithin start gaps stop) {count : ℕ}
    (hfirst : ∀ gap ∈ gaps, start + count ≤ gap.1) (hstop : start + count ≤ stop) :
    stretch start gaps stop = List.range' start count ++ stretch (start + count) gaps stop := by
  cases gaps with
  | nil =>
    rw [stretch, stretch, List.range'_append_1]
    congr 1
    omega
  | cons gap gaps =>
    have hgap := hfirst gap (List.mem_cons_self ..)
    rw [stretch, stretch, ← List.append_assoc, List.range'_append_1]
    congr 2
    omega

/-- A gap at the start. -/
theorem stretch_skip (missing : ℕ) :
    stretch start ((start, missing) :: gaps) stop = stretch (start + missing) gaps stop := by
  rw [stretch, Nat.sub_self]
  rfl

theorem le_of_mem_stretch (hgaps : GapsWithin start gaps stop) :
    ∀ x ∈ stretch start gaps stop, start ≤ x := by
  induction gaps generalizing start with
  | nil =>
    intro x hx
    exact (List.mem_range'_1.mp hx).1
  | cons gap gaps ih =>
    intro x hx
    rcases List.mem_append.mp hx with hx | hx
    · exact (List.mem_range'_1.mp hx).1
    · have := ih hgaps.2 x hx
      have := hgaps.1
      omega

/-- What lies before the first gap, or before the end if there is none. -/
theorem GapsWithin.add_le (hgaps : GapsWithin start gaps stop) {count : ℕ}
    (hcount : count ≤ (stretch start gaps stop).length)
    (hfirst : ∀ gap ∈ gaps, start + count ≤ gap.1) : start + count ≤ stop := by
  cases gaps with
  | nil =>
    have hle : start ≤ stop := hgaps
    rw [stretch, List.length_range'] at hcount
    omega
  | cons gap gaps =>
    have hgap := hfirst gap (List.mem_cons_self ..)
    have hrest := hgaps.2.le
    omega

/-- Without a gap before them, the first numbers follow each other. -/
theorem take_stretch (hgaps : GapsWithin start gaps stop) {count : ℕ}
    (hcount : count ≤ (stretch start gaps stop).length)
    (hfirst : ∀ gap ∈ gaps, start + count ≤ gap.1) :
    (stretch start gaps stop).take count = List.range' start count := by
  rw [stretch_advance hgaps hfirst (hgaps.add_le hcount hfirst),
    List.take_left' (List.length_range' ..)]

/-- Where the first numbers follow each other, there is no gap before them. -/
theorem le_gap_of_take (hgaps : GapsWithin start gaps stop) (hpos : ∀ gap ∈ gaps, 0 < gap.2)
    {count : ℕ} (hcount : count ≤ (stretch start gaps stop).length)
    (htake : (stretch start gaps stop).take count = List.range' start count) :
    ∀ gap ∈ gaps, start + count ≤ gap.1 := by
  cases gaps with
  | nil =>
    intro gap hgap
    cases hgap
  | cons first gaps =>
    have hfirst : start + count ≤ first.1 := by
      by_contra! hlt
      have hstart := hgaps.1
      -- The number at the place of the gap would be the one that the gap starts with.
      have hplace : first.1 - start < count := by omega
      have hnumber : (stretch start (first :: gaps) stop)[first.1 - start]? = some first.1 := by
        rw [← List.getElem?_take_of_lt hplace, htake, List.getElem?_range' hplace]
        congr 1
        omega
      rw [stretch, List.getElem?_append_right (List.length_range' ..).le] at hnumber
      have hmem := le_of_mem_stretch hgaps.2 _ (List.mem_of_getElem? hnumber)
      have := hpos first (List.mem_cons_self ..)
      omega
    intro gap hgap
    rcases List.mem_cons.mp hgap with rfl | hgap
    · exact hfirst
    · have := hgaps.2.le_gap gap hgap
      omega

end Sdrmm
