import Mathlib.RingTheory.PowerSeries.Basic
import Mathlib.Tactic

/-!
# Shortest linear recurrences

A polynomial with constant coefficient one and degree at most `length` is a recurrence of that
length for the first `count` terms of a sequence when its product with the sequence, read as a
power series, vanishes from coefficient `length` to `count - 1`.  The Berlekamp-Massey iteration
keeps such a recurrence while terms are appended.  `run_generates` says that what it holds is a
recurrence and `run_minimal` that no recurrence for the same terms is shorter, over any field.

The invariant treats the iteration before its first length change like any other state: what the
saved recurrence has to satisfy is a statement about coefficients `count + 1 - length` to `count`,
a range that is empty as long as the length is zero.
-/

namespace Sdrmm.BerlekampMassey

open Polynomial

open scoped PowerSeries

variable {K : Type*} [Field K] {S : K⟦X⟧}

/-- `locator` is a recurrence of length `length` for the first `count` terms of `S`. -/
structure Generates (S : K⟦X⟧) (locator : K[X]) (length count : ℕ) : Prop where
  constant : locator.coeff 0 = 1
  degree : locator.natDegree ≤ length
  vanishes : ∀ k, length ≤ k → k < count → PowerSeries.coeff k ((locator : K⟦X⟧) * S) = 0

theorem Generates.of_le {locator : K[X]} {length count count' : ℕ}
    (hgen : Generates S locator length count) (hle : count' ≤ count) :
    Generates S locator length count' where
  constant := hgen.constant
  degree := hgen.degree
  vanishes := fun k hlow hhigh ↦ hgen.vanishes k hlow (hhigh.trans_le hle)

/-- A product with a polynomial of constant coefficient one, at a coefficient where the other
factor vanishes as far back as the polynomial reaches. -/
theorem coeff_mul_of_vanishes {a : K[X]} {T : K⟦X⟧} {length n : ℕ} (hone : a.coeff 0 = 1)
    (hdegree : a.natDegree ≤ length)
    (hzero : ∀ k, n ≤ k + length → k < n → PowerSeries.coeff k T = 0) :
    PowerSeries.coeff n ((a : K⟦X⟧) * T) = PowerSeries.coeff n T := by
  rw [PowerSeries.coeff_mul, Finset.sum_eq_single (0, n)]
  · rw [Polynomial.coeff_coe, hone, one_mul]
  · rintro ⟨i, k⟩ hmem hne
    rw [Finset.HasAntidiagonal.mem_antidiagonal] at hmem
    change i + k = n at hmem
    rw [Polynomial.coeff_coe]
    by_cases hi : i ≤ length
    · have hk : k < n := by
        rcases Nat.eq_zero_or_pos i with rfl | hpos
        · exact absurd (by rw [← hmem, zero_add]) hne
        · omega
      rw [hzero k (by omega) hk, mul_zero]
    · rw [Polynomial.coeff_eq_zero_of_natDegree_lt (by omega), zero_mul]
  · intro hmem
    exact absurd (Finset.HasAntidiagonal.mem_antidiagonal.mpr (zero_add n)) hmem

/-- A recurrence that fails at term `count` forces every recurrence that does not to be long. -/
theorem Generates.length_add_ge {locator other : K[X]} {length length' count : ℕ}
    (hgen : Generates S locator length count)
    (hfails : PowerSeries.coeff count ((locator : K⟦X⟧) * S) ≠ 0)
    (hother : Generates S other length' (count + 1)) : count + 1 ≤ length + length' := by
  by_contra hshort
  apply hfails
  -- Coefficient `count` of `other * locator * S`, computed from either end.
  calc PowerSeries.coeff count ((locator : K⟦X⟧) * S)
      = PowerSeries.coeff count ((other : K⟦X⟧) * ((locator : K⟦X⟧) * S)) := by
        rw [coeff_mul_of_vanishes hother.constant hother.degree]
        intro k hlow hhigh
        exact hgen.vanishes k (by omega) hhigh
    _ = PowerSeries.coeff count ((locator : K⟦X⟧) * ((other : K⟦X⟧) * S)) := by
        rw [mul_left_comm]
    _ = PowerSeries.coeff count ((other : K⟦X⟧) * S) := by
        rw [coeff_mul_of_vanishes hgen.constant hgen.degree]
        intro k hlow hhigh
        exact hother.vanishes k (by omega) (by omega)
    _ = 0 := hother.vanishes count (by omega) (by omega)

/-- A recurrence for the part of `known * S` past the degree of `known` extends it to a recurrence
for `S`. -/
theorem Generates.mul_known {T : K⟦X⟧} {locator known : K[X]} {length degree count : ℕ}
    (hgen : Generates T locator length (count - degree)) (hconstant : known.coeff 0 = 1)
    (hdegree : known.natDegree ≤ degree)
    (htail : ∀ k < count - degree,
      PowerSeries.coeff k T = PowerSeries.coeff (k + degree) ((known : K⟦X⟧) * S)) :
    Generates S (locator * known) (length + degree) count where
  constant := by rw [mul_coeff_zero, hgen.constant, hconstant, one_mul]
  degree := natDegree_mul_le.trans (Nat.add_le_add hgen.degree hdegree)
  vanishes := by
    intro k hlow hhigh
    obtain ⟨j, rfl⟩ : ∃ j, k = j + degree := ⟨k - degree, by omega⟩
    have hzero := hgen.vanishes j (by omega) (by omega)
    rw [Polynomial.coe_mul, mul_assoc, PowerSeries.coeff_mul,
      Finset.Nat.sum_antidiagonal_eq_sum_range_succ_mk, ← hzero, PowerSeries.coeff_mul,
      Finset.Nat.sum_antidiagonal_eq_sum_range_succ_mk]
    symm
    refine Finset.sum_subset_zero_on_sdiff ?_ ?_ ?_
    · exact Finset.range_subset_range.mpr (by omega)
    · intro i hi
      rw [Finset.mem_sdiff, Finset.mem_range, Finset.mem_range] at hi
      have hdeg := hgen.degree
      rw [coeff_coe, coeff_eq_zero_of_natDegree_lt (by omega), zero_mul]
    · intro i hi
      have hle := Finset.mem_range.mp hi
      rw [htail (j - i) (by omega), show j - i + degree = j + degree - i by omega]

/-- The registers of the iteration: the current recurrence and its length, the recurrence saved at
the last length change, how many terms ago that was and the discrepancy it left. -/
structure Register (K : Type*) [Field K] where
  locator : K[X]
  length : ℕ
  previous : K[X]
  shift : ℕ
  discrepancyAtUpdate : K

namespace Register

noncomputable def initial : Register K := ⟨1, 0, 1, 1, 1⟩

noncomputable def discrepancy (S : K⟦X⟧) (n : ℕ) (r : Register K) : K :=
  PowerSeries.coeff n ((r.locator : K⟦X⟧) * S)

/-- The saved recurrence, moved up to the current term. -/
noncomputable def shifted (r : Register K) : K[X] := X ^ r.shift * r.previous

/-- The current recurrence with its discrepancy cancelled. -/
noncomputable def corrected (S : K⟦X⟧) (n : ℕ) (r : Register K) : K[X] :=
  r.locator - C (r.discrepancy S n / r.discrepancyAtUpdate) * r.shifted

open Classical in
noncomputable def step (S : K⟦X⟧) (n : ℕ) (r : Register K) : Register K :=
  if r.discrepancy S n = 0 then { r with shift := r.shift + 1 }
  else if 2 * r.length ≤ n then
    { locator := r.corrected S n
      length := n + 1 - r.length
      previous := r.locator
      shift := 1
      discrepancyAtUpdate := r.discrepancy S n }
  else { r with locator := r.corrected S n, shift := r.shift + 1 }

noncomputable def run (S : K⟦X⟧) : ℕ → Register K
  | 0 => initial
  | n + 1 => step S n (run S n)

structure Invariant (S : K⟦X⟧) (n : ℕ) (r : Register K) : Prop where
  generates : Generates S r.locator r.length n
  minimal : ∀ locator length, Generates S locator length n → r.length ≤ length
  length_le : r.length ≤ n
  shift_pos : 0 < r.shift
  nonzero : r.discrepancyAtUpdate ≠ 0
  degree : r.shifted.natDegree ≤ n + 1 - r.length
  tail : ∀ k, n + 1 - r.length ≤ k → k ≤ n →
    PowerSeries.coeff k ((r.shifted : K⟦X⟧) * S) = if k = n then r.discrepancyAtUpdate else 0

theorem initial_invariant : Invariant S 0 initial where
  generates := ⟨by simp [initial], by simp [initial], fun k _ hk ↦ absurd hk (Nat.not_lt_zero k)⟩
  minimal := fun _ _ _ ↦ Nat.zero_le _
  length_le := le_rfl
  shift_pos := Nat.one_pos
  nonzero := one_ne_zero
  degree := by simp [initial, shifted]
  tail := fun k hlow hhigh ↦ by
    simp only [initial] at hlow
    omega

section Step

variable {n : ℕ} {r : Register K}

theorem coeff_X_mul (p : K[X]) (k : ℕ) :
    PowerSeries.coeff (k + 1) (((X * p : K[X]) : K⟦X⟧) * S) =
      PowerSeries.coeff k ((p : K⟦X⟧) * S) := by
  rw [Polynomial.coe_mul, Polynomial.coe_X, mul_assoc, PowerSeries.coeff_succ_X_mul]

/-- The saved recurrence after one more term without a length change. -/
theorem Invariant.shifted_succ (hinv : Invariant S n r) :
    (X * r.shifted).natDegree ≤ n + 1 + 1 - r.length ∧
      ∀ k, n + 1 + 1 - r.length ≤ k → k ≤ n + 1 →
        PowerSeries.coeff k (((X * r.shifted : K[X]) : K⟦X⟧) * S) =
          if k = n + 1 then r.discrepancyAtUpdate else 0 := by
  have hlength := hinv.length_le
  constructor
  · calc (X * r.shifted).natDegree ≤ (X : K[X]).natDegree + r.shifted.natDegree :=
          natDegree_mul_le
      _ ≤ 1 + (n + 1 - r.length) := Nat.add_le_add natDegree_X_le hinv.degree
      _ ≤ n + 1 + 1 - r.length := by omega
  · intro k hlow hhigh
    obtain ⟨j, rfl⟩ : ∃ j, k = j + 1 := ⟨k - 1, by omega⟩
    rw [coeff_X_mul, hinv.tail j (by omega) (by omega)]
    simp only [Nat.add_right_cancel_iff]

theorem coeff_corrected (k : ℕ) :
    PowerSeries.coeff k ((r.corrected S n : K⟦X⟧) * S) =
      PowerSeries.coeff k ((r.locator : K⟦X⟧) * S) -
        r.discrepancy S n / r.discrepancyAtUpdate *
          PowerSeries.coeff k ((r.shifted : K⟦X⟧) * S) := by
  unfold corrected
  rw [Polynomial.coe_sub, Polynomial.coe_mul, Polynomial.coe_C, sub_mul, map_sub, mul_assoc,
    PowerSeries.coeff_C_mul]

/-- The corrected recurrence covers one more term at any length that covers both parts. -/
theorem Invariant.generates_corrected (hinv : Invariant S n r) {length : ℕ}
    (hlocator : r.length ≤ length) (hshifted : n + 1 - r.length ≤ length) :
    Generates S (r.corrected S n) length (n + 1) where
  constant := by
    have hzero : r.shifted.coeff 0 = 0 := by
      unfold shifted
      rw [Polynomial.mul_coeff_zero, Polynomial.coeff_X_pow, if_neg hinv.shift_pos.ne, zero_mul]
    unfold corrected
    rw [Polynomial.coeff_sub, hinv.generates.constant, Polynomial.coeff_C_mul, hzero, mul_zero,
      sub_zero]
  degree := by
    unfold corrected
    refine (natDegree_sub_le _ _).trans (max_le (hinv.generates.degree.trans hlocator) ?_)
    exact (natDegree_C_mul_le _ _).trans (hinv.degree.trans hshifted)
  vanishes := by
    intro k hlow hhigh
    rw [coeff_corrected, hinv.tail k (by omega) (by omega)]
    by_cases hk : k = n
    · subst hk
      rw [if_pos rfl, div_mul_cancel₀ _ hinv.nonzero]
      exact sub_self _
    · rw [if_neg hk, hinv.generates.vanishes k (by omega) (by omega), mul_zero, sub_zero]

theorem Invariant.step_of_zero (hinv : Invariant S n r) (hzero : r.discrepancy S n = 0) :
    Invariant S (n + 1) { r with shift := r.shift + 1 } where
  generates := by
    refine ⟨hinv.generates.constant, hinv.generates.degree, ?_⟩
    intro k hlow hhigh
    rcases Nat.lt_succ_iff_lt_or_eq.mp hhigh with hlt | rfl
    · exact hinv.generates.vanishes k hlow hlt
    · exact hzero
  minimal := fun locator length hgen ↦ hinv.minimal locator length (hgen.of_le (Nat.le_succ n))
  length_le := hinv.length_le.trans (Nat.le_succ n)
  shift_pos := Nat.succ_pos _
  nonzero := hinv.nonzero
  degree := by
    have hshift : shifted { r with shift := r.shift + 1 } = X * r.shifted := by
      simp only [shifted, pow_succ', mul_assoc]
    rw [hshift]
    exact hinv.shifted_succ.1
  tail := by
    have hshift : shifted { r with shift := r.shift + 1 } = X * r.shifted := by
      simp only [shifted, pow_succ', mul_assoc]
    rw [hshift]
    exact hinv.shifted_succ.2

theorem Invariant.step_of_update (hinv : Invariant S n r) (hne : r.discrepancy S n ≠ 0)
    (hshort : 2 * r.length ≤ n) :
    Invariant S (n + 1)
      { locator := r.corrected S n
        length := n + 1 - r.length
        previous := r.locator
        shift := 1
        discrepancyAtUpdate := r.discrepancy S n } where
  generates := by
    have hle : r.length ≤ n + 1 - r.length := by omega
    exact hinv.generates_corrected hle le_rfl
  minimal := by
    intro locator length hgen
    have := hinv.generates.length_add_ge hne hgen
    change n + 1 - r.length ≤ length
    omega
  length_le := Nat.sub_le _ _
  shift_pos := Nat.one_pos
  nonzero := hne
  degree := by
    change (X ^ 1 * r.locator).natDegree ≤ n + 1 + 1 - (n + 1 - r.length)
    calc (X ^ 1 * r.locator).natDegree ≤ (X ^ 1 : K[X]).natDegree + r.locator.natDegree :=
          natDegree_mul_le
      _ ≤ 1 + r.length := Nat.add_le_add (natDegree_X_pow_le 1) hinv.generates.degree
      _ ≤ n + 1 + 1 - (n + 1 - r.length) := by omega
  tail := by
    intro k hlow hhigh
    change n + 1 + 1 - (n + 1 - r.length) ≤ k at hlow
    obtain ⟨j, rfl⟩ : ∃ j, k = j + 1 := ⟨k - 1, by omega⟩
    change PowerSeries.coeff (j + 1) (((X ^ 1 * r.locator : K[X]) : K⟦X⟧) * S) = _
    rw [pow_one, coeff_X_mul]
    by_cases hj : j = n
    · subst hj
      rw [if_pos rfl]
      rfl
    · rw [if_neg (by omega), hinv.generates.vanishes j (by omega) (by omega)]

theorem Invariant.step_of_keep (hinv : Invariant S n r) (hlong : n < 2 * r.length) :
    Invariant S (n + 1) { r with locator := r.corrected S n, shift := r.shift + 1 } where
  generates := by
    have hle : n + 1 - r.length ≤ r.length := by omega
    exact hinv.generates_corrected le_rfl hle
  minimal := fun locator length hgen ↦ hinv.minimal locator length (hgen.of_le (Nat.le_succ n))
  length_le := hinv.length_le.trans (Nat.le_succ n)
  shift_pos := Nat.succ_pos _
  nonzero := hinv.nonzero
  degree := by
    have hshift : shifted { r with locator := r.corrected S n, shift := r.shift + 1 } =
        X * r.shifted := by
      simp only [shifted, pow_succ', mul_assoc]
    rw [hshift]
    exact hinv.shifted_succ.1
  tail := by
    have hshift : shifted { r with locator := r.corrected S n, shift := r.shift + 1 } =
        X * r.shifted := by
      simp only [shifted, pow_succ', mul_assoc]
    rw [hshift]
    exact hinv.shifted_succ.2

theorem Invariant.step (hinv : Invariant S n r) : Invariant S (n + 1) (r.step S n) := by
  unfold Register.step
  split_ifs with hzero hshort
  · exact hinv.step_of_zero hzero
  · exact hinv.step_of_update hzero hshort
  · exact hinv.step_of_keep (by omega)

end Step

theorem run_invariant (S : K⟦X⟧) (n : ℕ) : Invariant S n (run S n) := by
  induction n with
  | zero => exact initial_invariant
  | succ n ih => exact ih.step

theorem run_generates (S : K⟦X⟧) (n : ℕ) : Generates S (run S n).locator (run S n).length n :=
  (run_invariant S n).generates

theorem run_minimal {locator : K[X]} {length n : ℕ} (hgen : Generates S locator length n) :
    (run S n).length ≤ length :=
  (run_invariant S n).minimal locator length hgen

end Register

end Sdrmm.BerlekampMassey
