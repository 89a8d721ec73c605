import Mathlib.LinearAlgebra.Lagrange
import Mathlib.LinearAlgebra.Vandermonde
import Mathlib.RingTheory.PowerSeries.Inverse
import Sdrmm.Lib.BerlekampMassey

/-!
# Error locators and their values

A sequence of the form `∑ j, values j * points j ^ k` over finitely many distinct nonzero points
is what the syndromes of a corrupted codeword look like.  Three facts about such sequences carry
algebraic decoding over any field:

* few points and as many vanishing terms leave no nonzero value (`values_eq_zero`);
* the shortest recurrence of sufficiently many terms is the product of the factors `1 - p X`
  (`eq_locator_of_minimal`);
* conversely, when a recurrence is such a product, the sequence has this form, with values read
  off the product of recurrence and sequence (`eq_powerSum_of_evaluator`).
-/

namespace Sdrmm.ErrorLocator

open Polynomial

open scoped PowerSeries

open BerlekampMassey (Generates)

variable {ι K : Type*} [Field K] {s : Finset ι} {points values : ι → K} {S : K⟦X⟧}

/-- Points at which a word can be wrong: distinct and nonzero. -/
structure Distinct (s : Finset ι) (points : ι → K) : Prop where
  injOn : Set.InjOn points s
  nonzero : ∀ j ∈ s, points j ≠ 0

theorem Distinct.inv_injOn (hdistinct : Distinct s points) :
    Set.InjOn (fun j ↦ (points j)⁻¹) s := by
  intro i hi j hj hij
  exact hdistinct.injOn hi hj (inv_injective hij)

noncomputable def powerSum (s : Finset ι) (points values : ι → K) : K⟦X⟧ :=
  PowerSeries.mk fun k ↦ ∑ j ∈ s, values j * points j ^ k

theorem coeff_powerSum (k : ℕ) :
    PowerSeries.coeff k (powerSum s points values) = ∑ j ∈ s, values j * points j ^ k :=
  PowerSeries.coeff_mk k _

noncomputable def locator (s : Finset ι) (points : ι → K) : K[X] := ∏ j ∈ s, (1 - C (points j) * X)

/-! ## The product of the factors -/

theorem coeff_zero_locator : (locator s points).coeff 0 = 1 := by
  rw [locator, coeff_zero_prod]
  refine Finset.prod_eq_one ?_
  intro j _
  simp

theorem natDegree_factor_le (a : K) : (1 - C a * X : K[X]).natDegree ≤ 1 := by
  refine (natDegree_sub_le _ _).trans (max_le ?_ ?_)
  · rw [natDegree_one]
    exact Nat.zero_le 1
  · exact (natDegree_C_mul_le _ _).trans natDegree_X_le

theorem natDegree_locator_le : (locator s points).natDegree ≤ s.card := by
  calc (locator s points).natDegree ≤ ∑ j ∈ s, (1 - C (points j) * X : K[X]).natDegree :=
        natDegree_prod_le s fun j ↦ 1 - C (points j) * X
    _ ≤ ∑ _j ∈ s, 1 := Finset.sum_le_sum fun j _ ↦ natDegree_factor_le (points j)
    _ = s.card := by rw [Finset.sum_const, smul_eq_mul, mul_one]

theorem eval_factor {a : K} (ha : a ≠ 0) : (1 - C a * X : K[X]).eval a⁻¹ = 0 := by
  rw [eval_sub, eval_one, eval_C_mul, eval_X, mul_inv_cancel₀ ha, sub_self]

theorem eval_locator (hdistinct : Distinct s points) {j : ι} (hj : j ∈ s) :
    (locator s points).eval (points j)⁻¹ = 0 := by
  rw [locator, eval_prod]
  exact Finset.prod_eq_zero hj (eval_factor (hdistinct.nonzero j hj))

theorem eval_locator_ne_zero {a : K} (ha : ∀ j ∈ s, points j * a ≠ 1) :
    (locator s points).eval a ≠ 0 := by
  rw [locator, eval_prod]
  refine Finset.prod_ne_zero_iff.mpr ?_
  intro j hj
  rw [eval_sub, eval_one, eval_C_mul, eval_X]
  exact sub_ne_zero.mpr (ha j hj).symm

theorem locator_eq_mul_erase [DecidableEq ι] {j : ι} (hj : j ∈ s) :
    locator s points = (1 - C (points j) * X) * locator (s.erase j) points :=
  (Finset.mul_prod_erase s _ hj).symm

theorem eval_erase_ne_zero [DecidableEq ι] (hdistinct : Distinct s points) {j : ι} (hj : j ∈ s) :
    (locator (s.erase j) points).eval (points j)⁻¹ ≠ 0 := by
  apply eval_locator_ne_zero
  intro i hi heq
  have hmem := Finset.mem_erase.mp hi
  have hpoint : points i = points j := by
    rw [← mul_one (points i), ← inv_mul_cancel₀ (hdistinct.nonzero j hj), ← mul_assoc, heq, one_mul]
  exact hmem.1 (hdistinct.injOn hmem.2 hj hpoint)

/-- The derivative at a root, up to sign the denominator of the value formula. -/
theorem eval_derivative_locator [DecidableEq ι] (hdistinct : Distinct s points) {j : ι}
    (hj : j ∈ s) :
    (points j)⁻¹ * (derivative (locator s points)).eval (points j)⁻¹ =
      -(locator (s.erase j) points).eval (points j)⁻¹ := by
  have hne := hdistinct.nonzero j hj
  rw [locator_eq_mul_erase hj, derivative_mul, eval_add, eval_mul, eval_mul, eval_factor hne,
    zero_mul, add_zero]
  have hfactor : (derivative (1 - C (points j) * X : K[X])).eval (points j)⁻¹ = -points j := by
    rw [derivative_sub, derivative_one, derivative_C_mul, derivative_X, mul_one, zero_sub,
      eval_neg, eval_C]
  rw [hfactor, neg_mul, mul_neg, ← mul_assoc, inv_mul_cancel₀ hne, one_mul]

/-- A polynomial with as many roots as its degree bound is determined by its constant
coefficient. -/
theorem eq_locator (hdistinct : Distinct s points) {c : K[X]} (hone : c.coeff 0 = 1)
    (hdegree : c.natDegree ≤ s.card) (hroots : ∀ j ∈ s, c.eval (points j)⁻¹ = 0) :
    c = locator s points := by
  classical
  have hzero : (0 : K) ∉ s.image fun j ↦ (points j)⁻¹ := by
    intro hmem
    obtain ⟨j, hj, hinv⟩ := Finset.mem_image.mp hmem
    exact hdistinct.nonzero j hj (inv_eq_zero.mp hinv)
  have hcard : (insert 0 (s.image fun j ↦ (points j)⁻¹)).card = s.card + 1 := by
    rw [Finset.card_insert_of_notMem hzero, Finset.card_image_of_injOn hdistinct.inv_injOn]
  have hlt (p : K[X]) (hp : p.natDegree ≤ s.card) :
      p.degree < (insert 0 (s.image fun j ↦ (points j)⁻¹)).card := by
    rw [hcard]
    exact degree_le_natDegree.trans_lt (by exact_mod_cast Nat.lt_succ_of_le hp)
  refine eq_of_degrees_lt_of_eval_finset_eq _ (hlt c hdegree) (hlt _ natDegree_locator_le) ?_
  intro x hx
  rcases Finset.mem_insert.mp hx with rfl | hx
  · rw [← coeff_zero_eq_eval_zero, ← coeff_zero_eq_eval_zero, hone, coeff_zero_locator]
  · obtain ⟨j, hj, rfl⟩ := Finset.mem_image.mp hx
    rw [hroots j hj, eval_locator hdistinct hj]

/-- Fewer roots than points is impossible for a polynomial that vanishes at all of them. -/
theorem card_le_of_roots (hdistinct : Distinct s points) {c : K[X]} {length : ℕ}
    (hone : c.coeff 0 = 1) (hdegree : c.natDegree ≤ length)
    (hroots : ∀ j ∈ s, c.eval (points j)⁻¹ = 0) : s.card ≤ length := by
  classical
  have hne : c ≠ 0 := by
    intro hzero
    rw [hzero, coeff_zero] at hone
    exact zero_ne_one hone
  calc s.card = (s.image fun j ↦ (points j)⁻¹).card :=
        (Finset.card_image_of_injOn hdistinct.inv_injOn).symm
    _ ≤ c.roots.toFinset.card := by
        refine Finset.card_le_card ?_
        intro x hx
        obtain ⟨j, hj, rfl⟩ := Finset.mem_image.mp hx
        rw [Multiset.mem_toFinset, mem_roots hne]
        exact hroots j hj
    _ ≤ c.natDegree := (Multiset.toFinset_card_le _).trans (card_roots' c)
    _ ≤ length := hdegree

/-! ## Sequences of power sums -/

/-- As many consecutive vanishing terms as there are points leave no nonzero value. -/
theorem values_eq_zero (hdistinct : Distinct s points) {start : ℕ}
    (hzero : ∀ k, start ≤ k → k < start + s.card → ∑ j ∈ s, values j * points j ^ k = 0) :
    ∀ j ∈ s, values j = 0 := by
  let e := s.equivFin
  have hinj : Function.Injective fun i : Fin s.card ↦ points (e.symm i) := by
    intro i i' h
    have heq := hdistinct.injOn (e.symm i).2 (e.symm i').2 h
    exact e.symm.injective (Subtype.ext heq)
  have hsum (k : Fin s.card) :
      ∑ i : Fin s.card, (values (e.symm i) * points (e.symm i) ^ start) *
        points (e.symm i) ^ (k : ℕ) = 0 := by
    rw [← hzero (start + k) (Nat.le_add_right _ _) (Nat.add_lt_add_left k.isLt _),
      ← Finset.sum_coe_sort s, ← Equiv.sum_comp e.symm]
    refine Finset.sum_congr rfl ?_
    intro i _
    rw [pow_add, mul_assoc]
  have hall := Matrix.eq_zero_of_forall_pow_sum_mul_pow_eq_zero hinj hsum
  intro j hj
  have hvalue := congrFun hall (e ⟨j, hj⟩)
  simp only [Equiv.symm_apply_apply, Pi.zero_apply, mul_eq_zero] at hvalue
  exact hvalue.resolve_right (pow_ne_zero _ (hdistinct.nonzero j hj))

/-- A recurrence acts on a power sum by its values at the inverse points. -/
theorem coeff_mul_powerSum (hdistinct : Distinct s points) {c : K[X]} {k : ℕ}
    (hdegree : c.natDegree ≤ k) :
    PowerSeries.coeff k ((c : K⟦X⟧) * powerSum s points values) =
      ∑ j ∈ s, (values j * c.eval (points j)⁻¹) * points j ^ k := by
  have hterm : ∀ j ∈ s, (values j * c.eval (points j)⁻¹) * points j ^ k =
      ∑ i ∈ Finset.range (k + 1), c.coeff i * (values j * points j ^ (k - i)) := by
    intro j hj
    rw [eval_eq_sum_range' (Nat.lt_succ_of_le hdegree), Finset.mul_sum, Finset.sum_mul]
    refine Finset.sum_congr rfl ?_
    intro i hi
    have hsplit : points j ^ k = points j ^ (k - i) * points j ^ i := by
      rw [← pow_add, Nat.sub_add_cancel (Nat.lt_succ_iff.mp (Finset.mem_range.mp hi))]
    have hcancel : (points j)⁻¹ ^ i * points j ^ i = 1 := by
      rw [← mul_pow, inv_mul_cancel₀ (hdistinct.nonzero j hj), one_pow]
    calc values j * (c.coeff i * (points j)⁻¹ ^ i) * points j ^ k
        = c.coeff i * (values j * points j ^ (k - i)) * ((points j)⁻¹ ^ i * points j ^ i) := by
          rw [hsplit]
          ring
      _ = c.coeff i * (values j * points j ^ (k - i)) := by rw [hcancel, mul_one]
  rw [Finset.sum_congr rfl hterm, Finset.sum_comm, PowerSeries.coeff_mul,
    Finset.Nat.sum_antidiagonal_eq_sum_range_succ_mk]
  refine Finset.sum_congr rfl ?_
  intro i _
  rw [coeff_coe, coeff_powerSum, Finset.mul_sum]

/-- Only the first terms of the sequence enter the first coefficients of a product. -/
theorem coeff_mul_congr {c : K[X]} {T : K⟦X⟧} {count : ℕ}
    (hagree : ∀ k < count, PowerSeries.coeff k S = PowerSeries.coeff k T) :
    ∀ k < count, PowerSeries.coeff k ((c : K⟦X⟧) * S) = PowerSeries.coeff k ((c : K⟦X⟧) * T) := by
  intro k hk
  rw [PowerSeries.coeff_mul, PowerSeries.coeff_mul]
  refine Finset.sum_congr rfl ?_
  rintro ⟨i, j⟩ hmem
  have hsum : i + j = k := Finset.HasAntidiagonal.mem_antidiagonal.mp hmem
  rw [hagree j (by omega)]

theorem generates_locator (hdistinct : Distinct s points) {count : ℕ}
    (hagree : ∀ k < count,
      PowerSeries.coeff k S = PowerSeries.coeff k (powerSum s points values)) :
    Generates S (locator s points) s.card count where
  constant := coeff_zero_locator
  degree := natDegree_locator_le
  vanishes := by
    intro k hlow hhigh
    rw [coeff_mul_congr hagree k hhigh, coeff_mul_powerSum hdistinct (natDegree_locator_le.trans hlow)]
    refine Finset.sum_eq_zero ?_
    intro j hj
    rw [eval_locator hdistinct hj, mul_zero, zero_mul]

/-- With twice as many terms as points, the shortest recurrence locates the points. -/
theorem eq_locator_of_minimal (hdistinct : Distinct s points) {count length : ℕ} {c : K[X]}
    (hagree : ∀ k < count,
      PowerSeries.coeff k S = PowerSeries.coeff k (powerSum s points values))
    (hvalues : ∀ j ∈ s, values j ≠ 0) (hcount : 2 * s.card ≤ count)
    (hgen : Generates S c length count)
    (hminimal : ∀ c' length', Generates S c' length' count → length ≤ length') :
    length = s.card ∧ c = locator s points := by
  have hle : length ≤ s.card := hminimal _ _ (generates_locator hdistinct hagree)
  have hzero : ∀ k, length ≤ k → k < length + s.card →
      ∑ j ∈ s, (values j * c.eval (points j)⁻¹) * points j ^ k = 0 := by
    intro k hlow hhigh
    rw [← coeff_mul_powerSum hdistinct (hgen.degree.trans hlow),
      ← coeff_mul_congr hagree k (by omega)]
    exact hgen.vanishes k hlow (by omega)
  have hroots : ∀ j ∈ s, c.eval (points j)⁻¹ = 0 := by
    intro j hj
    exact (mul_eq_zero.mp (values_eq_zero hdistinct hzero j hj)).resolve_left (hvalues j hj)
  refine ⟨le_antisymm hle (card_le_of_roots hdistinct hgen.constant hgen.degree hroots), ?_⟩
  exact eq_locator hdistinct hgen.constant (hgen.degree.trans hle) hroots

theorem locator_union [DecidableEq ι] {t : Finset ι} (hdisjoint : Disjoint s t) :
    locator (s ∪ t) points = locator s points * locator t points :=
  Finset.prod_union hdisjoint

/-- Multiplying by the locator of known points leaves, past its degree, a power sum over the
others. -/
theorem coeff_locator_mul_powerSum [DecidableEq ι] {t : Finset ι}
    (hdistinct : Distinct (s ∪ t) points) {k : ℕ} :
    PowerSeries.coeff (k + t.card) ((locator t points : K⟦X⟧) * powerSum (s ∪ t) points values) =
      PowerSeries.coeff k (powerSum s points fun j ↦
        values j * (locator t points).eval (points j)⁻¹ * points j ^ t.card) := by
  have hknown : Distinct t points :=
    ⟨hdistinct.injOn.mono (Finset.coe_subset.mpr Finset.subset_union_right),
      fun j hj ↦ hdistinct.nonzero j (Finset.mem_union_right s hj)⟩
  rw [coeff_mul_powerSum hdistinct (natDegree_locator_le.trans (Nat.le_add_left _ _)),
    coeff_powerSum]
  refine (Finset.sum_subset_zero_on_sdiff Finset.subset_union_left ?_ ?_).symm
  · intro j hj
    rw [Finset.mem_sdiff, Finset.mem_union] at hj
    rw [eval_locator hknown (hj.1.resolve_left hj.2), mul_zero, zero_mul]
  · intro j _
    rw [pow_add]
    ring

theorem eval_locator_ne_zero_of_notMem [DecidableEq ι] {t : Finset ι}
    (hdistinct : Distinct (s ∪ t) points) {j : ι} (hj : j ∈ s) (hnotMem : j ∉ t) :
    (locator t points).eval (points j)⁻¹ ≠ 0 := by
  apply eval_locator_ne_zero
  intro i hi heq
  have hpoint : points i = points j := by
    rw [← mul_one (points i),
      ← inv_mul_cancel₀ (hdistinct.nonzero j (Finset.mem_union_left t hj)), ← mul_assoc, heq, one_mul]
  have hij := hdistinct.injOn (Finset.mem_union_right s hi) (Finset.mem_union_left t hj) hpoint
  exact hnotMem (hij ▸ hi)

/-! ## Values from the evaluator -/

theorem factor_mul_geometric (a : K) :
    ((1 - C a * X : K[X]) : K⟦X⟧) * PowerSeries.mk (fun k ↦ a ^ k) = 1 := by
  ext k
  rw [Polynomial.coe_sub, Polynomial.coe_one, Polynomial.coe_mul, Polynomial.coe_C, Polynomial.coe_X,
    sub_mul, one_mul, mul_assoc, map_sub, PowerSeries.coeff_C_mul, PowerSeries.coeff_mk]
  cases k with
  | zero => simp
  | succ k =>
    rw [PowerSeries.coeff_succ_X_mul, PowerSeries.coeff_mk, pow_succ', sub_self,
      PowerSeries.coeff_one, if_neg (Nat.succ_ne_zero k)]

/-- The numerator of a power sum over the denominator `locator`. -/
noncomputable def numerator [DecidableEq ι] (s : Finset ι) (points values : ι → K) : K[X] :=
  ∑ j ∈ s, C (values j) * locator (s.erase j) points

theorem locator_mul_powerSum [DecidableEq ι] :
    (locator s points : K⟦X⟧) * powerSum s points values = (numerator s points values : K⟦X⟧) := by
  have hsplit : powerSum s points values =
      ∑ j ∈ s, PowerSeries.C (values j) * PowerSeries.mk (fun k ↦ points j ^ k) := by
    ext k
    rw [coeff_powerSum, map_sum]
    refine Finset.sum_congr rfl ?_
    intro j _
    rw [PowerSeries.coeff_C_mul, PowerSeries.coeff_mk]
  have hsum : (numerator s points values : K⟦X⟧) =
      ∑ j ∈ s, ((C (values j) * locator (s.erase j) points : K[X]) : K⟦X⟧) :=
    map_sum Polynomial.coeToPowerSeries.ringHom _ _
  rw [hsplit, Finset.mul_sum, hsum]
  refine Finset.sum_congr rfl ?_
  intro j hj
  rw [Polynomial.coe_mul, Polynomial.coe_C, locator_eq_mul_erase hj, Polynomial.coe_mul]
  calc ((1 - C (points j) * X : K[X]) : K⟦X⟧) * (locator (s.erase j) points : K⟦X⟧) *
        (PowerSeries.C (values j) * PowerSeries.mk fun k ↦ points j ^ k)
      = PowerSeries.C (values j) * (locator (s.erase j) points : K⟦X⟧) *
          (((1 - C (points j) * X : K[X]) : K⟦X⟧) * PowerSeries.mk fun k ↦ points j ^ k) := by
        ring
    _ = PowerSeries.C (values j) * (locator (s.erase j) points : K⟦X⟧) := by
        rw [factor_mul_geometric, mul_one]

theorem eval_numerator [DecidableEq ι] (hdistinct : Distinct s points) {j : ι} (hj : j ∈ s) :
    (numerator s points values).eval (points j)⁻¹ =
      values j * (locator (s.erase j) points).eval (points j)⁻¹ := by
  rw [numerator, eval_finsetSum, Finset.sum_eq_single_of_mem j hj]
  · rw [eval_C_mul]
  · intro i hi hij
    have hmem : j ∈ s.erase i := Finset.mem_erase.mpr ⟨hij.symm, hj⟩
    rw [eval_C_mul, locator_eq_mul_erase hmem, eval_mul, eval_factor (hdistinct.nonzero j hj),
      zero_mul, mul_zero]

theorem degree_numerator_lt [DecidableEq ι] : (numerator s points values).degree < s.card := by
  refine (degree_sum_le _ _).trans_lt ?_
  refine (Finset.sup_lt_iff (WithBot.bot_lt_coe s.card)).mpr ?_
  intro j hj
  have hcard : (s.erase j).card < s.card := Finset.card_erase_lt_of_mem hj
  calc (C (values j) * locator (s.erase j) points).degree
      ≤ (C (values j) * locator (s.erase j) points).natDegree := degree_le_natDegree
    _ ≤ ((s.erase j).card : WithBot ℕ) := by
        exact_mod_cast (natDegree_C_mul_le _ _).trans natDegree_locator_le
    _ < s.card := by exact_mod_cast hcard

/-- Multiplication by a polynomial with constant coefficient one loses no leading terms. -/
theorem coeff_eq_of_mul_eq {c : K[X]} {T : K⟦X⟧} {count : ℕ} (hone : c.coeff 0 = 1)
    (hagree : ∀ k < count,
      PowerSeries.coeff k ((c : K⟦X⟧) * S) = PowerSeries.coeff k ((c : K⟦X⟧) * T)) :
    ∀ k < count, PowerSeries.coeff k S = PowerSeries.coeff k T := by
  have hunit : IsUnit (c : K⟦X⟧) := by
    rw [PowerSeries.isUnit_iff_constantCoeff, ← PowerSeries.coeff_zero_eq_constantCoeff_apply,
      coeff_coe, hone]
    exact isUnit_one
  have hdvd : (PowerSeries.X : K⟦X⟧) ^ count ∣ (c : K⟦X⟧) * (S - T) := by
    rw [PowerSeries.X_pow_dvd_iff]
    intro k hk
    rw [mul_sub, map_sub, hagree k hk, sub_self]
  have hdiff := PowerSeries.X_pow_dvd_iff.mp ((hunit.dvd_mul_left).mp hdvd)
  intro k hk
  exact sub_eq_zero.mp ((map_sub _ _ _).symm.trans (hdiff k hk))

/-- The first `count` terms of a sequence with recurrence `locator s points`, in closed form.  The
value at a point is the evaluator over the derivative of the locator, both at the inverse point. -/
theorem eq_powerSum_of_evaluator (hdistinct : Distinct s points) {count : ℕ} {evaluator : K[X]}
    (hgen : Generates S (locator s points) s.card count)
    (hlow : ∀ k < count,
      evaluator.coeff k = PowerSeries.coeff k ((locator s points : K⟦X⟧) * S))
    (hhigh : ∀ k, count ≤ k → evaluator.coeff k = 0)
    (hvalues : ∀ j ∈ s, values j *
      -((points j)⁻¹ * (derivative (locator s points)).eval (points j)⁻¹) =
        evaluator.eval (points j)⁻¹) :
    ∀ k < count, PowerSeries.coeff k S = ∑ j ∈ s, values j * points j ^ k := by
  classical
  have hdegree : evaluator.degree < s.card := by
    rw [degree_lt_iff_coeff_zero]
    intro k hk
    by_cases hcount : k < count
    · rw [hlow k hcount]
      exact hgen.vanishes k (by exact_mod_cast hk) hcount
    · exact hhigh k (not_lt.mp hcount)
  have hnumerator : numerator s points values = evaluator := by
    refine eq_of_degrees_lt_of_eval_index_eq s hdistinct.inv_injOn degree_numerator_lt hdegree ?_
    intro j hj
    rw [eval_numerator hdistinct hj, ← hvalues j hj, eval_derivative_locator hdistinct hj, neg_neg]
  have hproduct : ∀ k < count, PowerSeries.coeff k ((locator s points : K⟦X⟧) * S) =
      PowerSeries.coeff k ((locator s points : K⟦X⟧) * powerSum s points values) := by
    intro k hk
    rw [locator_mul_powerSum, coeff_coe, hnumerator, hlow k hk]
  intro k hk
  rw [coeff_eq_of_mul_eq coeff_zero_locator hproduct k hk, coeff_powerSum]

end Sdrmm.ErrorLocator
