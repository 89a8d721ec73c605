import Sdrmm.Dsp.Rs256Field

/-!
# The stages of the Reed-Solomon decoder

The Berlekamp-Massey loop on arrays tracks the abstract iteration, so it computes a shortest
recurrence of its syndromes (`berlekampMassey_spec`).  A locator that generates the syndromes and
has all its roots among the positions of the word determines a codeword, and Forney's formula finds
it: no denominator vanishes and the corrected word has zero syndromes (`correct_repairs`).  Neither
statement assumes anything about the received word.
-/

namespace Sdrmm.Rs256

open SymbolArray Polynomial

open scoped PowerSeries

open BerlekampMassey (Generates Register)

variable {code : ReedSolomon} {K : Type*} [Field K] {embed : UInt8 → K} {α : K}
  (hrep : Represents code embed α)

/-! ## Berlekamp-Massey -/

open ReedSolomon (Massey)

/-- The arrays and counters of the loop hold the registers of the abstract iteration. -/
structure Tracks (embed : UInt8 → K) (n : ℕ) (m : Massey) (r : Register K) : Prop where
  locatorLength : m.locator.length = 256
  previousLength : m.previous.length = 256
  locator : poly embed m.locator = r.locator
  previous : poly embed m.previous = r.previous
  locatorLen : ∀ k, m.locatorLen ≤ k → m.locator.getD k 0 = 0
  previousLen : ∀ k, m.previousLen ≤ k → m.previous.getD k 0 = 0
  discrepancy : embed m.discrepancyAtUpdate = r.discrepancyAtUpdate
  shift : m.shift = r.shift
  shift_le : m.shift ≤ n + 1
  errors : m.errors = r.length

section Massey

include hrep

theorem Represents.poly_one : poly embed ((List.replicate 256 0).set 0 1) = 1 := by
  have hlist : (List.replicate 256 (0 : UInt8)).set 0 1 = 1 :: List.replicate 255 0 := by
    rw [List.replicate_succ, List.set_cons_zero]
  rw [hlist, poly_cons hrep.toEmbeds, poly_replicate_zero hrep.toEmbeds, hrep.one, mul_zero,
    add_zero, C_1]

theorem Represents.tracks_initial : Tracks embed 0 Massey.initial Register.initial := by
  have hsupport : ∀ k, 1 ≤ k → ((List.replicate 256 (0 : UInt8)).set 0 1).getD k 0 = 0 := by
    intro k hk
    rw [getD_set _ _ _ _ (by rw [List.length_replicate]; omega), if_neg (by omega), getD_replicate]
  exact
    { locatorLength := List.length_set.trans List.length_replicate
      previousLength := List.length_set.trans List.length_replicate
      locator := hrep.poly_one
      previous := hrep.poly_one
      locatorLen := hsupport
      previousLen := hsupport
      discrepancy := hrep.one
      shift := rfl
      shift_le := le_rfl
      errors := rfl }

variable {syndromes : List UInt8} {n : ℕ} {m : Massey} {r : Register K}

theorem Represents.embed_discrepancyLoop (syndromes : List UInt8) (m : Massey) (step count : ℕ) :
    embed ((List.range' 1 count).foldl (fun discrepancy index ↦
      if index < m.locatorLen then
        discrepancy ^^^ code.mul (m.locator.getD index 0) (syndromes.getD (step - index) 0)
      else discrepancy) (syndromes.getD step 0)) =
      embed (syndromes.getD step 0) + ∑ i ∈ Finset.range count, if i + 1 < m.locatorLen then
        embed (m.locator.getD (i + 1) 0) * embed (syndromes.getD (step - (i + 1)) 0) else 0 := by
  induction count with
  | zero => rw [List.range'_zero, List.foldl_nil, Finset.sum_range_zero, add_zero]
  | succ count ih =>
    rw [List.range'_1_concat, List.foldl_append, List.foldl_cons, List.foldl_nil,
      Finset.sum_range_succ, ← add_assoc, ← ih, Nat.add_comm 1 count]
    split_ifs
    · rw [hrep.xor, hrep.mul]
    · rw [add_zero]

theorem Represents.embed_discrepancy (htracks : Tracks embed n m r)
    (hinv : r.Invariant (poly embed syndromes : K⟦X⟧) n) :
    embed (code.discrepancy syndromes m n) = r.discrepancy (poly embed syndromes : K⟦X⟧) n := by
  have hcoeff (i : ℕ) : r.locator.coeff i = embed (m.locator.getD i 0) := by
    rw [← htracks.locator, coeff_poly hrep.toEmbeds]
  have hterm (i : ℕ) : (if i < m.locatorLen then
      embed (m.locator.getD i 0) * embed (syndromes.getD (n - i) 0) else 0) =
      r.locator.coeff i * embed (syndromes.getD (n - i) 0) := by
    rw [hcoeff]
    split_ifs with hlt
    · rfl
    · rw [htracks.locatorLen i (not_lt.mp hlt), hrep.zero, zero_mul]
  unfold ReedSolomon.discrepancy Register.discrepancy
  rw [hrep.embed_discrepancyLoop, PowerSeries.coeff_mul,
    Finset.Nat.sum_antidiagonal_eq_sum_range_succ_mk, Finset.sum_range_succ', add_comm]
  simp only [coeff_coe, coeff_poly hrep.toEmbeds, hterm, hinv.generates.constant, one_mul,
    Nat.sub_zero]
  congr 1
  refine Finset.sum_subset_zero_on_sdiff ?_ ?_ ?_
  · exact Finset.range_subset_range.mpr (Nat.min_le_right _ _)
  · intro i hi
    rw [Finset.mem_sdiff, Finset.mem_range, Finset.mem_range, htracks.errors] at hi
    have hdegree := hinv.generates.degree
    rw [coeff_eq_zero_of_natDegree_lt (by omega), zero_mul]
  · intro i _
    rfl

theorem Represents.poly_cancel (htracks : Tracks embed n m r)
    (hinv : r.Invariant (poly embed syndromes : K⟦X⟧) n) (hn : n < 255) {discrepancy : UInt8}
    (hdiscrepancy : embed discrepancy = r.discrepancy (poly embed syndromes : K⟦X⟧) n) :
    (code.cancel m discrepancy).length = 256 ∧
      poly embed (code.cancel m discrepancy) = r.corrected (poly embed syndromes : K⟦X⟧) n := by
  have := hrep.charTwo
  have hshift_le := htracks.shift_le
  have hnonzero : m.discrepancyAtUpdate ≠ 0 := by
    intro hzero
    exact hinv.nonzero (by rw [← htracks.discrepancy, hzero, hrep.zero])
  have hscale (x : UInt8) : embed (code.mul
      (code.mul discrepancy (code.inv m.discrepancyAtUpdate)) x) =
      r.discrepancy (poly embed syndromes : K⟦X⟧) n / r.discrepancyAtUpdate * embed x := by
    rw [hrep.mul, hrep.mul, hrep.inv _ hnonzero, hdiscrepancy, htracks.discrepancy, div_eq_mul_inv]
  have hfits : (m.previous.take (min m.previousLen (256 - m.shift))).length + m.shift ≤ 256 := by
    rw [List.length_take]
    omega
  -- Neither bound of the prefix cuts off a coefficient.
  have hfront : poly embed (m.previous.take (min m.previousLen (256 - m.shift))) = r.previous := by
    rw [← htracks.previous]
    ext k
    rw [coeff_poly_take hrep.toEmbeds]
    split_ifs with hk
    · rfl
    · rcases Nat.lt_or_ge k m.previousLen with hlow | hhigh
      · have hdegree : r.shifted.natDegree < k + m.shift := by
          have := hinv.degree
          omega
        have hcoeff := coeff_eq_zero_of_natDegree_lt hdegree
        rw [Register.shifted, htracks.shift, coeff_X_pow_mul] at hcoeff
        rw [htracks.previous, hcoeff]
      · rw [coeff_poly hrep.toEmbeds, htracks.previousLen k hhigh, hrep.zero]
  obtain ⟨hlength, hpoly⟩ := poly_foldl_scaled hrep.toEmbeds
    (m.previous.take (min m.previousLen (256 - m.shift))) m.shift
    (fun x ↦ code.mul (code.mul discrepancy (code.inv m.discrepancyAtUpdate)) x) _ hscale
    htracks.locatorLength hfits
  refine ⟨hlength, hpoly.trans ?_⟩
  rw [Register.corrected, Register.shifted, hfront, htracks.locator, htracks.shift,
    CharTwo.sub_eq_add, mul_assoc]

theorem Represents.cancel_support (htracks : Tracks embed n m r) {discrepancy : UInt8}
    (hinv : r.Invariant (poly embed syndromes : K⟦X⟧) n) (hn : n < 255)
    (hdiscrepancy : embed discrepancy = r.discrepancy (poly embed syndromes : K⟦X⟧) n) :
    ∀ k, min (max m.locatorLen (m.previousLen + m.shift)) 256 ≤ k →
      (code.cancel m discrepancy).getD k 0 = 0 := by
  obtain ⟨hlength, hpoly⟩ := hrep.poly_cancel htracks hinv hn hdiscrepancy
  intro k hk
  rcases Nat.lt_or_ge k 256 with hlt | hge
  · have hlocator : m.locatorLen ≤ k := by omega
    obtain ⟨j, rfl⟩ : ∃ j, k = j + m.shift := ⟨k - m.shift, by omega⟩
    rw [← hrep.embed_eq_zero, ← coeff_poly hrep.toEmbeds, hpoly, Register.corrected,
      Register.shifted, coeff_sub, coeff_C_mul, ← htracks.shift, coeff_X_pow_mul, ← htracks.locator,
      ← htracks.previous, coeff_poly hrep.toEmbeds, coeff_poly hrep.toEmbeds,
      htracks.locatorLen _ hlocator, htracks.previousLen j (by omega), hrep.zero, mul_zero, sub_zero]
  · rw [List.getD_eq_getElem?_getD, List.getElem?_eq_none (by omega), Option.getD_none]

theorem Represents.tracks_step (htracks : Tracks embed n m r)
    (hinv : r.Invariant (poly embed syndromes : K⟦X⟧) n) (hn : n < 255) :
    Tracks embed (n + 1) (code.masseyStep syndromes m n)
      (r.step (poly embed syndromes : K⟦X⟧) n) := by
  have hdiscrepancy := hrep.embed_discrepancy htracks hinv
  have hzero : code.discrepancy syndromes m n = 0 ↔
      r.discrepancy (poly embed syndromes : K⟦X⟧) n = 0 := by
    rw [← hdiscrepancy, hrep.embed_eq_zero]
  obtain ⟨hlength, hpoly⟩ := hrep.poly_cancel htracks hinv hn hdiscrepancy
  have hsupport := hrep.cancel_support htracks hinv hn hdiscrepancy
  have hshift_le := htracks.shift_le
  unfold ReedSolomon.masseyStep Register.step
  by_cases hstays : r.discrepancy (poly embed syndromes : K⟦X⟧) n = 0
  · rw [if_pos (hzero.mpr hstays), if_pos hstays]
    exact
      { htracks with
        shift := by rw [htracks.shift]
        shift_le := Nat.succ_le_succ hshift_le }
  rw [if_neg (hzero.not.mpr hstays), if_neg hstays, htracks.errors]
  by_cases hshort : 2 * r.length ≤ n
  · rw [if_pos hshort, if_pos hshort]
    exact
      { locatorLength := hlength
        previousLength := htracks.locatorLength
        locator := hpoly
        previous := htracks.locator
        locatorLen := hsupport
        previousLen := htracks.locatorLen
        discrepancy := hdiscrepancy
        shift := rfl
        shift_le := Nat.le_add_left 1 (n + 1)
        errors := rfl }
  · rw [if_neg hshort, if_neg hshort]
    exact
      { htracks with
        locatorLength := hlength
        locator := hpoly
        locatorLen := hsupport
        shift := by rw [htracks.shift]
        shift_le := Nat.succ_le_succ hshift_le
        errors := rfl }

/-- The loop computes a shortest recurrence for the syndromes it is given. -/
theorem Represents.berlekampMassey_spec (hlength : syndromes.length ≤ 255) :
    ((code.berlekampMassey syndromes).1).length = 256 ∧
      Generates (poly embed syndromes : K⟦X⟧) (poly embed (code.berlekampMassey syndromes).1)
        (code.berlekampMassey syndromes).2 syndromes.length ∧
      ∀ locator length, Generates (poly embed syndromes : K⟦X⟧) locator length syndromes.length →
        (code.berlekampMassey syndromes).2 ≤ length := by
  have hloop (n : ℕ) (hn : n ≤ syndromes.length) :
      Tracks embed n ((List.range n).foldl (code.masseyStep syndromes) Massey.initial)
        (Register.run (poly embed syndromes : K⟦X⟧) n) := by
    induction n with
    | zero => exact hrep.tracks_initial
    | succ n ih =>
      rw [List.range_succ, List.foldl_append]
      exact hrep.tracks_step (ih (by omega)) (Register.run_invariant _ n) (by omega)
  have htracks := hloop syndromes.length le_rfl
  have hgen := Register.run_generates (poly embed syndromes : K⟦X⟧) syndromes.length
  rw [← htracks.locator, ← htracks.errors] at hgen
  refine ⟨htracks.locatorLength, hgen, ?_⟩
  intro locator length hother
  have hle := Register.run_minimal hother
  rw [← htracks.errors] at hle
  exact hle

end Massey

/-! ## Positions and magnitudes -/

section Correction

include hrep

/-- The positions of a word of `length` symbols at which a locator array vanishes. -/
def rootPositions (code : ReedSolomon) (locator : List UInt8) (length : ℕ) : List ℕ :=
  (List.range length).filter fun position ↦
    code.evaluate locator (code.inversePoint position) = 0

omit hrep in
theorem chien_eq_some {locator : List UInt8} {length errors : ℕ} {positions : List ℕ} :
    code.chien locator length errors = some positions ↔
      positions = rootPositions code locator length ∧ positions.length = errors := by
  unfold ReedSolomon.chien rootPositions
  simp only
  split_ifs with hcount
  · constructor
    · intro hsome
      rw [Option.some.injEq] at hsome
      exact ⟨hsome.symm, hsome ▸ hcount⟩
    · rintro ⟨rfl, -⟩
      rfl
  · constructor
    · intro hnone
      exact absurd hnone (by simp)
    · rintro ⟨rfl, hlength⟩
      exact absurd hlength hcount

theorem Represents.mem_rootPositions {locator : List UInt8} {length position : ℕ} :
    position ∈ rootPositions code locator length ↔
      position < length ∧ (poly embed locator).eval (α ^ position)⁻¹ = 0 := by
  rw [rootPositions, List.mem_filter, List.mem_range, decide_eq_true_iff, ← hrep.embed_eq_zero,
    hrep.embed_evaluate, hrep.embed_inversePoint]

omit hrep in
theorem nodup_rootPositions (locator : List UInt8) (length : ℕ) :
    (rootPositions code locator length).Nodup :=
  List.nodup_range.filter _

/-- A locator with as many roots among the positions as its degree is their product. -/
theorem Represents.poly_eq_locator {locator : List UInt8} {length errors : ℕ}
    (hlength : length ≤ 255) (hone : (poly embed locator).coeff 0 = 1)
    (hdegree : (poly embed locator).natDegree ≤ errors)
    (hcount : (rootPositions code locator length).length = errors) :
    poly embed locator = ErrorLocator.locator (rootPositions code locator length).toFinset
      fun position ↦ α ^ position := by
  have hcard : (rootPositions code locator length).toFinset.card = errors := by
    rw [List.toFinset_card_of_nodup (nodup_rootPositions locator length), hcount]
  refine ErrorLocator.eq_locator (hrep.distinct ?_) hone (by rw [hcard]; exact hdegree) ?_
  · intro position hmem
    have := (hrep.mem_rootPositions.mp (List.mem_toFinset.mp hmem)).1
    omega
  · intro position hmem
    exact (hrep.mem_rootPositions.mp (List.mem_toFinset.mp hmem)).2

omit hrep in
theorem getD_derivativeLoop (items : List UInt8) (start k : ℕ) {out : List UInt8}
    (hfits : start + items.length ≤ out.length) :
    ((items.zipIdx start).foldl (fun derivative (item : UInt8 × ℕ) ↦
      if item.2 % 2 = 1 then derivative.set item.2 item.1 else derivative) out).getD k 0 =
      if start ≤ k ∧ k < start + items.length ∧ k % 2 = 1 then items.getD (k - start) 0
      else out.getD k 0 := by
  induction items generalizing start out with
  | nil =>
    rw [List.zipIdx_nil, List.foldl_nil, if_neg]
    rw [List.length_nil]
    omega
  | cons a items ih =>
    rw [List.length_cons] at hfits
    have hentry : (if start % 2 = 1 then out.set start a else out).getD k 0 =
        if start = k ∧ start % 2 = 1 then a else out.getD k 0 := by
      by_cases hodd : start % 2 = 1
      · rw [if_pos hodd, getD_set _ _ _ _ (by omega)]
        simp only [hodd, and_true]
      · rw [if_neg hodd, if_neg (by simp [hodd])]
    have hlength : (if start % 2 = 1 then out.set start a else out).length = out.length := by
      split_ifs
      · exact List.length_set
      · rfl
    have hfits' : start + 1 + items.length ≤
        (if start % 2 = 1 then out.set start a else out).length := by omega
    rw [List.zipIdx_cons, List.foldl_cons, List.length_cons, ih (start + 1) hfits', hentry]
    by_cases hk : start = k
    · subst hk
      rw [if_neg (by omega), Nat.sub_self, List.getD_cons_zero]
      simp only [true_and, le_refl]
      congr 1
      rw [eq_iff_iff]
      omega
    · have hne : ¬(start = k ∧ start % 2 = 1) := fun h ↦ hk h.1
      rw [if_neg hne]
      by_cases hrange : start + 1 ≤ k ∧ k < start + 1 + items.length ∧ k % 2 = 1
      · rw [if_pos hrange, if_pos (by omega), show k - start = k - (start + 1) + 1 by omega,
          List.getD_cons_succ]
      · rw [if_neg hrange, if_neg (by omega)]

/-- The odd coefficients are the formal derivative, moved up by one place. -/
theorem Represents.poly_derivative {locator : List UInt8} (hlength : locator.length ≤ 256) :
    poly embed ((ReedSolomon.derivative locator).take locator.length) =
      X * derivative (poly embed locator) := by
  have := hrep.charTwo
  have hget (k : ℕ) : (ReedSolomon.derivative locator).getD k 0 =
      if k < locator.length ∧ k % 2 = 1 then locator.getD k 0 else 0 := by
    have hfits : 0 + locator.length ≤ (List.replicate 256 (0 : UInt8)).length := by
      rw [List.length_replicate]
      omega
    have hloop := getD_derivativeLoop locator 0 k hfits
    rw [getD_replicate] at hloop
    simp only [Nat.zero_le, true_and, Nat.zero_add, Nat.sub_zero] at hloop
    exact hloop
  ext k
  rw [coeff_poly_take hrep.toEmbeds, coeff_poly hrep.toEmbeds, hget]
  cases k with
  | zero =>
    have heven : ¬(0 < locator.length ∧ 0 % 2 = 1) := by omega
    rw [coeff_X_mul_zero, if_neg heven, hrep.zero, ite_self]
  | succ k =>
    rw [coeff_X_mul, coeff_derivative, coeff_poly hrep.toEmbeds]
    have hbeyond (hk : ¬k + 1 < locator.length) : locator.getD (k + 1) 0 = 0 := by
      rw [List.getD_eq_getElem?_getD, List.getElem?_eq_none (not_lt.mp hk), Option.getD_none]
    have htwo : (2 : K) = 0 := CharTwo.two_eq_zero
    by_cases hk : k + 1 < locator.length
    · rw [if_pos hk]
      rcases Nat.even_or_odd' k with ⟨q, rfl | rfl⟩
      · rw [if_pos (by omega)]
        push_cast
        rw [htwo, zero_mul, zero_add, mul_one]
      · rw [if_neg (by omega), hrep.zero]
        push_cast
        rw [htwo, zero_mul, zero_add, one_add_one_eq_two, htwo, mul_zero]
    · rw [if_neg hk, hbeyond hk, hrep.zero, zero_mul]

theorem Represents.embed_power_exponent (position : ℕ) :
    embed (code.power ((Rs256.order * size - code.firstRoot.toNat * position % Rs256.order) %
      Rs256.order)) * (α ^ position) ^ code.firstRoot.toNat = 1 := by
  have horder : Rs256.order = 255 := rfl
  have hlt : code.firstRoot.toNat * position % 255 < 255 := Nat.mod_lt _ (by decide)
  have hreduce (e : ℕ) : α ^ (e % 255) = α ^ e := by
    rw [← hrep.order, pow_mod_orderOf]
  rw [hrep.power, horder, hreduce, ← pow_mul, Nat.mul_comm position,
    ← hreduce (code.firstRoot.toNat * position), ← pow_add, Nat.sub_add_cancel, pow_mul,
    hrep.pow_order, one_pow]
  change code.firstRoot.toNat * position % 255 ≤ 255 * 256
  omega

/-- Forney's formula at a root of the locator: the denominator is nonzero and the magnitude solves
the equation of its position. -/
theorem Represents.magnitude_spec (evaluator : List UInt8) {derivative₀ : List UInt8} {s : Finset ℕ}
    (hs : ∀ position ∈ s, position < 255)
    (hderivative : poly embed derivative₀ =
      X * derivative (ErrorLocator.locator s fun position ↦ α ^ position))
    {position : ℕ} (hmem : position ∈ s) :
    ∃ magnitude, code.magnitude evaluator derivative₀ position = some magnitude ∧
      embed magnitude * (α ^ position) ^ code.firstRoot.toNat *
        -((α ^ position)⁻¹ * (derivative (ErrorLocator.locator s fun position ↦
          α ^ position)).eval (α ^ position)⁻¹) = (poly embed evaluator).eval (α ^ position)⁻¹ := by
  have := hrep.charTwo
  have hdistinct := hrep.distinct hs
  have hdenominator : embed (code.evaluate derivative₀ (code.inversePoint position)) =
      (α ^ position)⁻¹ * (derivative (ErrorLocator.locator s fun position ↦
        α ^ position)).eval (α ^ position)⁻¹ := by
    rw [hrep.embed_evaluate, hrep.embed_inversePoint, hderivative, eval_mul, eval_X]
  have hnonzero : code.evaluate derivative₀ (code.inversePoint position) ≠ 0 := by
    rw [ne_eq, ← hrep.embed_eq_zero, hdenominator,
      ErrorLocator.eval_derivative_locator hdistinct hmem, neg_eq_zero]
    exact ErrorLocator.eval_erase_ne_zero hdistinct hmem
  refine ⟨_, if_neg hnonzero, ?_⟩
  have hne : embed (code.evaluate derivative₀ (code.inversePoint position)) ≠ 0 :=
    hrep.embed_eq_zero.not.mpr hnonzero
  rw [hrep.mul, mul_assoc (embed _), hrep.embed_power_exponent, mul_one, hrep.mul,
    hrep.inv _ hnonzero, ← hdenominator, CharTwo.neg_eq, mul_assoc, inv_mul_cancel₀ hne, mul_one,
    hrep.embed_evaluate, hrep.embed_inversePoint]

/-- The correction loop when every position has a magnitude and an index. -/
theorem Represents.correct_loop {evaluator derivative₀ : List UInt8} {indexOf : ℕ → Option ℕ}
    {magnitudeOf : ℕ → UInt8} (positions : List ℕ) {word : List UInt8}
    (hmagnitude : ∀ position ∈ positions,
      code.magnitude evaluator derivative₀ position = some (magnitudeOf position))
    (hindex : ∀ position ∈ positions,
      position < word.length ∧ indexOf position = some (word.length - 1 - position)) :
    ∃ word', code.correct evaluator derivative₀ indexOf positions word = (true, word') ∧
      word'.length = word.length ∧
      (∀ r, wordValue embed r word' = wordValue embed r word +
        (positions.map fun position ↦ embed (magnitudeOf position) * r ^ position).sum) ∧
      ∀ i, (∀ position ∈ positions, i ≠ word.length - 1 - position) →
        word'.getD i 0 = word.getD i 0 := by
  induction positions generalizing word with
  | nil =>
    refine ⟨word, rfl, rfl, ?_, fun _ _ ↦ rfl⟩
    intro r
    rw [List.map_nil, List.sum_nil, add_zero]
  | cons position positions ih =>
    obtain ⟨hlt, hsome⟩ := hindex position List.mem_cons_self
    have hlength := length_xorAt word (word.length - 1 - position) (magnitudeOf position)
    obtain ⟨word', hcorrect, hlength', hvalue, hframe⟩ := ih
      (fun p hp ↦ hmagnitude p (List.mem_cons_of_mem position hp))
      (fun p hp ↦ by rw [hlength]; exact hindex p (List.mem_cons_of_mem position hp))
    refine ⟨word', ?_, hlength'.trans hlength, ?_, ?_⟩
    · simp only [ReedSolomon.correct, hmagnitude position List.mem_cons_self, hsome]
      exact hcorrect
    · intro r
      rw [hvalue, wordValue_xorAt hrep.toEmbeds r _ (by omega), List.map_cons, List.sum_cons,
        show word.length - 1 - (word.length - 1 - position) = position by omega, add_assoc]
    · intro i hi
      have hrest := hframe i (fun p hp ↦ by rw [hlength]; exact hi p (List.mem_cons_of_mem position hp))
      rw [hrest, getD_xorAt _ _ _ _ (by omega), if_neg (hi position List.mem_cons_self).symm]

end Correction

/-! ## Codewords -/

/-- Every syndrome of `word` vanishes. -/
def IsCodeword (code : ReedSolomon) (embed : UInt8 → K) (α : K) (word : List UInt8) : Prop :=
  ∀ k < code.parity, wordValue embed (α ^ (code.firstRoot.toNat + k)) word = 0

/-- `word'` is a codeword that differs from `word` at some of the positions only. -/
structure Repaired (code : ReedSolomon) (embed : UInt8 → K) (α : K) (word : List UInt8)
    (positions : List ℕ) (word' : List UInt8) : Prop where
  length : word'.length = word.length
  codeword : IsCodeword code embed α word'
  frame : ∀ i, (∀ position ∈ positions, i ≠ word.length - 1 - position) →
    word'.getD i 0 = word.getD i 0

section Codewords

variable (hform : WellFormed code)

theorem all_zero_iff (symbols : List UInt8) :
    symbols.all (fun symbol ↦ decide (symbol = 0)) = true ↔ ∀ k, symbols.getD k 0 = 0 := by
  rw [List.all_eq_true]
  constructor
  · intro hall k
    rw [List.getD_eq_getElem?_getD]
    rcases Nat.lt_or_ge k symbols.length with hk | hk
    · rw [List.getElem?_eq_getElem hk, Option.getD_some]
      exact of_decide_eq_true (hall _ (List.getElem_mem hk))
    · rw [List.getElem?_eq_none hk, Option.getD_none]
  · intro hall symbol hmem
    obtain ⟨k, hk, rfl⟩ := List.mem_iff_getElem.mp hmem
    have hzero := hall k
    rw [List.getD_eq_getElem?_getD, List.getElem?_eq_getElem hk, Option.getD_some] at hzero
    exact decide_eq_true hzero

include hrep hform

theorem Represents.coeff_syndromes (word : List UInt8) (k : ℕ) :
    (poly embed ((code.syndromes word).take code.parity)).coeff k = if k < code.parity then
      wordValue embed (α ^ (code.firstRoot.toNat + k)) word else 0 := by
  rw [coeff_poly_take hrep.toEmbeds, coeff_poly hrep.toEmbeds, hrep.embed_syndromes hform]
  split_ifs
  · rfl
  · rfl

omit [Field K] hrep in
theorem WellFormed.length_take_syndromes (word : List UInt8) :
    ((code.syndromes word).take code.parity).length = code.parity := by
  rw [List.length_take, hform.length_syndromes]
  exact Nat.min_eq_left hform.parity_lt.le

theorem Represents.syndromes_all_iff (word : List UInt8) :
    (code.syndromes word).all (fun symbol ↦ decide (symbol = 0)) = true ↔
      IsCodeword code embed α word := by
  rw [all_zero_iff]
  constructor
  · intro hall k hk
    have hzero := congrArg embed (hall k)
    rwa [hrep.embed_syndromes hform, if_pos hk, hrep.zero] at hzero
  · intro hword k
    rw [← hrep.embed_eq_zero, hrep.embed_syndromes hform]
    split_ifs with hk
    · exact hword k hk
    · rfl

theorem Represents.take_syndromes_all_iff (word : List UInt8) :
    ((code.syndromes word).take code.parity).all (fun symbol ↦ decide (symbol = 0)) = true ↔
      IsCodeword code embed α word := by
  rw [← hrep.syndromes_all_iff hform, all_zero_iff, all_zero_iff]
  constructor
  · intro hall k
    have hzero := hall k
    rw [getD_take] at hzero
    split_ifs at hzero with hk
    · exact hzero
    · rw [← hrep.embed_eq_zero, hrep.embed_syndromes hform, if_neg hk]
  · intro hall k
    rw [getD_take, hall k, ite_self]

/-- A locator that generates the syndromes and has all its roots among the positions repairs the
word: no magnitude is missing and the result is a codeword. -/
theorem Represents.correct_repairs {word locator : List UInt8} {degree : ℕ}
    {positions : List ℕ} {indexOf : ℕ → Option ℕ} (hword : word.length ≤ 255)
    (hgen : Generates (poly embed ((code.syndromes word).take code.parity) : K⟦X⟧)
      (poly embed locator) degree code.parity) (hlocator : locator.length ≤ 256)
    (hchien : code.chien locator word.length degree = some positions)
    (hindex : ∀ position < word.length, indexOf position = some (word.length - 1 - position)) :
    ∃ word', code.correct
        ((code.evaluator ((code.syndromes word).take code.parity) locator).take code.parity)
        ((ReedSolomon.derivative locator).take locator.length) indexOf
        (positions.take degree) word = (true, word') ∧
      Repaired code embed α word positions word' := by
  have := hrep.charTwo
  obtain ⟨hpositions, hcount⟩ := chien_eq_some.mp hchien
  have hlt : ∀ position ∈ positions, position < word.length := by
    intro position hmem
    rw [hpositions] at hmem
    exact (hrep.mem_rootPositions.mp hmem).1
  have hnodup : positions.Nodup := by
    rw [hpositions]
    exact nodup_rootPositions locator word.length
  let s := positions.toFinset
  have hs : ∀ position ∈ s, position < 255 := fun position hmem ↦
    (hlt position (List.mem_toFinset.mp hmem)).trans_le hword
  have hcard : s.card = degree := by
    rw [List.toFinset_card_of_nodup hnodup, hcount]
  have hproduct : poly embed locator = ErrorLocator.locator s fun position ↦ α ^ position := by
    have hroots := hrep.poly_eq_locator hword hgen.constant hgen.degree (hpositions ▸ hcount)
    rwa [← hpositions] at hroots
  have hmagnitude (position : ℕ) (hmem : position ∈ s) :=
    hrep.magnitude_spec ((code.evaluator ((code.syndromes word).take code.parity)
      locator).take code.parity) hs
      ((hrep.poly_derivative hlocator).trans (by rw [hproduct])) hmem
  choose! magnitudeOf hsome hvalues using hmagnitude
  obtain ⟨word', hcorrect, hlength, hvalue, hframe⟩ := hrep.correct_loop positions
    (fun position hmem ↦ hsome position (List.mem_toFinset.mpr hmem))
    (fun position hmem ↦ ⟨hlt position hmem, hindex position (hlt position hmem)⟩)
  have hevaluator : ∀ k < code.parity,
      (poly embed ((code.evaluator ((code.syndromes word).take code.parity)
        locator).take code.parity)).coeff k =
      PowerSeries.coeff k (((ErrorLocator.locator s fun position ↦ α ^ position : K[X]) : K⟦X⟧) *
        (poly embed ((code.syndromes word).take code.parity) : K⟦X⟧)) := by
    intro k hk
    have hproduct' := (coeff_truncatedProduct hrep.toEmbeds hrep.mul hform.parity_lt.le locator
      ((code.syndromes word).take code.parity)).2 k
    rw [coeff_poly_take hrep.toEmbeds, if_pos hk, ReedSolomon.evaluator, hproduct', if_pos hk,
      ← hproduct, ← Polynomial.coe_mul, coeff_coe]
  have hsum := ErrorLocator.eq_powerSum_of_evaluator (hrep.distinct hs)
    (by rw [← hproduct, hcard]; exact hgen) hevaluator
    (fun k hk ↦ by rw [coeff_poly_take hrep.toEmbeds, if_neg (not_lt.mpr hk)]) hvalues
  refine ⟨word', ?_, hlength, ?_, hframe⟩
  · rw [List.take_of_length_le hcount.le]
    exact hcorrect
  · intro k hk
    have hsyndrome := hsum k hk
    rw [coeff_coe, hrep.coeff_syndromes hform, if_pos hk] at hsyndrome
    rw [hvalue, hsyndrome, ← List.sum_toFinset _ hnodup, ← Finset.sum_add_distrib]
    refine Finset.sum_eq_zero ?_
    intro position _
    rw [pow_add, mul_pow, ← pow_mul, ← pow_mul, ← pow_mul, ← pow_mul, Nat.mul_comm position,
      Nat.mul_comm position, mul_assoc, CharTwo.add_self_eq_zero]

end Codewords

end Sdrmm.Rs256
