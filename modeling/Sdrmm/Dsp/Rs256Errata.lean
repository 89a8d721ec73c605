import Sdrmm.Dsp.Rs256Decode

/-!
# Decoding of errors and erasures

A Reed-Solomon decoder that refuses leaves the received word alone, and one that accepts leaves a
codeword.  Within half the parity for errors and the whole parity for erasures, the codeword it
leaves is the one that was sent.

Both hold for every primitive polynomial of degree eight, first root and parity.  The corrected
word is identified by the distance of the code: it and the sent word are codewords that differ in
at most as many places as there are parity symbols.
-/

namespace Sdrmm.Rs256

open SymbolArray Polynomial

open scoped PowerSeries

open BerlekampMassey (Generates Register)

/-! ## Lengths -/

theorem length_correct (code : ReedSolomon) (evaluator derivative : List UInt8)
    (indexOf : ℕ → Option ℕ) (positions : List ℕ) (word : List UInt8) :
    (code.correct evaluator derivative indexOf positions word).2.length = word.length := by
  induction positions generalizing word with
  | nil => rfl
  | cons position positions ih =>
    rw [ReedSolomon.correct]
    cases code.magnitude evaluator derivative position with
    | none => rfl
    | some magnitude =>
      cases indexOf position with
      | none => rfl
      | some index => exact (ih _).trans (length_xorAt _ _ _)

theorem length_decode (code : ReedSolomon) (word : List UInt8) :
    (code.decode word).2.length = word.length := by
  unfold ReedSolomon.decode
  split
  · rfl
  · dsimp only
    split
    · rfl
    · split
      · rfl
      · split
        · rfl
        · split
          · exact length_correct _ _ _ _ _ _
          · exact length_correct _ _ _ _ _ _

variable {code : ReedSolomon} {K : Type*} [Field K] {embed : UInt8 → K} {α : K}
  (hrep : Represents code embed α) (hform : WellFormed code)

section Decode

variable {word locator : List UInt8} {errors : ℕ}

include hrep hform

/-- The recurrence in the locator array that `decode` searches. -/
theorem Represents.generates_decode
    (hmassey : code.berlekampMassey ((code.syndromes word).take code.parity) = (locator, errors)) :
    Generates (poly embed ((code.syndromes word).take code.parity) : K⟦X⟧)
      (poly embed (locator.take (errors + 1))) errors code.parity ∧
    ∀ other length, Generates (poly embed ((code.syndromes word).take code.parity) : K⟦X⟧) other
      length code.parity → errors ≤ length := by
  have hlength := hform.length_take_syndromes word
  have hlt := hform.parity_lt
  have hshort : ((code.syndromes word).take code.parity).length ≤ 255 := by omega
  obtain ⟨-, hgen, hminimal⟩ := hrep.berlekampMassey_spec hshort
  rw [hmassey, hlength] at hgen hminimal
  rw [poly_take hrep.toEmbeds (Nat.lt_succ_of_le hgen.degree)]
  exact ⟨hgen, hminimal⟩

/-- `decode` after a root search that found as many positions as the locator is long. -/
theorem Represents.decode_of_positions (hshort : word.length ≤ 255)
    (hlong : code.parity ≤ word.length) (hcorrupt : ¬IsCodeword code embed α word)
    (hmassey : code.berlekampMassey ((code.syndromes word).take code.parity) = (locator, errors))
    (herrors : ¬(errors = 0 ∨ errors > code.correctable)) {positions : List ℕ}
    (hchien : code.chien (locator.take (errors + 1)) word.length errors = some positions) :
    ∃ word', code.decode word = (some errors, word') ∧
      Repaired code embed α word positions word' := by
  have hlt := hform.parity_lt
  have hgen := (hrep.generates_decode hform hmassey).1
  have hlocator : (locator.take (errors + 1)).length ≤ 256 := by
    rw [List.length_take]
    have : code.correctable ≤ code.parity := Nat.div_le_self _ _
    omega
  have hindex : ∀ position < word.length, ReedSolomon.checkedSub word.length (1 + position) =
      some (word.length - 1 - position) := by
    intro position hposition
    rw [ReedSolomon.checkedSub, if_pos (by omega), Nat.sub_sub]
  obtain ⟨word', hcorrect, hrepaired⟩ :=
    hrep.correct_repairs hform hshort hgen hlocator hchien hindex
  refine ⟨word', ?_, hrepaired⟩
  have hzero := (hrep.syndromes_all_iff hform word').mpr hrepaired.codeword
  unfold ReedSolomon.decode
  rw [if_neg (by omega), if_neg (mt (hrep.take_syndromes_all_iff hform word).mp hcorrupt)]
  simp only [hmassey, hchien, hcorrect, hzero, and_self, if_true]
  rw [if_neg herrors]

theorem Represents.decode_cases (word : List UInt8) :
    code.decode word = (none, word) ∨
      ∃ n word', code.decode word = (some n, word') ∧ IsCodeword code embed α word' := by
  by_cases hlength : word.length > 255 ∨ word.length < code.parity
  · left
    unfold ReedSolomon.decode
    rw [if_pos hlength]
  by_cases hclean : IsCodeword code embed α word
  · right
    refine ⟨0, word, ?_, hclean⟩
    unfold ReedSolomon.decode
    rw [if_neg hlength, if_pos ((hrep.take_syndromes_all_iff hform word).mpr hclean)]
  have hcorrupt := mt (hrep.take_syndromes_all_iff hform word).mp hclean
  rcases hmassey : code.berlekampMassey ((code.syndromes word).take code.parity) with
    ⟨locator, errors⟩
  by_cases herrors : errors = 0 ∨ errors > code.correctable
  · left
    unfold ReedSolomon.decode
    rw [if_neg hlength, if_neg hcorrupt]
    simp only [hmassey]
    rw [if_pos herrors]
  cases hchien : code.chien (locator.take (errors + 1)) word.length errors with
  | none =>
    left
    unfold ReedSolomon.decode
    rw [if_neg hlength, if_neg hcorrupt]
    simp only [hmassey, hchien]
    rw [if_neg herrors]
  | some positions =>
    right
    obtain ⟨word', hdecode, hrepaired⟩ := hrep.decode_of_positions hform (by omega) (by omega)
      hclean hmassey herrors hchien
    exact ⟨errors, word', hdecode, hrepaired.codeword⟩

end Decode

/-! ## Erasures -/

section Erasures

include hrep

theorem Represents.getD_erasureFactor (root : UInt8) (n : ℕ) (k : ℕ) {gamma : List UInt8}
    (hfits : n < gamma.length) :
    ((List.range' 1 n).reverse.foldl (fun gamma degree ↦
      xorAt gamma degree (code.mul root (gamma.getD (degree - 1) 0))) gamma).length =
        gamma.length ∧
    embed (((List.range' 1 n).reverse.foldl (fun gamma degree ↦
      xorAt gamma degree (code.mul root (gamma.getD (degree - 1) 0))) gamma).getD k 0) =
      embed (gamma.getD k 0) + if 1 ≤ k ∧ k ≤ n then embed root * embed (gamma.getD (k - 1) 0)
        else 0 := by
  induction n generalizing gamma with
  | zero =>
    rw [List.range'_zero, List.reverse_nil, List.foldl_nil, if_neg (by omega), add_zero]
    exact ⟨rfl, rfl⟩
  | succ n ih =>
    -- The highest coefficient goes first and is not read again.
    rw [List.range'_1_concat, List.reverse_append, List.reverse_singleton, List.singleton_append,
      List.foldl_cons, Nat.add_comm 1 n, Nat.add_sub_cancel]
    have hlength := length_xorAt gamma (n + 1) (code.mul root (gamma.getD n 0))
    have hget (j : ℕ) : (xorAt gamma (n + 1) (code.mul root (gamma.getD n 0))).getD j 0 =
        if n + 1 = j then gamma.getD j 0 ^^^ code.mul root (gamma.getD n 0)
        else gamma.getD j 0 := getD_xorAt _ _ _ _ hfits
    have hfits' : n < (xorAt gamma (n + 1) (code.mul root (gamma.getD n 0))).length := by omega
    obtain ⟨hlength', hvalue⟩ := ih hfits'
    refine ⟨hlength'.trans hlength, ?_⟩
    rw [hvalue, hget, hget]
    by_cases hk : n + 1 = k
    · subst hk
      rw [if_pos rfl, if_neg (by omega), if_pos (by omega), hrep.xor, hrep.mul, add_zero,
        Nat.add_sub_cancel]
    · rw [if_neg hk]
      by_cases hrange : 1 ≤ k ∧ k ≤ n
      · have hne : ¬n + 1 = k - 1 := by omega
        have hrange' : 1 ≤ k ∧ k ≤ n + 1 := by omega
        rw [if_pos hrange, if_pos hrange', if_neg hne]
      · have hrange' : ¬(1 ≤ k ∧ k ≤ n + 1) := by omega
        rw [if_neg hrange, if_neg hrange']

/-- One erasure multiplies its factor into the locator. -/
theorem Represents.poly_erasureFactor (root : UInt8) {count : ℕ} {gamma : List UInt8}
    (hlength : gamma.length = 256) (hcount : count < 255)
    (hdegree : (poly embed gamma).natDegree ≤ count) :
    (code.erasureFactor root gamma count).length = 256 ∧
      poly embed (code.erasureFactor root gamma count) =
        poly embed gamma * (1 + C (embed root) * X) := by
  have hfits : count + 1 < gamma.length := by omega
  unfold ReedSolomon.erasureFactor
  refine ⟨(hrep.getD_erasureFactor root (count + 1) 0 hfits).1.trans hlength, ?_⟩
  ext k
  rw [coeff_poly hrep.toEmbeds, (hrep.getD_erasureFactor root (count + 1) k hfits).2, mul_add,
    mul_one, coeff_add, coeff_poly hrep.toEmbeds, ← mul_assoc, mul_comm (poly embed gamma),
    mul_assoc, coeff_C_mul]
  congr 1
  cases k with
  | zero => rw [if_neg (by omega), coeff_mul_X_zero, mul_zero]
  | succ k =>
    rw [coeff_mul_X, coeff_poly hrep.toEmbeds, Nat.add_sub_cancel]
    split_ifs with hk
    · rfl
    · have hzero := coeff_eq_zero_of_natDegree_lt (p := poly embed gamma) (n := k) (by omega)
      rw [coeff_poly hrep.toEmbeds] at hzero
      rw [hzero, mul_zero]

/-- The factor of an erased index in a word of `len` symbols. -/
noncomputable def erasurePoly (α : K) (len index : ℕ) : K[X] := 1 + C (α ^ (len - 1 - index)) * X

omit hrep in
theorem natDegree_erasurePoly_le (len index : ℕ) : (erasurePoly α len index).natDegree ≤ 1 := by
  refine (natDegree_add_le _ _).trans (max_le ?_ ?_)
  · rw [natDegree_one]
    exact Nat.zero_le 1
  · exact (natDegree_C_mul_le _ _).trans natDegree_X_le

theorem Represents.poly_erasureLoop (len : ℕ) (erasures : List ℕ) (start : ℕ) {gamma : List UInt8}
    (hlength : gamma.length = 256) (hdegree : (poly embed gamma).natDegree ≤ start)
    (hcount : start + erasures.length ≤ 255) :
    ((erasures.zipIdx start).foldl (fun gamma (item : ℕ × ℕ) ↦
      code.erasureFactor (code.power (len - 1 - item.1)) gamma item.2) gamma).length = 256 ∧
    (poly embed ((erasures.zipIdx start).foldl (fun gamma (item : ℕ × ℕ) ↦
      code.erasureFactor (code.power (len - 1 - item.1)) gamma item.2) gamma)).natDegree ≤
        start + erasures.length ∧
    poly embed ((erasures.zipIdx start).foldl (fun gamma (item : ℕ × ℕ) ↦
      code.erasureFactor (code.power (len - 1 - item.1)) gamma item.2) gamma) =
      poly embed gamma * (erasures.map (erasurePoly α len)).prod := by
  induction erasures generalizing start gamma with
  | nil =>
    rw [List.zipIdx_nil, List.foldl_nil, List.map_nil, List.prod_nil, mul_one]
    exact ⟨hlength, hdegree, rfl⟩
  | cons index erasures ih =>
    rw [List.length_cons] at hcount
    obtain ⟨hlength', hpoly⟩ := hrep.poly_erasureFactor (code.power (len - 1 - index)) hlength
      (by omega) hdegree
    rw [hrep.power] at hpoly
    change _ = _ * erasurePoly α len index at hpoly
    have hdegree' : (poly embed (code.erasureFactor (code.power (len - 1 - index)) gamma
        start)).natDegree ≤ start + 1 := by
      rw [hpoly]
      exact natDegree_mul_le.trans (Nat.add_le_add hdegree (natDegree_erasurePoly_le len index))
    obtain ⟨hlength₂, hdegree₂, hpoly₂⟩ := ih (start + 1) hlength' hdegree' (by omega)
    rw [List.zipIdx_cons, List.foldl_cons, List.length_cons, List.map_cons, List.prod_cons]
    refine ⟨hlength₂, hdegree₂.trans (by omega), ?_⟩
    rw [hpoly₂, hpoly, mul_assoc]

/-- The erasure locator is the product of the factors of the erased indices. -/
theorem Represents.poly_erasureLocator {erasures : List ℕ} (len : ℕ)
    (hcount : erasures.length ≤ 255) :
    (code.erasureLocator erasures len).length = 256 ∧
      (poly embed (code.erasureLocator erasures len)).natDegree ≤ erasures.length ∧
      poly embed (code.erasureLocator erasures len) =
        (erasures.map (erasurePoly α len)).prod := by
  have hone := hrep.poly_one
  obtain ⟨hlength, hdegree, hpoly⟩ := hrep.poly_erasureLoop len erasures 0
    (List.length_set.trans List.length_replicate) (by rw [hone, natDegree_one]) (by omega)
  rw [hone, one_mul] at hpoly
  rw [Nat.zero_add] at hdegree
  exact ⟨hlength, hdegree, hpoly⟩

theorem Represents.coeff_zero_erasureLocator {erasures : List ℕ} (len : ℕ)
    (hcount : erasures.length ≤ 255) :
    (poly embed (code.erasureLocator erasures len)).coeff 0 = 1 := by
  rw [(hrep.poly_erasureLocator len hcount).2.2]
  induction erasures with
  | nil => rw [List.map_nil, List.prod_nil, coeff_one_zero]
  | cons index erasures ih =>
    rw [List.length_cons] at hcount
    rw [List.map_cons, List.prod_cons, mul_coeff_zero, ih (by omega), erasurePoly, coeff_add,
      coeff_one_zero, mul_coeff_zero, coeff_X_zero, mul_zero, add_zero, mul_one]

/-- The Forney syndromes that Berlekamp-Massey runs on: the product of erasure locator and
syndromes, past the degree of the locator. -/
def forneySyndromes (code : ReedSolomon) (word : List UInt8) (erasures : List ℕ) : List UInt8 :=
  ((code.evaluator ((code.syndromes word).take code.parity)
    ((code.erasureLocator erasures word.length).take (erasures.length + 1))).take code.parity).drop
      erasures.length

/-- The locator of errors and erasures together. -/
def errataLocator (code : ReedSolomon) (word : List UInt8) (erasures : List ℕ)
    (lambda : List UInt8) (errors : ℕ) : List UInt8 :=
  (code.product (lambda.take (errors + 1))
    ((code.erasureLocator erasures word.length).take (erasures.length + 1))).take
      (errors + erasures.length + 1)

variable {word lambda : List UInt8} {erasures : List ℕ} {errors : ℕ}

include hform

theorem Represents.forneySyndromes_spec (hcount : erasures.length ≤ code.parity) :
    (forneySyndromes code word erasures).length = code.parity - erasures.length ∧
    ∀ k < code.parity - erasures.length,
      PowerSeries.coeff k (poly embed (forneySyndromes code word erasures) : K⟦X⟧) =
      PowerSeries.coeff (k + erasures.length)
        ((poly embed (code.erasureLocator erasures word.length) : K⟦X⟧) *
          (poly embed ((code.syndromes word).take code.parity) : K⟦X⟧)) := by
  have hlt := hform.parity_lt
  obtain ⟨-, hdegree, -⟩ := hrep.poly_erasureLocator word.length (hcount.trans (by omega))
  have htake := poly_take hrep.toEmbeds (Nat.lt_succ_of_le hdegree)
  obtain ⟨hlength, hcoeff⟩ := coeff_truncatedProduct hrep.toEmbeds hrep.mul hlt.le
    ((code.erasureLocator erasures word.length).take (erasures.length + 1))
    ((code.syndromes word).take code.parity)
  unfold forneySyndromes
  constructor
  · rw [List.length_drop, List.length_take, ReedSolomon.evaluator, hlength]
    omega
  · intro k hk
    rw [coeff_coe, coeff_poly hrep.toEmbeds, List.getD_eq_getElem?_getD, List.getElem?_drop,
      ← List.getD_eq_getElem?_getD, Nat.add_comm erasures.length k, ← coeff_poly hrep.toEmbeds,
      coeff_poly_take hrep.toEmbeds, if_pos (by omega), ReedSolomon.evaluator, hcoeff,
      if_pos (by omega), ← htake, ← Polynomial.coe_mul, coeff_coe]

section Errata

variable (hcount : erasures.length ≤ code.parity)
  (hmassey : code.berlekampMassey (forneySyndromes code word erasures) = (lambda, errors))

include hcount hmassey

theorem Represents.generates_forney :
    Generates (poly embed (forneySyndromes code word erasures) : K⟦X⟧) (poly embed lambda) errors
      (code.parity - erasures.length) ∧
    ∀ other length, Generates (poly embed (forneySyndromes code word erasures) : K⟦X⟧) other length
      (code.parity - erasures.length) → errors ≤ length := by
  have hlt := hform.parity_lt
  have hlength : (forneySyndromes code word erasures).length = code.parity - erasures.length :=
    (hrep.forneySyndromes_spec hform hcount).1
  have hshort : (forneySyndromes code word erasures).length ≤ 255 := by omega
  obtain ⟨-, hgen, hminimal⟩ := hrep.berlekampMassey_spec hshort
  rw [hmassey, hlength] at hgen hminimal
  exact ⟨hgen, hminimal⟩

variable (herrors : errors ≤ (code.parity - erasures.length) / 2)

include herrors

theorem Represents.poly_errataLocator :
    (errataLocator code word erasures lambda errors).length ≤ 256 ∧
    poly embed (errataLocator code word erasures lambda errors) =
      poly embed lambda * poly embed (code.erasureLocator erasures word.length) := by
  have hlt := hform.parity_lt
  obtain ⟨hgen, -⟩ := hrep.generates_forney hform hcount hmassey
  obtain ⟨-, hdegree, -⟩ := hrep.poly_erasureLocator word.length (hcount.trans (by omega))
  have hproduct : (poly embed lambda *
      poly embed (code.erasureLocator erasures word.length)).natDegree ≤
        errors + erasures.length :=
    natDegree_mul_le.trans (Nat.add_le_add hgen.degree hdegree)
  obtain ⟨hlength, hcoeff⟩ := coeff_truncatedProduct hrep.toEmbeds hrep.mul (le_refl 256)
    (lambda.take (errors + 1))
    ((code.erasureLocator erasures word.length).take (erasures.length + 1))
  rw [poly_take hrep.toEmbeds (Nat.lt_succ_of_le hgen.degree),
    poly_take hrep.toEmbeds (Nat.lt_succ_of_le hdegree)] at hcoeff
  constructor
  · unfold errataLocator ReedSolomon.product
    rw [List.length_take, hlength]
    exact Nat.min_le_right _ _
  · ext k
    unfold errataLocator ReedSolomon.product
    rw [coeff_poly_take hrep.toEmbeds, hcoeff]
    split_ifs with hk hlow
    · rfl
    · omega
    · exact (coeff_eq_zero_of_natDegree_lt (by omega)).symm

/-- The errata locator is a recurrence for the syndromes themselves. -/
theorem Represents.generates_errata :
    Generates (poly embed ((code.syndromes word).take code.parity) : K⟦X⟧)
      (poly embed (errataLocator code word erasures lambda errors))
      (errors + erasures.length) code.parity := by
  have hlt := hform.parity_lt
  have hle : erasures.length ≤ 255 := hcount.trans (by omega)
  rw [(hrep.poly_errataLocator hform hcount hmassey herrors).2]
  exact (hrep.generates_forney hform hcount hmassey).1.mul_known
    (hrep.coeff_zero_erasureLocator word.length hle)
    (hrep.poly_erasureLocator word.length hle).2.1 (hrep.forneySyndromes_spec hform hcount).2

/-- `decode_with_erasures` after a root search that found as many positions as the errata locator
is long. -/
theorem Represents.decodeWithErasures_of_positions (hshort : word.length ≤ 255)
    (hlong : code.parity ≤ word.length) (hindices : ¬erasures.any (· ≥ word.length) = true)
    (hcorrupt : ¬IsCodeword code embed α word) {positions : List ℕ}
    (hchien : code.chien (errataLocator code word erasures lambda errors) word.length
      (errors + erasures.length) = some positions) :
    ∃ word', code.decodeWithErasures word erasures = (some (errors + erasures.length), word') ∧
      Repaired code embed α word positions word' := by
  have hgen := hrep.generates_errata hform hcount hmassey herrors
  have hlocator := (hrep.poly_errataLocator hform hcount hmassey herrors).1
  obtain ⟨word', hcorrect, hrepaired⟩ := hrep.correct_repairs hform hshort hgen hlocator hchien
    (fun position _ ↦ rfl)
  refine ⟨word', ?_, hrepaired⟩
  have hzero := (hrep.take_syndromes_all_iff hform word').mpr hrepaired.codeword
  have hguard : ¬(word.length > Rs256.order ∨ word.length < code.parity ∨
      erasures.length > code.parity ∨ erasures.any (· ≥ word.length) = true) := by
    simp only [not_or, not_lt]
    exact ⟨hshort, hlong, hcount, hindices⟩
  unfold forneySyndromes at hmassey
  unfold errataLocator at hchien hcorrect
  unfold ReedSolomon.decodeWithErasures
  simp only [hmassey, hchien, hcorrect, hzero, and_self, if_true]
  rw [if_neg hguard, if_neg (mt (hrep.take_syndromes_all_iff hform word).mp hcorrupt),
    if_neg (not_lt.mpr herrors)]

end Errata

theorem Represents.decodeWithErasures_cases (word : List UInt8) (erasures : List ℕ) :
    code.decodeWithErasures word erasures = (none, word) ∨
      ∃ n word', code.decodeWithErasures word erasures = (some n, word') ∧
        IsCodeword code embed α word' := by
  by_cases hguard : word.length > Rs256.order ∨ word.length < code.parity ∨
      erasures.length > code.parity ∨ erasures.any (· ≥ word.length) = true
  · left
    unfold ReedSolomon.decodeWithErasures
    rw [if_pos hguard]
  by_cases hclean : IsCodeword code embed α word
  · right
    refine ⟨0, word, ?_, hclean⟩
    unfold ReedSolomon.decodeWithErasures
    rw [if_neg hguard, if_pos ((hrep.take_syndromes_all_iff hform word).mpr hclean)]
  have hcorrupt := mt (hrep.take_syndromes_all_iff hform word).mp hclean
  rcases hmassey : code.berlekampMassey (forneySyndromes code word erasures) with ⟨lambda, errors⟩
  by_cases herrors : errors > (code.parity - erasures.length) / 2
  · left
    unfold forneySyndromes at hmassey
    unfold ReedSolomon.decodeWithErasures
    simp only [hmassey]
    rw [if_neg hguard, if_neg hcorrupt, if_pos herrors]
  cases hchien : code.chien (errataLocator code word erasures lambda errors) word.length
      (errors + erasures.length) with
  | none =>
    left
    unfold forneySyndromes at hmassey
    unfold errataLocator at hchien
    unfold ReedSolomon.decodeWithErasures
    simp only [hmassey, hchien]
    rw [if_neg hguard, if_neg hcorrupt, if_neg herrors]
  | some positions =>
    right
    simp only [not_or] at hguard
    obtain ⟨word', hdecode, hrepaired⟩ := hrep.decodeWithErasures_of_positions hform
      (not_lt.mp hguard.2.2.1) hmassey (not_lt.mp herrors) (not_lt.mp hguard.1)
      (not_lt.mp hguard.2.1) hguard.2.2.2 hclean hchien
    exact ⟨_, word', hdecode, hrepaired.codeword⟩

end Erasures

/-! ## Words close to a codeword -/

section Distance

/-- The positions, counted from the end of a word of `len` symbols, of some indices. -/
def positionsOf (len : ℕ) (indices : List ℕ) : Finset ℕ :=
  indices.toFinset.image fun index ↦ len - 1 - index

theorem card_positionsOf {len : ℕ} {indices : List ℕ} (hnodup : indices.Nodup)
    (hlt : ∀ index ∈ indices, index < len) : (positionsOf len indices).card = indices.length := by
  rw [positionsOf, Finset.card_image_of_injOn, List.toFinset_card_of_nodup hnodup]
  intro i hi j hj hij
  have hi' := hlt i (List.mem_toFinset.mp hi)
  have hj' := hlt j (List.mem_toFinset.mp hj)
  simp only at hij
  omega

theorem mem_positionsOf {len position : ℕ} {indices : List ℕ} :
    position ∈ positionsOf len indices ↔ ∃ index ∈ indices, len - 1 - index = position := by
  rw [positionsOf, Finset.mem_image]
  simp only [List.mem_toFinset]

theorem positionsOf_lt {len position : ℕ} {indices : List ℕ}
    (hlt : ∀ index ∈ indices, index < len) (hmem : position ∈ positionsOf len indices) :
    position < len := by
  obtain ⟨index, hindex, rfl⟩ := mem_positionsOf.mp hmem
  have := hlt index hindex
  omega

/-- What has to be added to `sent` at a position to obtain `word`, times the power of the position
that the first root contributes. -/
noncomputable def errorValue (code : ReedSolomon) (embed : UInt8 → K) (α : K)
    (sent word : List UInt8) (position : ℕ) : K :=
  (embed (word.getD (word.length - 1 - position) 0) +
    embed (sent.getD (word.length - 1 - position) 0)) * (α ^ position) ^ code.firstRoot.toNat

/-- The words agree except at the positions in `s`. -/
structure Differ (sent word : List UInt8) (s : Finset ℕ) : Prop where
  length : word.length = sent.length
  lt : ∀ position ∈ s, position < word.length
  agree : ∀ position < word.length, position ∉ s →
    word.getD (word.length - 1 - position) 0 = sent.getD (word.length - 1 - position) 0

variable {sent word : List UInt8} {s : Finset ℕ}

include hrep

theorem Represents.errorValue_eq_zero {position : ℕ} :
    errorValue code embed α sent word position = 0 ↔
      word.getD (word.length - 1 - position) 0 = sent.getD (word.length - 1 - position) 0 := by
  have := hrep.charTwo
  have hpower : (α ^ position) ^ code.firstRoot.toNat ≠ 0 :=
    pow_ne_zero _ (pow_ne_zero _ hrep.ne_zero)
  rw [errorValue, mul_eq_zero, or_iff_left hpower, CharTwo.add_eq_zero]
  exact hrep.injective.eq_iff

/-- The syndromes of a word are the power sums of its differences from a codeword. -/
theorem Represents.wordValue_differ (hdiffer : Differ sent word s)
    (hsent : IsCodeword code embed α sent) {k : ℕ} (hk : k < code.parity) :
    wordValue embed (α ^ (code.firstRoot.toNat + k)) word =
      ∑ position ∈ s, errorValue code embed α sent word position * (α ^ position) ^ k := by
  have := hrep.charTwo
  have hsubset : s ⊆ Finset.range word.length := fun position hmem ↦
    Finset.mem_range.mpr (hdiffer.lt position hmem)
  rw [← add_zero (wordValue embed _ word), ← hsent k hk, wordValue_eq_sum, wordValue_eq_sum,
    ← hdiffer.length, ← Finset.sum_add_distrib]
  symm
  refine Finset.sum_subset_zero_on_sdiff hsubset ?_ ?_
  · intro position hmem
    rw [Finset.mem_sdiff, Finset.mem_range] at hmem
    rw [hdiffer.agree position hmem.1 hmem.2, CharTwo.add_self_eq_zero]
  · intro position _
    rw [errorValue, pow_add, mul_pow, ← pow_mul, ← pow_mul, ← pow_mul, ← pow_mul,
      Nat.mul_comm position, Nat.mul_comm position]
    ring

/-- Codewords that differ in at most `parity` places are equal. -/
theorem Represents.eq_of_differ (hdiffer : Differ sent word s)
    (hsent : IsCodeword code embed α sent) (hword : IsCodeword code embed α word)
    (hshort : word.length ≤ 255) (hcard : s.card ≤ code.parity) : word = sent := by
  have hdistinct : ErrorLocator.Distinct s fun position ↦ α ^ position :=
    hrep.distinct fun position hmem ↦ (hdiffer.lt position hmem).trans_le hshort
  have hzero : ∀ k, 0 ≤ k → k < 0 + s.card →
      ∑ position ∈ s, errorValue code embed α sent word position * (α ^ position) ^ k = 0 := by
    intro k _ hk
    rw [← hrep.wordValue_differ hdiffer hsent (by omega)]
    exact hword k (by omega)
  have hvalues := ErrorLocator.values_eq_zero hdistinct hzero
  refine List.ext_getElem hdiffer.length ?_
  intro i hi hi'
  have hagree : word.getD i 0 = sent.getD i 0 := by
    have hindex : word.length - 1 - (word.length - 1 - i) = i := by omega
    by_cases hmem : word.length - 1 - i ∈ s
    · have hzero := hrep.errorValue_eq_zero.mp (hvalues _ hmem)
      rwa [hindex] at hzero
    · have hsame := hdiffer.agree (word.length - 1 - i) (by omega) hmem
      rwa [hindex] at hsame
  rwa [List.getD_eq_getElem?_getD, List.getD_eq_getElem?_getD, List.getElem?_eq_getElem hi,
    List.getElem?_eq_getElem hi', Option.getD_some, Option.getD_some] at hagree

/-- The root search finds exactly the positions of a product of factors. -/
theorem Represents.chien_locator {locator : List UInt8} {length : ℕ} (hlength : length ≤ 255)
    (hs : ∀ position ∈ s, position < length)
    (hlocator : poly embed locator = ErrorLocator.locator s fun position ↦ α ^ position) :
    ∃ positions, code.chien locator length s.card = some positions ∧ positions.toFinset = s := by
  have hdistinct : ErrorLocator.Distinct (Finset.range length) fun position ↦ α ^ position :=
    hrep.distinct fun position hmem ↦ (Finset.mem_range.mp hmem).trans_le hlength
  have hset : (rootPositions code locator length).toFinset = s := by
    ext position
    rw [List.mem_toFinset, hrep.mem_rootPositions, hlocator]
    constructor
    · rintro ⟨hlt, hroot⟩
      by_contra hnotMem
      refine ErrorLocator.eval_locator_ne_zero_of_notMem (s := Finset.range length) (t := s) ?_
        (Finset.mem_range.mpr hlt) hnotMem hroot
      rwa [Finset.union_eq_left.mpr fun p hp ↦ Finset.mem_range.mpr (hs p hp)]
    · intro hmem
      have hs' : ErrorLocator.Distinct s fun position ↦ α ^ position :=
        hrep.distinct fun p hp ↦ (hs p hp).trans_le hlength
      exact ⟨hs position hmem, ErrorLocator.eval_locator hs' hmem⟩
  refine ⟨rootPositions code locator length, chien_eq_some.mpr ⟨rfl, ?_⟩, hset⟩
  rw [← List.toFinset_card_of_nodup (nodup_rootPositions locator length), hset]

omit hrep in
/-- A repair confined to `s` differs from the sent word in `s` only. -/
theorem Repaired.differ {word' : List UInt8} {positions : List ℕ}
    (hrepaired : Repaired code embed α word positions word') (hpositions : positions.toFinset = s)
    (hdiffer : Differ sent word s) : Differ sent word' s where
  length := hrepaired.length.trans hdiffer.length
  lt := fun position hmem ↦ by
    rw [hrepaired.length]
    exact hdiffer.lt position hmem
  agree := by
    intro position hlt hnotMem
    rw [hrepaired.length] at hlt ⊢
    rw [hrepaired.frame, hdiffer.agree position hlt hnotMem]
    intro other hother heq
    have hmem : other ∈ s := hpositions ▸ List.mem_toFinset.mpr hother
    have hother_lt := hdiffer.lt other hmem
    have : position = other := by omega
    exact hnotMem (this ▸ hmem)

end Distance

/-! ## Restoring the sent word -/

section Restore

variable {sent word : List UInt8}

include hrep hform

theorem Represents.coeff_syndromes_differ {s : Finset ℕ} (hdiffer : Differ sent word s)
    (hsent : IsCodeword code embed α sent) :
    ∀ k < code.parity,
      PowerSeries.coeff k (poly embed ((code.syndromes word).take code.parity) : K⟦X⟧) =
      PowerSeries.coeff k (ErrorLocator.powerSum s (fun position ↦ α ^ position)
        (errorValue code embed α sent word)) := by
  intro k hk
  rw [coeff_coe, hrep.coeff_syndromes hform, if_pos hk, hrep.wordValue_differ hdiffer hsent hk,
    ErrorLocator.coeff_powerSum]

theorem Represents.decode_restores {s : Finset ℕ} (hdiffer : Differ sent word s)
    (hexact : ∀ position ∈ s,
      word.getD (word.length - 1 - position) 0 ≠ sent.getD (word.length - 1 - position) 0)
    (hsent : IsCodeword code embed α sent) (hshort : word.length ≤ 255)
    (hlong : code.parity ≤ word.length) (hcard : 2 * s.card ≤ code.parity) :
    code.decode word = (some s.card, sent) := by
  by_cases hclean : IsCodeword code embed α word
  · have heq := hrep.eq_of_differ hdiffer hsent hclean hshort (by omega)
    have hempty : s = ∅ := by
      refine Finset.eq_empty_of_forall_notMem ?_
      intro position hmem
      exact hexact position hmem (by rw [heq])
    unfold ReedSolomon.decode
    rw [if_neg (by omega), if_pos ((hrep.take_syndromes_all_iff hform word).mpr hclean), hempty,
      Finset.card_empty, heq]
  have hdistinct : ErrorLocator.Distinct s fun position ↦ α ^ position :=
    hrep.distinct fun position hmem ↦ (hdiffer.lt position hmem).trans_le hshort
  rcases hmassey : code.berlekampMassey ((code.syndromes word).take code.parity) with
    ⟨locator, errors⟩
  obtain ⟨hgen, hminimal⟩ := hrep.generates_decode hform hmassey
  obtain ⟨hlength, hlocator⟩ := ErrorLocator.eq_locator_of_minimal hdistinct
    (hrep.coeff_syndromes_differ hform hdiffer hsent)
    (fun position hmem ↦ mt hrep.errorValue_eq_zero.mp (hexact position hmem)) hcard hgen hminimal
  subst hlength
  have hnonempty : s.card ≠ 0 := by
    intro hzero
    rw [Finset.card_eq_zero] at hzero
    refine hclean ?_
    intro k hk
    rw [hrep.wordValue_differ hdiffer hsent hk, hzero, Finset.sum_empty]
  obtain ⟨positions, hchien, hpositions⟩ := hrep.chien_locator hshort hdiffer.lt hlocator
  have hrange : ¬(s.card = 0 ∨ s.card > code.correctable) := by
    unfold ReedSolomon.correctable
    omega
  obtain ⟨word', hdecode, hrepaired⟩ := hrep.decode_of_positions hform hshort hlong hclean hmassey
    hrange hchien
  rw [hdecode, hrep.eq_of_differ (hrepaired.differ hpositions hdiffer) hsent hrepaired.codeword
    (by rw [hrepaired.length]; exact hshort) (by omega)]

omit hform in
/-- For distinct indices the erasure locator is the product over their positions. -/
theorem Represents.poly_erasureLocator_positionsOf {erasures : List ℕ} {len : ℕ}
    (hcount : erasures.length ≤ 255) (hnodup : erasures.Nodup)
    (hlt : ∀ index ∈ erasures, index < len) :
    poly embed (code.erasureLocator erasures len) =
      ErrorLocator.locator (positionsOf len erasures) fun position ↦ α ^ position := by
  have := hrep.charTwo
  rw [(hrep.poly_erasureLocator len hcount).2.2, ErrorLocator.locator, positionsOf,
    Finset.prod_image, ← List.prod_toFinset _ hnodup]
  · refine Finset.prod_congr rfl ?_
    intro index _
    rw [erasurePoly, CharTwo.sub_eq_add]
  · intro i hi j hj hij
    have hi' := hlt i (List.mem_toFinset.mp hi)
    have hj' := hlt j (List.mem_toFinset.mp hj)
    simp only at hij
    omega

theorem Represents.decodeWithErasures_restores {s : Finset ℕ} {erasures : List ℕ}
    (hnodup : erasures.Nodup) (hindices : ∀ index ∈ erasures, index < word.length)
    (hdiffer : Differ sent word (s ∪ positionsOf word.length erasures))
    (hexact : ∀ position ∈ s, position ∉ positionsOf word.length erasures ∧
      word.getD (word.length - 1 - position) 0 ≠ sent.getD (word.length - 1 - position) 0)
    (hsent : IsCodeword code embed α sent) (hshort : word.length ≤ 255)
    (hlong : code.parity ≤ word.length)
    (hcard : 2 * s.card + erasures.length ≤ code.parity) :
    ∃ n, code.decodeWithErasures word erasures = (some n, sent) ∧ n - erasures.length = s.card := by
  have hlt := hform.parity_lt
  have herased : (positionsOf word.length erasures).card = erasures.length :=
    card_positionsOf hnodup hindices
  have hdisjoint : Disjoint s (positionsOf word.length erasures) :=
    Finset.disjoint_left.mpr fun position hmem ↦ (hexact position hmem).1
  have hunion : (s ∪ positionsOf word.length erasures).card = s.card + erasures.length := by
    rw [Finset.card_union_of_disjoint hdisjoint, herased]
  have hany : ¬erasures.any (· ≥ word.length) = true := by
    simpa using hindices
  by_cases hclean : IsCodeword code embed α word
  · have hguard : ¬(word.length > Rs256.order ∨ word.length < code.parity ∨
        erasures.length > code.parity ∨ erasures.any (· ≥ word.length) = true) := by
      simp only [not_or, not_lt]
      exact ⟨hshort, hlong, by omega, hany⟩
    have heq := hrep.eq_of_differ hdiffer hsent hclean hshort (by omega)
    have hempty : s = ∅ := by
      refine Finset.eq_empty_of_forall_notMem ?_
      intro position hmem
      exact (hexact position hmem).2 (by rw [heq])
    refine ⟨0, ?_, by rw [hempty, Finset.card_empty, Nat.zero_sub]⟩
    unfold ReedSolomon.decodeWithErasures
    rw [if_neg hguard, if_pos ((hrep.take_syndromes_all_iff hform word).mpr hclean), heq]
  have hdistinct : ErrorLocator.Distinct (s ∪ positionsOf word.length erasures)
      fun position ↦ α ^ position :=
    hrep.distinct fun position hmem ↦ (hdiffer.lt position hmem).trans_le hshort
  have hdistinct' : ErrorLocator.Distinct s fun position ↦ α ^ position :=
    hrep.distinct fun position hmem ↦
      (hdiffer.lt position (Finset.mem_union_left _ hmem)).trans_le hshort
  have hcount : erasures.length ≤ code.parity := by omega
  have hgamma := hrep.poly_erasureLocator_positionsOf (by omega) hnodup hindices
  rcases hmassey : code.berlekampMassey (forneySyndromes code word erasures) with ⟨lambda, errors⟩
  obtain ⟨hgen, hminimal⟩ := hrep.generates_forney hform hcount hmassey
  -- Past the erasures, the Forney syndromes are power sums over the errors alone.
  have hforney : ∀ k < code.parity - erasures.length,
      PowerSeries.coeff k (poly embed (forneySyndromes code word erasures) : K⟦X⟧) =
      PowerSeries.coeff k (ErrorLocator.powerSum s (fun position ↦ α ^ position) fun position ↦
        errorValue code embed α sent word position *
          (ErrorLocator.locator (positionsOf word.length erasures)
            fun position ↦ α ^ position).eval (α ^ position)⁻¹ *
          (α ^ position) ^ (positionsOf word.length erasures).card) := by
    intro k hk
    rw [(hrep.forneySyndromes_spec hform hcount).2 k hk, hgamma,
      ErrorLocator.coeff_mul_congr (hrep.coeff_syndromes_differ hform hdiffer hsent) _ (by omega),
      ← ErrorLocator.coeff_locator_mul_powerSum hdistinct, herased]
  have hvalues : ∀ position ∈ s, errorValue code embed α sent word position *
      (ErrorLocator.locator (positionsOf word.length erasures)
        fun position ↦ α ^ position).eval (α ^ position)⁻¹ *
      (α ^ position) ^ (positionsOf word.length erasures).card ≠ 0 := by
    intro position hmem
    refine mul_ne_zero (mul_ne_zero ?_ ?_) (pow_ne_zero _ (pow_ne_zero _ hrep.ne_zero))
    · exact mt hrep.errorValue_eq_zero.mp (hexact position hmem).2
    · exact ErrorLocator.eval_locator_ne_zero_of_notMem hdistinct hmem (hexact position hmem).1
  obtain ⟨hlength, hlambda⟩ := ErrorLocator.eq_locator_of_minimal hdistinct' hforney hvalues
    (by omega) hgen hminimal
  subst hlength
  have herrors : s.card ≤ (code.parity - erasures.length) / 2 := by omega
  have herrata : poly embed (errataLocator code word erasures lambda s.card) =
      ErrorLocator.locator (s ∪ positionsOf word.length erasures) fun position ↦ α ^ position := by
    rw [(hrep.poly_errataLocator hform hcount hmassey herrors).2, hlambda, hgamma,
      ErrorLocator.locator_union hdisjoint]
  obtain ⟨positions, hchien, hpositions⟩ := hrep.chien_locator hshort hdiffer.lt herrata
  rw [hunion] at hchien
  obtain ⟨word', hdecode, hrepaired⟩ := hrep.decodeWithErasures_of_positions hform hcount hmassey
    herrors hshort hlong hany hclean hchien
  refine ⟨s.card + erasures.length, ?_, Nat.add_sub_cancel ..⟩
  rw [hdecode, hrep.eq_of_differ (hrepaired.differ hpositions hdiffer) hsent hrepaired.codeword
    (by rw [hrepaired.length]; exact hshort) (by omega)]

end Restore

/-! ## Every code -/

/-- The indices outside `erasures` at which the received word differs from the sent one. -/
def errorIndices (sent received : List UInt8) (erasures : List ℕ) : List ℕ :=
  (List.range received.length).filter fun index ↦
    index ∉ erasures ∧ received.getD index 0 ≠ sent.getD index 0

theorem mem_errorIndices {sent received : List UInt8} {erasures : List ℕ} {index : ℕ} :
    index ∈ errorIndices sent received erasures ↔ index < received.length ∧ index ∉ erasures ∧
      received.getD index 0 ≠ sent.getD index 0 := by
  rw [errorIndices, List.mem_filter, List.mem_range, decide_eq_true_iff]

theorem errorIndices_lt (sent received : List UInt8) (erasures : List ℕ) :
    ∀ index ∈ errorIndices sent received erasures, index < received.length :=
  fun _ hmem ↦ (mem_errorIndices.mp hmem).1

theorem card_positionsOf_errorIndices (sent received : List UInt8) (erasures : List ℕ) :
    (positionsOf received.length (errorIndices sent received erasures)).card =
      (errorIndices sent received erasures).length :=
  card_positionsOf (List.nodup_range.filter _) (errorIndices_lt sent received erasures)

/-- The received word differs from the sent one at errors and erasures only. -/
theorem differ_errorIndices {sent received : List UInt8} {erasures : List ℕ}
    (hlength : received.length = sent.length)
    (hindices : ∀ index ∈ erasures, index < received.length) :
    Differ sent received (positionsOf received.length (errorIndices sent received erasures) ∪
      positionsOf received.length erasures) where
  length := hlength
  lt := by
    intro position hmem
    rcases Finset.mem_union.mp hmem with herror | herasure
    · exact positionsOf_lt (errorIndices_lt sent received erasures) herror
    · exact positionsOf_lt hindices herasure
  agree := by
    intro position hlt hnotMem
    rw [Finset.mem_union, not_or] at hnotMem
    by_contra hne
    have hindex : received.length - 1 - (received.length - 1 - position) = position := by omega
    have herasure : received.length - 1 - position ∉ erasures := fun hmem ↦
      hnotMem.2 (mem_positionsOf.mpr ⟨_, hmem, hindex⟩)
    exact hnotMem.1 (mem_positionsOf.mpr
      ⟨_, mem_errorIndices.mpr ⟨by omega, herasure, hne⟩, hindex⟩)

theorem errorIndices_exact (sent : List UInt8) {received : List UInt8} {erasures : List ℕ}
    (hindices : ∀ index ∈ erasures, index < received.length) :
    ∀ position ∈ positionsOf received.length (errorIndices sent received erasures),
      position ∉ positionsOf received.length erasures ∧
      received.getD (received.length - 1 - position) 0 ≠
        sent.getD (received.length - 1 - position) 0 := by
  intro position hmem
  obtain ⟨index, hindex, rfl⟩ := mem_positionsOf.mp hmem
  obtain ⟨hlt, herasure, hne⟩ := mem_errorIndices.mp hindex
  rw [show received.length - 1 - (received.length - 1 - index) = index by omega]
  refine ⟨?_, hne⟩
  intro hmem'
  obtain ⟨other, hother, heq⟩ := mem_positionsOf.mp hmem'
  have hother_lt := hindices other hother
  have : other = index := by omega
  exact herasure (this ▸ hother)

/-- A codeword starts with its data. -/
theorem encode_systematic {primitive : UInt16} (hprimitive : IsPrimitive primitive)
    (firstRoot : UInt8) (parity : Fin 256) (data : List UInt8) :
    ((ReedSolomon.new primitive firstRoot parity).encode data []).length =
        data.length + parity.val ∧
      ((ReedSolomon.new primitive firstRoot parity).encode data []).take data.length = data := by
  have : Fact (Irreducible (BinaryField.bitPoly primitive.toNat)) := ⟨hprimitive.irreducible⟩
  have hrep := new_represents hprimitive firstRoot parity
  obtain ⟨hlength, htake, -⟩ := hrep.encode_spec (new_wellFormed primitive firstRoot parity) data
  exact ⟨hlength, htake⟩

section Undecodable

variable {word : List UInt8}

include hrep hform

/-- A word that only the last of the roots tells from a codeword is too far from all of them. -/
theorem Represents.decode_of_last_root (hparity : 0 < code.parity)
    (hlow : ∀ k, k + 1 < code.parity →
      wordValue embed (α ^ (code.firstRoot.toNat + k)) word = 0)
    (hlast : wordValue embed (α ^ (code.firstRoot.toNat + (code.parity - 1))) word ≠ 0) :
    (code.decode word).1 = none := by
  unfold ReedSolomon.decode
  by_cases hlength : word.length > 255 ∨ word.length < code.parity
  · rw [if_pos hlength]
  have hclean : ¬IsCodeword code embed α word := fun hcodeword ↦
    hlast (hcodeword (code.parity - 1) (by omega))
  rw [if_neg hlength, if_neg (mt (hrep.take_syndromes_all_iff hform word).mp hclean)]
  rcases hmassey : code.berlekampMassey ((code.syndromes word).take code.parity) with
    ⟨locator, errors⟩
  obtain ⟨hgen, -⟩ := hrep.generates_decode hform hmassey
  have hmany : errors = 0 ∨ errors > code.correctable := by
    by_contra! hfew
    have hbound : errors ≤ code.parity - 1 := by
      have : code.correctable = code.parity / 2 := rfl
      omega
    have hzero := hgen.vanishes (code.parity - 1) hbound (by omega)
    rw [PowerSeries.coeff_mul, Finset.sum_eq_single (0, code.parity - 1)] at hzero
    · rw [coeff_coe, coeff_coe, hgen.constant, one_mul, hrep.coeff_syndromes hform,
        if_pos (by omega)] at hzero
      exact hlast hzero
    · rintro ⟨i, j⟩ hmem hne
      rw [Finset.HasAntidiagonal.mem_antidiagonal] at hmem
      simp only at hmem
      have hi : i ≠ 0 := by
        rintro rfl
        rw [zero_add] at hmem
        exact hne (by rw [hmem])
      rw [coeff_coe, coeff_coe, hrep.coeff_syndromes hform, if_pos (by omega), hlow j (by omega),
        mul_zero]
    · intro hnotMem
      exact absurd (Finset.HasAntidiagonal.mem_antidiagonal.mpr (zero_add _)) hnotMem
  simp only
  rw [if_pos hmany]

end Undecodable

/-- Some word of every length is refused. -/
theorem exists_undecodable {primitive : UInt16} (hprimitive : IsPrimitive primitive)
    (firstRoot : UInt8) {parity : ℕ} (hparity : parity + 1 < 256) {len : ℕ}
    (hlong : parity + 1 ≤ len) (hshort : len ≤ 255) :
    ∃ word : List UInt8, word.length = len ∧
      ((ReedSolomon.new primitive firstRoot ⟨parity + 1, hparity⟩).decode word).1 = none := by
  have : Fact (Irreducible (BinaryField.bitPoly primitive.toNat)) := ⟨hprimitive.irreducible⟩
  have hrep := new_represents hprimitive firstRoot ⟨parity + 1, hparity⟩
  have hform := new_wellFormed primitive firstRoot ⟨parity + 1, hparity⟩
  -- The word is a codeword of the code with one root less, of too low a weight for this code.
  obtain ⟨hlength, htake, hroots⟩ := (new_represents hprimitive firstRoot ⟨parity, by omega⟩).encode_spec
    (new_wellFormed primitive firstRoot ⟨parity, by omega⟩) [1]
  have hsmall : (ReedSolomon.new primitive firstRoot ⟨parity, by omega⟩).parity = parity := rfl
  generalize (ReedSolomon.new primitive firstRoot ⟨parity, by omega⟩).encode [1] [] = light
    at hlength htake hroots
  rw [hsmall, List.length_singleton, add_comm] at hlength
  have hvalue : ∀ r, wordValue (byteElement primitive) r (List.replicate (len - (parity + 1)) 0 ++ light) =
      wordValue (byteElement primitive) r light := by
    intro r
    rw [wordValue_append, wordValue_replicate_zero hrep.toEmbeds, zero_mul, zero_add]
  have hlen : (List.replicate (len - (parity + 1)) 0 ++ light).length = len := by
    rw [List.length_append, List.length_replicate, hlength]
    omega
  refine ⟨List.replicate (len - (parity + 1)) 0 ++ light, hlen, ?_⟩
  apply hrep.decode_of_last_root hform (Nat.succ_pos parity)
  · intro k hk
    rw [hvalue]
    exact hroots k (Nat.lt_of_succ_lt_succ hk)
  · intro hzero
    have hcodeword : IsCodeword (ReedSolomon.new primitive firstRoot ⟨parity + 1, hparity⟩)
        (byteElement primitive) (AdjoinRoot.root (BinaryField.bitPoly primitive.toNat))
        (List.replicate (len - (parity + 1)) 0 ++ light) := by
      intro k hk
      rcases Nat.lt_succ_iff_lt_or_eq.mp hk with hlt | rfl
      · rw [hvalue]
        exact hroots k hlt
      · exact hzero
    have hclean : IsCodeword (ReedSolomon.new primitive firstRoot ⟨parity + 1, hparity⟩)
        (byteElement primitive) (AdjoinRoot.root (BinaryField.bitPoly primitive.toNat))
        (List.replicate len 0) := fun k _ ↦ wordValue_replicate_zero hrep.toEmbeds _ _
    have hdiffer : Differ (List.replicate len 0) (List.replicate (len - (parity + 1)) 0 ++ light)
        (Finset.range (parity + 1)) := by
      constructor
      · rw [hlen, List.length_replicate]
      · intro position hmem
        have := Finset.mem_range.mp hmem
        omega
      · intro position hlt hnotMem
        rw [Finset.mem_range] at hnotMem
        rw [hlen] at hlt ⊢
        rw [List.getD_eq_getElem?_getD, List.getD_eq_getElem?_getD,
          List.getElem?_append_left (by rw [List.length_replicate]; omega),
          List.getElem?_replicate_of_lt (by omega), List.getElem?_replicate_of_lt (by omega)]
    have hsame := hrep.eq_of_differ hdiffer hclean hcodeword (by omega)
      (by rw [Finset.card_range]; rfl)
    have hone : light[0]? = some 1 := by
      have hfirst := congrArg (·[0]?) htake
      simpa [List.getElem?_take] using hfirst
    have hget := congrArg (·[len - (parity + 1)]?) hsame
    simp only [List.getElem?_append_right (List.length_replicate.le), List.length_replicate,
      Nat.sub_self, hone] at hget
    rw [List.getElem?_replicate_of_lt (by omega)] at hget
    exact absurd (Option.some.inj hget) (by decide)

/-- Within the distance of the code, decoding with erasures restores the sent codeword and counts the
errors besides them. -/
theorem erasures_within_distance {primitive : UInt16} (hprimitive : IsPrimitive primitive)
    (firstRoot : UInt8) (parity : Fin 256) (data received : List UInt8)
    (hlength : data.length + parity.val ≤ 255)
    (hreceived : received.length = data.length + parity.val) {erasures : List ℕ}
    (hnodup : erasures.Nodup) (hindices : ∀ index ∈ erasures, index < received.length)
    (hbudget : 2 * (errorIndices ((ReedSolomon.new primitive firstRoot parity).encode data []) received
      erasures).length + erasures.length ≤ parity.val) :
    ∃ n, (ReedSolomon.new primitive firstRoot parity).decodeWithErasures received erasures =
        (some n, (ReedSolomon.new primitive firstRoot parity).encode data []) ∧
      n - erasures.length = (errorIndices
        ((ReedSolomon.new primitive firstRoot parity).encode data []) received erasures).length := by
  have : Fact (Irreducible (BinaryField.bitPoly primitive.toNat)) := ⟨hprimitive.irreducible⟩
  have hrep := new_represents hprimitive firstRoot parity
  have hform := new_wellFormed primitive firstRoot parity
  have hparity : (ReedSolomon.new primitive firstRoot parity).parity = parity.val := rfl
  generalize ReedSolomon.new primitive firstRoot parity = code at hrep hform hparity hbudget ⊢
  obtain ⟨hsent, -, hcodeword⟩ := hrep.encode_spec hform data
  rw [hparity, ← hreceived] at hsent
  rw [← card_positionsOf_errorIndices] at hbudget ⊢
  exact hrep.decodeWithErasures_restores hform hnodup hindices
    (differ_errorIndices hsent.symm hindices) (errorIndices_exact _ hindices) hcodeword (by omega)
    (by omega) (by rw [hparity]; exact hbudget)

/-- Within the distance of the code, decoding restores the sent codeword and counts the errors. -/
theorem errors_within_distance {primitive : UInt16} (hprimitive : IsPrimitive primitive)
    (firstRoot : UInt8) (parity : Fin 256) (data received : List UInt8)
    (hlength : data.length + parity.val ≤ 255)
    (hreceived : received.length = data.length + parity.val)
    (hbudget : 2 * (errorIndices ((ReedSolomon.new primitive firstRoot parity).encode data []) received
      []).length ≤ parity.val) :
    (ReedSolomon.new primitive firstRoot parity).decode received =
      (some (errorIndices ((ReedSolomon.new primitive firstRoot parity).encode data [])
        received []).length,
        (ReedSolomon.new primitive firstRoot parity).encode data []) := by
  have : Fact (Irreducible (BinaryField.bitPoly primitive.toNat)) := ⟨hprimitive.irreducible⟩
  have hrep := new_represents hprimitive firstRoot parity
  have hform := new_wellFormed primitive firstRoot parity
  have hparity : (ReedSolomon.new primitive firstRoot parity).parity = parity.val := rfl
  generalize ReedSolomon.new primitive firstRoot parity = code at hrep hform hparity hbudget ⊢
  obtain ⟨hsent, -, hcodeword⟩ := hrep.encode_spec hform data
  rw [hparity, ← hreceived] at hsent
  have hindices : ∀ index ∈ ([] : List ℕ), index < received.length := by simp
  have hdiffer := differ_errorIndices hsent.symm hindices
  have hexact := errorIndices_exact (code.encode data []) hindices
  rw [show positionsOf received.length [] = ∅ from rfl, Finset.union_empty] at hdiffer
  rw [← card_positionsOf_errorIndices] at hbudget ⊢
  exact hrep.decode_restores hform hdiffer (fun position hmem ↦ (hexact position hmem).2)
    hcodeword (by omega) (by omega) (by rw [hparity]; exact hbudget)

/-- Within the distance of the code, decoding restores the sent codeword. -/
theorem decode_within_distance {primitive : UInt16} (hprimitive : IsPrimitive primitive)
    (firstRoot : UInt8) (parity : Fin 256) (data received : List UInt8)
    (hlength : data.length + parity.val ≤ 255)
    (hreceived : received.length = data.length + parity.val) :
    (∀ erasures : List ℕ, erasures.Nodup → (∀ index ∈ erasures, index < received.length) →
      2 * (errorIndices ((ReedSolomon.new primitive firstRoot parity).encode data []) received
        erasures).length + erasures.length ≤ parity.val →
      ∃ n, (ReedSolomon.new primitive firstRoot parity).decodeWithErasures received erasures =
        (some n, (ReedSolomon.new primitive firstRoot parity).encode data [])) ∧
    (2 * (errorIndices ((ReedSolomon.new primitive firstRoot parity).encode data []) received
        []).length ≤ parity.val →
      (ReedSolomon.new primitive firstRoot parity).decode received =
        (some (errorIndices ((ReedSolomon.new primitive firstRoot parity).encode data [])
          received []).length,
          (ReedSolomon.new primitive firstRoot parity).encode data [])) := by
  constructor
  · intro erasures hnodup hindices hbudget
    obtain ⟨n, hdecode, -⟩ := erasures_within_distance hprimitive firstRoot parity data received
      hlength hreceived hnodup hindices hbudget
    exact ⟨n, hdecode⟩
  · intro hbudget
    exact errors_within_distance hprimitive firstRoot parity data received hlength hreceived hbudget

theorem decode_within_distance_dvb :
    (∃ n, (ReedSolomon.new dvbPrimitive 0 16).decodeWithErasures
      (((ReedSolomon.new dvbPrimitive 0 16).encode [7] []).set 0 9) [0] =
        (some n, (ReedSolomon.new dvbPrimitive 0 16).encode [7] [])) ∧
    (ReedSolomon.new dvbPrimitive 0 16).decode
      (((ReedSolomon.new dvbPrimitive 0 16).encode [7] []).set 0 9) =
        (some 1, (ReedSolomon.new dvbPrimitive 0 16).encode [7] []) := by
  have : Fact (Irreducible (BinaryField.bitPoly dvbPrimitive.toNat)) :=
    ⟨dvbPrimitive_isPrimitive.irreducible⟩
  have hrep := new_represents dvbPrimitive_isPrimitive 0 16
  obtain ⟨hlength, hdata, -⟩ := hrep.encode_spec (new_wellFormed dvbPrimitive 0 16) [7]
  have hreceived : (((ReedSolomon.new dvbPrimitive 0 16).encode [7] []).set 0 9).length = 17 :=
    List.length_set.trans hlength
  have hdistance := decode_within_distance dvbPrimitive_isPrimitive 0 16 [7] _ (by decide) hreceived
  have hlist (sent : List UInt8) (hsent : sent.length = 17) (hfirst : sent.take 1 = [7]) :
      errorIndices sent (sent.set 0 9) [0] = [] ∧ errorIndices sent (sent.set 0 9) [] = [0] := by
    cases sent with
    | nil => exact absurd hsent (by decide)
    | cons a rest =>
      obtain rfl : a = 7 := by simpa using hfirst
      rw [List.length_cons] at hsent
      simp only [errorIndices, List.set_cons_zero, List.length_cons, hsent]
      constructor
      · rw [List.filter_eq_nil_iff]
        intro index _
        cases index <;> simp
      · rw [List.range_succ_eq_map, List.filter_cons_of_pos (by simp), List.filter_eq_nil_iff.mpr]
        intro index hindex
        obtain ⟨j, -, rfl⟩ := List.mem_map.mp hindex
        simp
  obtain ⟨herased, herrors⟩ := hlist _ hlength hdata
  rw [herrors] at hdistance
  refine ⟨hdistance.1 [0] (by decide) ?_ ?_, hdistance.2 (by decide)⟩
  · intro index hmem
    rw [hreceived, List.mem_singleton.mp hmem]
    decide
  · rw [herased]
    decide

/-- What a decoder may leave behind: the word as it was when it refuses, a codeword when it
accepts. -/
def LeavesIntact (code : ReedSolomon) (word : List UInt8) : Option ℕ × List UInt8 → Prop
  | (none, word') => word' = word
  | (some _, word') => ∀ k, (code.syndromes word').getD k 0 = 0

theorem Represents.leavesIntact_of_cases (hrep : Represents code embed α) (hform : WellFormed code)
    {word : List UInt8} {outcome : Option ℕ × List UInt8}
    (hcases : outcome = (none, word) ∨
      ∃ n word', outcome = (some n, word') ∧ IsCodeword code embed α word') :
    LeavesIntact code word outcome := by
  rcases hcases with rfl | ⟨n, word', rfl, hcodeword⟩
  · rfl
  · exact (all_zero_iff _).mp ((hrep.syndromes_all_iff hform word').mpr hcodeword)

/-- Whatever it is given, a decoder never leaves a partly corrected word. -/
theorem decode_leavesIntact {primitive : UInt16} (hprimitive : IsPrimitive primitive)
    (firstRoot : UInt8) (parity : Fin 256) (word : List UInt8) (erasures : List ℕ) :
    LeavesIntact (ReedSolomon.new primitive firstRoot parity) word
      ((ReedSolomon.new primitive firstRoot parity).decode word) ∧
    LeavesIntact (ReedSolomon.new primitive firstRoot parity) word
      ((ReedSolomon.new primitive firstRoot parity).decodeWithErasures word erasures) := by
  have : Fact (Irreducible (BinaryField.bitPoly primitive.toNat)) := ⟨hprimitive.irreducible⟩
  have hrep := new_represents hprimitive firstRoot parity
  have hform := new_wellFormed primitive firstRoot parity
  exact ⟨hrep.leavesIntact_of_cases hform (hrep.decode_cases hform word),
    hrep.leavesIntact_of_cases hform (hrep.decodeWithErasures_cases hform word erasures)⟩

theorem decode_leavesIntact_repeated :
    LeavesIntact (ReedSolomon.new dvbPrimitive 0 2) [1, 2, 3]
      ((ReedSolomon.new dvbPrimitive 0 2).decode [1, 2, 3]) ∧
    LeavesIntact (ReedSolomon.new dvbPrimitive 0 2) [1, 2, 3]
      ((ReedSolomon.new dvbPrimitive 0 2).decodeWithErasures [1, 2, 3] [1, 1]) :=
  decode_leavesIntact dvbPrimitive_isPrimitive 0 2 [1, 2, 3] [1, 1]

end Sdrmm.Rs256
