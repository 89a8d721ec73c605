import Sdrmm.Dsp.Rs256
import Sdrmm.Lib.BinaryField
import Sdrmm.Lib.ErrorLocator

/-!
# The field behind the Reed-Solomon tables

For a primitive polynomial the tables of `ReedSolomon::new` are exponents and logarithms in the
field it defines, so `mul`, `inv` and `power` are that field's operations (`new_represents`).  The
second half reads the polynomial routines of the codec as statements about polynomials over the
field: evaluation, the generator, encoding and syndromes.
-/

namespace Sdrmm.Rs256

open BinaryField SymbolArray Polynomial

/-- A primitive polynomial of degree eight over the field with two elements, as a bit mask. -/
def IsPrimitive (primitive : UInt16) : Prop := Primitive 8 primitive.toNat

/-- Primitivity by the powers that 255 and its proper quotients by a prime name. -/
theorem isPrimitive_of_powers {primitive : UInt16} (hdegree : HasDegree 8 primitive.toNat)
    (hcycle : rootPower 8 primitive.toNat 255 = 1)
    (hshort : ∀ n ∈ [15, 51, 85], rootPower 8 primitive.toNat n ≠ 1) : IsPrimitive primitive := by
  apply primitive_of_rootPower hdegree (by decide) hcycle
  intro q hq hdvd
  have hfactors : Nat.primeFactors (2 ^ 8 - 1) = {3, 5, 17} := by decide +kernel
  have hmem : q ∈ Nat.primeFactors (2 ^ 8 - 1) := Nat.mem_primeFactors.mpr ⟨hq, hdvd, by decide⟩
  rw [hfactors] at hmem
  fin_cases hmem
  · exact hshort 85 (by decide)
  · exact hshort 51 (by decide)
  · exact hshort 15 (by decide)

set_option maxRecDepth 100000 in
theorem dvbPrimitive_isPrimitive : IsPrimitive dvbPrimitive :=
  isPrimitive_of_powers ⟨by decide, by decide⟩ (by decide) (by decide)

/-! ## The tables -/

section Tables

variable {primitive : UInt16} (hprimitive : IsPrimitive primitive)

theorem toNat_and_256_ne_zero (value : UInt16) :
    value &&& 256 ≠ 0 ↔ value.toNat.testBit 8 = true := by
  have hmask : (value &&& 256).toNat = (value.toNat.testBit 8).toNat * 2 ^ 8 := by
    rw [UInt16.toNat_and]
    exact Nat.and_two_pow value.toNat 8
  rw [ne_eq, ← UInt16.toNat_inj, hmask]
  cases value.toNat.testBit 8 <;> simp

theorem Tables.toNat_step_value (tables : Tables) (index : ℕ) (hvalue : tables.value.toNat < 256) :
    (Tables.step primitive tables index).value.toNat =
      doubled 8 primitive.toNat tables.value.toNat := by
  have hshift : (tables.value <<< 1).toNat = 2 * tables.value.toNat := by
    rw [UInt16.toNat_shiftLeft]
    change tables.value.toNat <<< 1 % 2 ^ 16 = 2 * tables.value.toNat
    rw [Nat.shiftLeft_eq, pow_one, Nat.mod_eq_of_lt (by omega), Nat.mul_comm]
  unfold Tables.step doubled
  simp only [toNat_and_256_ne_zero, hshift]
  split_ifs
  · rw [UInt16.toNat_xor, hshift]
  · exact hshift

/-- The tables after `n` steps of the loop that fills them. -/
structure Tables.Filled (primitive : UInt16) (n : ℕ) (tables : Tables) : Prop where
  value : tables.value.toNat = rootPower 8 primitive.toNat n
  expLength : tables.exp.length = 2 * order
  logLength : tables.log.length = size
  expLow : ∀ i < n, (tables.exp.getD i 0).toNat = rootPower 8 primitive.toNat i
  expHigh : ∀ i < n, (tables.exp.getD (i + order) 0).toNat = rootPower 8 primitive.toNat i
  log : ∀ i < n, (tables.log.getD (rootPower 8 primitive.toNat i) 0).toNat = i

theorem Tables.initial_filled : Tables.Filled primitive 0 Tables.initial where
  value := rfl
  expLength := List.length_replicate
  logLength := List.length_replicate
  expLow := fun i hi ↦ absurd hi (Nat.not_lt_zero i)
  expHigh := fun i hi ↦ absurd hi (Nat.not_lt_zero i)
  log := fun i hi ↦ absurd hi (Nat.not_lt_zero i)

theorem getD_set (out : List UInt8) (i k : ℕ) (v : UInt8) (hi : i < out.length) :
    (out.set i v).getD k 0 = if i = k then v else out.getD k 0 := by
  rw [List.getD_eq_getElem?_getD, List.getD_eq_getElem?_getD, List.getElem?_set]
  split_ifs with hik
  · rfl
  · rfl

include hprimitive

theorem rootPower_lt_size (i : ℕ) : rootPower 8 primitive.toNat i < 256 :=
  rootPower_lt hprimitive.toHasDegree (by decide) i

theorem Tables.Filled.step {n : ℕ} {tables : Tables} (hfilled : Tables.Filled primitive n tables)
    (hn : n < order) : Tables.Filled primitive (n + 1) (Tables.step primitive tables n) := by
  have hlt := rootPower_lt_size hprimitive n
  have hvalue : tables.value.toNat < 256 := by rw [hfilled.value]; exact hlt
  have hbyte : tables.value.toUInt8.toNat = rootPower 8 primitive.toNat n := by
    rw [UInt16.toNat_toUInt8, hfilled.value, Nat.mod_eq_of_lt hlt]
  have horder : order = 255 := rfl
  have hsize : size = 256 := rfl
  have hexp := hfilled.expLength
  have hlog := hfilled.logLength
  have hget (k : ℕ) : ((Tables.step primitive tables n).exp.getD k 0) =
      if n + order = k then tables.value.toUInt8
      else if n = k then tables.value.toUInt8 else tables.exp.getD k 0 := by
    unfold Tables.step
    rw [getD_set _ _ _ _ (by rw [List.length_set]; omega), getD_set _ _ _ _ (by omega)]
  refine ⟨?_, ?_, ?_, ?_, ?_, ?_⟩
  · rw [Tables.toNat_step_value _ _ hvalue, hfilled.value, rootPower_succ]
  · exact (List.length_set.trans List.length_set).trans hexp
  · exact List.length_set.trans hlog
  · intro i hi
    rw [hget, if_neg (by omega)]
    rcases Nat.lt_succ_iff_lt_or_eq.mp hi with hlow | rfl
    · rw [if_neg (by omega), hfilled.expLow i hlow]
    · rw [if_pos rfl, hbyte]
  · intro i hi
    rw [hget]
    rcases Nat.lt_succ_iff_lt_or_eq.mp hi with hlow | rfl
    · rw [if_neg (by omega), if_neg (by omega), hfilled.expHigh i hlow]
    · rw [if_pos rfl, hbyte]
  · intro i hi
    have hset : (Tables.step primitive tables n).log.getD (rootPower 8 primitive.toNat i) 0 =
        if tables.value.toNat = rootPower 8 primitive.toNat i then UInt8.ofNat n
        else tables.log.getD (rootPower 8 primitive.toNat i) 0 :=
      getD_set _ _ _ _ (by omega)
    rw [hset, hfilled.value]
    rcases Nat.lt_succ_iff_lt_or_eq.mp hi with hlow | rfl
    · have hne : rootPower 8 primitive.toNat n ≠ rootPower 8 primitive.toNat i := by
        intro heq
        have hinj := rootPower_injOn hprimitive.toHasDegree (by decide) hprimitive.order
        have hrange {j : ℕ} (hj : j < order) : j ∈ (Finset.range (2 ^ 8 - 1) : Set ℕ) :=
          Finset.mem_coe.mpr (Finset.mem_range.mpr hj)
        have := hinj (hrange hn) (hrange (hlow.trans hn)) heq
        omega
      rw [if_neg hne, hfilled.log i hlow]
    · rw [if_pos rfl, UInt8.toNat_ofNat']
      omega

theorem Tables.fill_filled : Tables.Filled primitive order (Tables.fill primitive) := by
  have hloop (n : ℕ) (hn : n ≤ order) :
      Tables.Filled primitive n ((List.range n).foldl (Tables.step primitive) Tables.initial) := by
    induction n with
    | zero => exact Tables.initial_filled
    | succ n ih =>
      rw [List.range_succ, List.foldl_append]
      exact (ih (by omega)).step hprimitive (by omega)
  exact hloop order le_rfl

end Tables

/-! ## Field operations -/

/-- The operations of `code` on symbols are those of a field, with `α` the element whose powers
the exponent table lists. -/
structure Represents (code : ReedSolomon) {K : Type*} [Field K] (embed : UInt8 → K) (α : K) : Prop
    extends Embeds embed where
  one : embed 1 = 1
  mul : ∀ a b, embed (code.mul a b) = embed a * embed b
  inv : ∀ a, a ≠ 0 → embed (code.inv a) = (embed a)⁻¹
  power : ∀ exponent, embed (code.power exponent) = α ^ exponent
  injective : Function.Injective embed
  order : orderOf α = 255

section Represents

variable {primitive : UInt16} [Fact (Irreducible (bitPoly primitive.toNat))]
  (hprimitive : IsPrimitive primitive) {code : ReedSolomon}
  (hexp : code.exp = (Tables.fill primitive).exp) (hlog : code.log = (Tables.fill primitive).log)

/-- The field element a byte stands for. -/
noncomputable def byteElement (primitive : UInt16) (a : UInt8) :
    AdjoinRoot (bitPoly primitive.toNat) :=
  element primitive.toNat a.toNat

include hprimitive

theorem root_pow_255 : AdjoinRoot.root (bitPoly primitive.toNat) ^ 255 = 1 := by
  have hpow := root_pow_order hprimitive.order
  norm_num at hpow
  exact hpow

include hexp in
theorem byteElement_exp {i : ℕ} (hi : i < 2 * order) :
    byteElement primitive (code.exp.getD i 0) = AdjoinRoot.root (bitPoly primitive.toNat) ^ i := by
  have hfilled := Tables.fill_filled hprimitive
  have horder : order = 255 := rfl
  rw [hexp]
  rcases Nat.lt_or_ge i order with hlow | hhigh
  · rw [byteElement, hfilled.expLow i hlow, element_rootPower]
  · obtain ⟨j, rfl⟩ : ∃ j, i = j + order := ⟨i - order, by omega⟩
    rw [byteElement, hfilled.expHigh j (by omega), element_rootPower, pow_add, horder,
      root_pow_255 hprimitive, mul_one]

include hlog in
/-- Every nonzero byte is the power its logarithm names. -/
theorem byteElement_log {a : UInt8} (ha : a ≠ 0) :
    (code.log.getD a.toNat 0).toNat < 255 ∧
      byteElement primitive a =
        AdjoinRoot.root (bitPoly primitive.toNat) ^ (code.log.getD a.toNat 0).toNat := by
  have hne : a.toNat ≠ 0 := by
    intro hzero
    exact ha (UInt8.toNat_inj.mp hzero)
  obtain ⟨i, hi, hword⟩ := exists_rootPower hprimitive.toHasDegree (by decide) hprimitive.order
    (UInt8.toNat_lt a) hne
  have hentry : (code.log.getD a.toNat 0).toNat = i := by
    rw [hlog, ← hword]
    exact (Tables.fill_filled hprimitive).log i hi
  rw [hentry]
  refine ⟨hi, ?_⟩
  rw [byteElement, ← hword, element_rootPower]

include hexp hlog

theorem represents :
    Represents code (byteElement primitive) (AdjoinRoot.root (bitPoly primitive.toNat)) where
  zero := element_zero
  one := element_one
  xor := fun a b ↦ by rw [byteElement, UInt8.toNat_xor, element_xor]; rfl
  mul := by
    intro a b
    have horder : order = 255 := rfl
    unfold ReedSolomon.mul
    split_ifs with hzero
    · rcases hzero with rfl | rfl
      · simp [byteElement, element_zero]
      · simp [byteElement, element_zero]
    · rw [not_or] at hzero
      obtain ⟨ha, hea⟩ := byteElement_log hprimitive hlog hzero.1
      obtain ⟨hb, heb⟩ := byteElement_log hprimitive hlog hzero.2
      rw [byteElement_exp hprimitive hexp (by omega), pow_add, ← hea, ← heb]
  inv := by
    intro a ha
    obtain ⟨hlt, hea⟩ := byteElement_log hprimitive hlog ha
    have horder : order = 255 := rfl
    unfold ReedSolomon.inv
    rw [byteElement_exp hprimitive hexp (by omega)]
    refine eq_inv_of_mul_eq_one_left ?_
    rw [hea, ← pow_add, horder, Nat.sub_add_cancel hlt.le, root_pow_255 hprimitive]
  power := by
    intro exponent
    have hlt : exponent % order < order := Nat.mod_lt _ (by decide)
    unfold ReedSolomon.power
    rw [byteElement_exp hprimitive hexp (by omega)]
    have hsplit := Nat.div_add_mod exponent order
    conv_rhs => rw [← hsplit, pow_add, pow_mul]
    rw [show order = 255 from rfl, root_pow_255 hprimitive, one_pow, one_mul]
  injective := by
    intro a b hab
    have hwords := element_injOn hprimitive.toHasDegree (UInt8.toNat_lt a) (UInt8.toNat_lt b) hab
    exact UInt8.toNat_inj.mp hwords
  order := by
    have horder := hprimitive.order
    norm_num at horder
    exact horder

end Represents

theorem new_represents {primitive : UInt16} [Fact (Irreducible (bitPoly primitive.toNat))]
    (hprimitive : IsPrimitive primitive) (firstRoot : UInt8) (parity : Fin 256) :
    Represents (ReedSolomon.new primitive firstRoot parity) (byteElement primitive)
      (AdjoinRoot.root (bitPoly primitive.toNat)) :=
  represents hprimitive (by simp only [ReedSolomon.new]) (by simp only [ReedSolomon.new])

/-- The fields of a code that are computed from its tables. -/
structure WellFormed (code : ReedSolomon) : Prop where
  parity_lt : code.parity < 256
  generator : code.generator = code.buildGenerator
  rootMultiples : code.rootMultiples = (List.range code.parity).map fun index ↦
    (List.range 256).map fun value ↦ code.mul (UInt8.ofNat value) (code.root index)

theorem new_wellFormed (primitive : UInt16) (firstRoot : UInt8) (parity : Fin 256) :
    WellFormed (ReedSolomon.new primitive firstRoot parity) where
  parity_lt := parity.isLt
  generator := by
    unfold ReedSolomon.new
    generalize Tables.fill primitive = tables
    rfl
  rootMultiples := by
    unfold ReedSolomon.new
    generalize Tables.fill primitive = tables
    rfl

/-! ## Polynomial routines -/

section Routines

variable {code : ReedSolomon} {K : Type*} [Field K] {embed : UInt8 → K} {α : K}
  (hrep : Represents code embed α) (hform : WellFormed code)

section Field

include hrep

theorem Represents.charTwo : CharP K 2 := by
  refine CharTwo.of_one_ne_zero_of_two_eq_zero one_ne_zero ?_
  calc (2 : K) = embed 1 + embed 1 := by rw [hrep.one]; norm_num
    _ = embed (1 ^^^ 1) := (hrep.xor 1 1).symm
    _ = 0 := hrep.zero

theorem Represents.embed_eq_zero {a : UInt8} : embed a = 0 ↔ a = 0 := by
  constructor
  · intro hzero
    exact hrep.injective (hzero.trans hrep.zero.symm)
  · rintro rfl
    exact hrep.zero

theorem Represents.pow_order : α ^ 255 = 1 := by
  rw [← hrep.order]
  exact pow_orderOf_eq_one α

theorem Represents.ne_zero : α ≠ 0 := by
  rintro rfl
  have hpow := hrep.pow_order
  rw [zero_pow (by decide)] at hpow
  exact zero_ne_one hpow

/-- Positions of a word of at most 255 symbols have distinct locator values. -/
theorem Represents.distinct {s : Finset ℕ} (hs : ∀ position ∈ s, position < 255) :
    ErrorLocator.Distinct s fun position ↦ α ^ position where
  injOn := by
    intro i hi j hj heq
    refine pow_injOn_Iio_orderOf ?_ ?_ heq
    · rw [Set.mem_Iio, hrep.order]
      exact hs i hi
    · rw [Set.mem_Iio, hrep.order]
      exact hs j hj
  nonzero := fun j _ ↦ pow_ne_zero j hrep.ne_zero

theorem Represents.embed_evaluate (ascending : List UInt8) (at₀ : UInt8) :
    embed (code.evaluate ascending at₀) = (poly embed ascending).eval (embed at₀) := by
  have hloop (l : List UInt8) (sum term : UInt8) :
      embed (l.foldl (code.evaluateStep at₀) (sum, term)).1 =
        embed sum + embed term * (poly embed l).eval (embed at₀) := by
    induction l generalizing sum term with
    | nil => rw [poly_nil hrep.toEmbeds, eval_zero, mul_zero, add_zero, List.foldl_nil]
    | cons a l ih =>
      rw [List.foldl_cons, ReedSolomon.evaluateStep, ih, hrep.xor, hrep.mul, hrep.mul,
        poly_cons hrep.toEmbeds, eval_add, eval_C, eval_mul, eval_X]
      ring
  unfold ReedSolomon.evaluate
  rw [hloop, hrep.zero, hrep.one, zero_add, one_mul]

theorem Represents.embed_inversePoint (position : ℕ) :
    embed (code.inversePoint position) = (α ^ position)⁻¹ := by
  have hlt : position % 255 < 255 := Nat.mod_lt _ (by decide)
  have hmod : α ^ position = α ^ (position % 255) := by
    rw [← hrep.order, pow_mod_orderOf]
  unfold ReedSolomon.inversePoint
  rw [hrep.power]
  refine eq_inv_of_mul_eq_one_left ?_
  rw [hmod, ← pow_add, show Rs256.order = 255 from rfl, Nat.sub_add_cancel hlt.le, hrep.pow_order]

/-! ### The generator -/

theorem Represents.poly_timesRoot (root : UInt8) (ascending : List UInt8) :
    (code.timesRoot root ascending).length = ascending.length + 1 ∧
      poly embed (code.timesRoot root ascending) =
        (X + C (embed root)) * poly embed ascending := by
  have hstep : ∀ item ∈ ascending.zipIdx, ∀ out : List UInt8, out.length = ascending.length + 1 →
      (xorAt (xorAt out item.2 (code.mul item.1 root)) (item.2 + 1) item.1).length =
        ascending.length + 1 ∧
      poly embed (xorAt (xorAt out item.2 (code.mul item.1 root)) (item.2 + 1) item.1) =
        poly embed out + (X + C (embed root)) * (C (embed item.1) * X ^ item.2) := by
    intro item hmem out hout
    have hindex := (List.mem_zipIdx hmem).2.1
    refine ⟨by rw [length_xorAt, length_xorAt, hout], ?_⟩
    rw [poly_xorAt hrep.toEmbeds _ (by rw [length_xorAt]; omega),
      poly_xorAt hrep.toEmbeds _ (by omega), hrep.mul, C_mul, pow_succ]
    ring
  have hloop := poly_foldl ascending.zipIdx hstep (List.length_replicate (a := 0))
  refine ⟨hloop.1, hloop.2.trans ?_⟩
  rw [poly_replicate_zero hrep.toEmbeds, zero_add,
    sum_map_zipIdx ascending 0 fun x i ↦ (X + C (embed root)) * (C (embed x) * X ^ i), poly,
    Finset.mul_sum]
  simp only [zero_add]

/-- The generator polynomial, lowest coefficient first. -/
theorem Represents.poly_generator :
    code.buildGenerator.length = code.parity + 1 ∧
      poly embed code.buildGenerator.reverse =
        ∏ index ∈ Finset.range code.parity, (X + C (α ^ (code.firstRoot.toNat + index))) := by
  have hloop (n : ℕ) :
      ((List.range n).foldl
        (fun ascending index ↦ code.timesRoot (code.root index) ascending) [1]).length = n + 1 ∧
      poly embed ((List.range n).foldl
        (fun ascending index ↦ code.timesRoot (code.root index) ascending) [1]) =
        ∏ index ∈ Finset.range n, (X + C (α ^ (code.firstRoot.toNat + index))) := by
    induction n with
    | zero =>
      refine ⟨rfl, ?_⟩
      rw [List.range_zero, List.foldl_nil, poly_cons hrep.toEmbeds, poly_nil hrep.toEmbeds,
        hrep.one, mul_zero, add_zero, C_1, Finset.range_zero, Finset.prod_empty]
    | succ n ih =>
      rw [List.range_succ, List.foldl_append, List.foldl_cons, List.foldl_nil]
      obtain ⟨hlength, hpoly⟩ := hrep.poly_timesRoot (code.root n) ((List.range n).foldl
        (fun ascending index ↦ code.timesRoot (code.root index) ascending) [1])
      refine ⟨by rw [hlength, ih.1], ?_⟩
      rw [hpoly, ih.2, Finset.prod_range_succ, mul_comm, ReedSolomon.root, hrep.power]
  unfold ReedSolomon.buildGenerator
  rw [List.length_reverse, List.reverse_reverse]
  exact hloop code.parity

theorem Represents.wordValue_generator {index : ℕ} (hindex : index < code.parity) :
    wordValue embed (α ^ (code.firstRoot.toNat + index)) code.buildGenerator = 0 := by
  have := hrep.charTwo
  rw [← List.reverse_reverse code.buildGenerator, wordValue_reverse hrep.toEmbeds,
    hrep.poly_generator.2, eval_prod]
  refine Finset.prod_eq_zero (Finset.mem_range.mpr hindex) ?_
  rw [eval_add, eval_X, eval_C, CharTwo.add_self_eq_zero]

theorem Represents.generator_head :
    ∃ rest, code.buildGenerator = 1 :: rest ∧ rest.length = code.parity := by
  obtain ⟨hlength, hpoly⟩ := hrep.poly_generator
  obtain ⟨head, rest, hcons⟩ : ∃ head rest, code.buildGenerator = head :: rest := by
    cases hgen : code.buildGenerator with
    | nil => rw [hgen] at hlength; exact absurd hlength (Nat.succ_ne_zero _).symm
    | cons head rest => exact ⟨head, rest, rfl⟩
  have hrest : rest.length = code.parity := by
    rw [hcons, List.length_cons] at hlength
    omega
  have hmonic : (∏ index ∈ Finset.range code.parity,
      (X + C (α ^ (code.firstRoot.toNat + index)))).coeff code.parity = 1 := by
    have hprod := monic_prod_of_monic (Finset.range code.parity)
      (fun index ↦ (X + C (α ^ (code.firstRoot.toNat + index)) : K[X])) fun _ _ ↦ monic_X_add_C _
    have hdegree : (∏ index ∈ Finset.range code.parity,
        (X + C (α ^ (code.firstRoot.toNat + index)) : K[X])).natDegree = code.parity := by
      rw [natDegree_prod_of_monic _ _ fun _ _ ↦ monic_X_add_C _]
      simp only [natDegree_X_add_C, Finset.sum_const, Finset.card_range, smul_eq_mul, mul_one]
    have hcoeff := hprod.coeff_natDegree
    rwa [hdegree] at hcoeff
  have hhead : embed head = 1 := by
    rw [← hmonic, ← hpoly, coeff_poly hrep.toEmbeds, hcons, List.reverse_cons,
      List.getD_eq_getElem?_getD, List.getElem?_append_right (by rw [List.length_reverse, hrest])]
    rw [List.length_reverse, hrest, Nat.sub_self]
    rfl
  refine ⟨rest, ?_, hrest⟩
  rw [hcons, hrep.injective (hhead.trans hrep.one.symm)]

end Field

/-! ### Encoding -/

include hrep in
theorem Represents.wordValue_addFactors (r : K) (coefficient : UInt8) (factors : List UInt8)
    (first start : ℕ) {out : List UInt8} (hfits : start + first + factors.length ≤ out.length) :
    wordValue embed r ((factors.zipIdx first).foldl
      (fun out item ↦ xorAt out (start + item.2) (code.mul item.1 coefficient)) out) =
      wordValue embed r out + embed coefficient * wordValue embed r factors *
        r ^ (out.length - (start + first + factors.length)) :=
  SymbolArray.wordValue_addFactors hrep.toEmbeds r (code.mul · coefficient) (embed coefficient)
    (fun x ↦ by rw [hrep.mul, mul_comm]) factors first start hfits

include hrep hform

/-- A division step either finds nothing to divide or adds a multiple of the generator without
its leading one. -/
theorem Represents.encodeStep_eq (out : List UInt8) (index : ℕ) :
    ∃ rest, code.buildGenerator = 1 :: rest ∧ rest.length = code.parity ∧
      code.encodeStep 0 out index = if out.getD index 0 = 0 then out
        else (rest.zipIdx 1).foldl (fun out' item ↦
          xorAt out' (index + item.2) (code.mul item.1 (out.getD index 0))) out := by
  obtain ⟨rest, hgenerator, hrest⟩ := hrep.generator_head
  refine ⟨rest, hgenerator, hrest, ?_⟩
  unfold ReedSolomon.encodeStep
  rw [hform.generator, hgenerator]
  simp only [zero_add, List.zipIdx_cons, List.drop_succ_cons, List.drop_zero]

theorem Represents.encodeStep_frame (out : List UInt8) (index : ℕ) :
    (code.encodeStep 0 out index).length = out.length ∧
      (code.encodeStep 0 out index).take (index + 1) = out.take (index + 1) := by
  obtain ⟨rest, -, -, hstep⟩ := hrep.encodeStep_eq hform out index
  rw [hstep]
  split_ifs
  · exact ⟨rfl, rfl⟩
  · exact addFactors_frame (fun factor ↦ code.mul factor (out.getD index 0)) rest 1 index out

/-- At a root of the generator, a division step adds the coefficient it leaves in place. -/
theorem Represents.wordValue_encodeStep {root index : ℕ} (hroot : root < code.parity)
    {out : List UInt8} (hfits : index + 1 + code.parity ≤ out.length) :
    wordValue embed (α ^ (code.firstRoot.toNat + root)) (code.encodeStep 0 out index) =
      wordValue embed (α ^ (code.firstRoot.toNat + root)) out + embed (out.getD index 0) *
        (α ^ (code.firstRoot.toNat + root)) ^ (out.length - (index + 1)) := by
  have := hrep.charTwo
  obtain ⟨rest, hgenerator, hrest, hstep⟩ := hrep.encodeStep_eq hform out index
  have hzero := hrep.wordValue_generator hroot
  generalize α ^ (code.firstRoot.toNat + root) = r at hzero ⊢
  have hvalue : wordValue embed r rest = r ^ code.parity := by
    rw [hgenerator, wordValue, hrep.one, one_mul, hrest] at hzero
    exact (CharTwo.add_eq_zero.mp hzero).symm
  rw [hstep]
  split_ifs with hcoefficient
  · rw [hcoefficient, hrep.zero, zero_mul, add_zero]
  · rw [hrep.wordValue_addFactors r (out.getD index 0) rest 1 index (by omega), hvalue, mul_assoc,
      ← pow_add, hrest]
    congr 3
    omega

/-- The word after `n` division steps: what has been added to it is left behind in its first
symbols. -/
theorem Represents.wordValue_divided (initial : List UInt8) {n length : ℕ} (hn : n ≤ length)
    (hinitial : initial.length = length + code.parity) :
    ((List.range n).foldl (code.encodeStep 0) initial).length = length + code.parity ∧
    ∀ root < code.parity,
      wordValue embed (α ^ (code.firstRoot.toNat + root))
        ((List.range n).foldl (code.encodeStep 0) initial) =
      wordValue embed (α ^ (code.firstRoot.toNat + root)) initial +
        wordValue embed (α ^ (code.firstRoot.toNat + root))
          (((List.range n).foldl (code.encodeStep 0) initial).take n) *
          (α ^ (code.firstRoot.toNat + root)) ^ (length + code.parity - n) := by
  induction n with
  | zero =>
    refine ⟨hinitial, ?_⟩
    intro root _
    rw [List.range_zero, List.foldl_nil, List.take_zero, wordValue, zero_mul, add_zero]
  | succ n ih =>
    obtain ⟨hlength, hvalue⟩ := ih (by omega)
    rw [List.range_succ, List.foldl_append, List.foldl_cons, List.foldl_nil]
    generalize (List.range n).foldl (code.encodeStep 0) initial = out at hlength hvalue ⊢
    obtain ⟨hlength', htake⟩ := hrep.encodeStep_frame hform out n
    refine ⟨hlength'.trans hlength, ?_⟩
    intro root hroot
    have hsplit : out.take (n + 1) = out.take n ++ [out.getD n 0] := by
      rw [List.take_add_one, List.getD_eq_getElem?_getD, List.getElem?_eq_getElem (by omega)]
      rfl
    rw [hrep.wordValue_encodeStep hform hroot (by omega), hvalue root hroot, htake, hsplit,
      wordValue_append, hlength]
    simp only [wordValue, List.length_cons, List.length_nil, zero_add, pow_zero, pow_one, mul_one,
      add_zero]
    rw [show length + code.parity - n = length + code.parity - (n + 1) + 1 by omega, pow_succ']
    ring

/-- An encoded word holds its data and vanishes at every root of the generator. -/
theorem Represents.encode_spec (data : List UInt8) :
    (code.encode data []).length = data.length + code.parity ∧
      (code.encode data []).take data.length = data ∧
      ∀ root < code.parity,
        wordValue embed (α ^ (code.firstRoot.toNat + root)) (code.encode data []) = 0 := by
  have := hrep.charTwo
  have hinitial : (data ++ List.replicate code.parity (0 : UInt8)).length =
      data.length + code.parity := by
    rw [List.length_append, List.length_replicate]
  obtain ⟨hlength, hvalue⟩ := hrep.wordValue_divided hform _ le_rfl hinitial
  have hencode : code.encode data [] = data ++
      ((List.range data.length).foldl (code.encodeStep 0)
        (data ++ List.replicate code.parity 0)).drop data.length := by
    unfold ReedSolomon.encode
    simp only [List.length_nil, List.take_zero, List.nil_append, zero_add]
  rw [hencode]
  generalize (List.range data.length).foldl (code.encodeStep 0)
    (data ++ List.replicate code.parity 0) = divided at hlength hvalue ⊢
  have hdrop : (divided.drop data.length).length = code.parity := by
    rw [List.length_drop, hlength, Nat.add_sub_cancel_left]
  refine ⟨by rw [List.length_append, hdrop], List.take_left' rfl, ?_⟩
  intro root hroot
  have hroot := hvalue root hroot
  generalize α ^ (code.firstRoot.toNat + root) = r at hroot ⊢
  have hparts : wordValue embed r divided =
      wordValue embed r (divided.take data.length) * r ^ code.parity +
        wordValue embed r (divided.drop data.length) := by
    rw [← hdrop, ← wordValue_append, List.take_append_drop]
  rw [hparts, wordValue_append, List.length_replicate, wordValue_replicate_zero hrep.toEmbeds,
    add_zero, Nat.add_sub_cancel_left, add_comm] at hroot
  rw [wordValue_append, hdrop, add_right_cancel hroot, CharTwo.add_self_eq_zero]

/-! ### Syndromes -/

theorem Represents.embed_syndromes (codeword : List UInt8) (k : ℕ) :
    embed ((code.syndromes codeword).getD k 0) = if k < code.parity then
      wordValue embed (α ^ (code.firstRoot.toNat + k)) codeword else 0 := by
  unfold ReedSolomon.syndromes
  rw [hform.rootMultiples, List.getD_eq_getElem?_getD]
  simp only [List.map_map, List.length_map, List.length_range]
  split_ifs with hk
  · rw [List.getElem?_append_left (by simpa using hk), List.getElem?_map,
      List.getElem?_range hk]
    simp only [Option.map_some, Option.getD_some, Function.comp_apply, ReedSolomon.syndrome]
    have htable (a : UInt8) : ((List.range 256).map fun value ↦
        code.mul (UInt8.ofNat value) (code.root k)).getD a.toNat 0 = code.mul a (code.root k) := by
      rw [List.getD_eq_getElem?_getD, List.getElem?_map, List.getElem?_range (UInt8.toNat_lt a)]
      simp only [Option.map_some, Option.getD_some, UInt8.ofNat_toNat]
    have hhorner := embed_foldl_horner hrep.toEmbeds (α ^ (code.firstRoot.toNat + k))
      (fun a ↦ ((List.range 256).map fun value ↦
        code.mul (UInt8.ofNat value) (code.root k)).getD a.toNat 0)
      (fun a ↦ by rw [htable, hrep.mul, ReedSolomon.root, hrep.power]) codeword 0
    rw [hhorner, hrep.zero, zero_mul, zero_add]
  · rw [List.getElem?_append_right (by simpa using hk), List.getElem?_replicate]
    split_ifs
    · exact hrep.zero
    · exact hrep.zero

omit [Field K] hrep in
theorem WellFormed.length_syndromes (codeword : List UInt8) :
    (code.syndromes codeword).length = 256 := by
  have hlt := hform.parity_lt
  unfold ReedSolomon.syndromes
  rw [hform.rootMultiples]
  simp only [List.length_append, List.length_map, List.length_range, List.length_replicate]
  omega

end Routines

end Sdrmm.Rs256
