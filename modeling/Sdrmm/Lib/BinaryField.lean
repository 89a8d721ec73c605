import Mathlib.Data.Nat.Bitwise
import Mathlib.RingTheory.AdjoinRoot
import Mathlib.Tactic

/-!
# Finite fields of characteristic two on machine words

A word stands for the polynomial over `ZMod 2` whose coefficients are its bits, and a primitive
polynomial of degree `m` turns the words below `2 ^ m` into the field with `2 ^ m` elements.
Exclusive or is addition, doubling with a conditional exclusive or is multiplication by the root,
and every nonzero word is reached by doubling from one.  These are the facts that exponent and
logarithm tables rest on.

`primitive_of_order` reduces primitivity to finitely many evaluations of the doubling step.
-/

namespace Sdrmm.BinaryField

open Polynomial

noncomputable def bitPoly (word : ℕ) : (ZMod 2)[X] :=
  ∑ i ∈ Finset.range word, if word.testBit i then X ^ i else 0

theorem coeff_bitPoly (word i : ℕ) : (bitPoly word).coeff i = if word.testBit i then 1 else 0 := by
  have hterm (j : ℕ) : (if word.testBit j then (X : (ZMod 2)[X]) ^ j else 0).coeff i =
      if i = j then (if word.testBit j then 1 else 0) else 0 := by
    split_ifs with hbit hij hij
    · rw [hij, coeff_X_pow_self]
    · rw [coeff_X_pow, if_neg hij]
    · exact coeff_zero i
    · exact coeff_zero i
  rw [bitPoly, finsetSum_coeff, Finset.sum_congr rfl fun j _ ↦ hterm j, Finset.sum_ite_eq]
  split_ifs with hmem hbit hbit
  · rfl
  · rfl
  · have hle : word ≤ i := by simpa using hmem
    rw [Nat.testBit_lt_two_pow (hle.trans_lt Nat.lt_two_pow_self)] at hbit
    exact absurd hbit Bool.false_ne_true
  · rfl

theorem bitPoly_xor (a b : ℕ) : bitPoly (a ^^^ b) = bitPoly a + bitPoly b := by
  ext i
  rw [coeff_add, coeff_bitPoly, coeff_bitPoly, coeff_bitPoly, Nat.testBit_xor]
  cases a.testBit i <;> cases b.testBit i <;> decide

theorem bitPoly_zero : bitPoly 0 = 0 := by
  ext i
  rw [coeff_bitPoly, Nat.zero_testBit, coeff_zero]
  rfl

theorem bitPoly_one : bitPoly 1 = 1 := by
  simp [bitPoly]

theorem bitPoly_double (word : ℕ) : bitPoly (2 * word) = X * bitPoly word := by
  ext i
  cases i with
  | zero => simp [coeff_bitPoly]
  | succ i =>
    rw [coeff_X_mul, coeff_bitPoly, coeff_bitPoly, Nat.testBit_succ, Nat.mul_div_cancel_left _ two_pos]

theorem degree_bitPoly_lt {word m : ℕ} (hword : word < 2 ^ m) : (bitPoly word).degree < m := by
  rw [degree_lt_iff_coeff_zero]
  intro i hi
  have hlt : word < 2 ^ i := hword.trans_le (Nat.pow_le_pow_right two_pos (by exact_mod_cast hi))
  rw [coeff_bitPoly, Nat.testBit_lt_two_pow hlt]
  rfl

theorem bitPoly_eq_zero {word : ℕ} (hzero : bitPoly word = 0) : word = 0 := by
  refine Nat.zero_of_testBit_eq_false ?_
  intro i
  have hcoeff := coeff_bitPoly word i
  rw [hzero, coeff_zero] at hcoeff
  by_contra hbit
  rw [if_pos (by simpa using hbit)] at hcoeff
  exact zero_ne_one hcoeff

/-- A word that stands for a polynomial of degree exactly `m`. -/
structure HasDegree (m p : ℕ) : Prop where
  low : 2 ^ m ≤ p
  high : p < 2 ^ (m + 1)

/-- A primitive polynomial of degree `m`: irreducible, with a root that generates the
multiplicative group. -/
structure Primitive (m p : ℕ) : Prop extends HasDegree m p where
  irreducible : Irreducible (bitPoly p)
  order : orderOf (AdjoinRoot.root (bitPoly p)) = 2 ^ m - 1

theorem HasDegree.testBit {m p : ℕ} (hdegree : HasDegree m p) : p.testBit m = true :=
  Nat.testBit_of_two_pow_le_and_two_pow_add_one_gt hdegree.low hdegree.high

theorem HasDegree.degree {m p : ℕ} (hdegree : HasDegree m p) : (bitPoly p).degree = m := by
  refine le_antisymm ?_ ?_
  · refine degree_le_iff_coeff_zero _ _ |>.mpr ?_
    intro i hi
    have hsucc : m + 1 ≤ i := by exact_mod_cast hi
    have hlt : p < 2 ^ i := hdegree.high.trans_le (Nat.pow_le_pow_right two_pos hsucc)
    rw [coeff_bitPoly, Nat.testBit_lt_two_pow hlt]
    rfl
  · refine le_degree_of_ne_zero ?_
    rw [coeff_bitPoly, hdegree.testBit]
    exact one_ne_zero

/-! ## Words as field elements -/

section Element

variable {m p : ℕ}

noncomputable def element (p word : ℕ) : AdjoinRoot (bitPoly p) := AdjoinRoot.mk _ (bitPoly word)

theorem element_zero : element p 0 = 0 := by
  rw [element, bitPoly_zero, map_zero]

theorem element_one : element p 1 = 1 := by
  rw [element, bitPoly_one, map_one]

theorem element_xor (a b : ℕ) : element p (a ^^^ b) = element p a + element p b := by
  rw [element, bitPoly_xor, map_add]
  rfl

theorem element_self : element p p = 0 := AdjoinRoot.mk_self

theorem add_self_eq_zero (a : AdjoinRoot (bitPoly p)) : a + a = 0 := by
  have htwo : (1 : AdjoinRoot (bitPoly p)) + 1 = 0 := by
    rw [← element_one, ← element_xor, Nat.xor_self, element_zero]
  calc a + a = a * (1 + 1) := by ring
    _ = 0 := by rw [htwo, mul_zero]

theorem element_double (word : ℕ) :
    element p (2 * word) = AdjoinRoot.root (bitPoly p) * element p word := by
  rw [element, bitPoly_double, map_mul, AdjoinRoot.mk_X]
  rfl

/-- A word by its lowest bit and the rest. -/
theorem element_div_two (word : ℕ) : element p word =
    AdjoinRoot.root (bitPoly p) * element p (word / 2) + if word % 2 = 1 then 1 else 0 := by
  have hsplit : word = (2 * (word / 2)) ^^^ (word % 2) := by
    refine Nat.eq_of_testBit_eq ?_
    intro i
    rw [Nat.testBit_xor]
    cases i with
    | zero => simp [Nat.testBit_zero]
    | succ i =>
      have hhigh : (word % 2).testBit (i + 1) = false := by
        rw [Nat.testBit_succ, Nat.div_eq_of_lt (Nat.mod_lt _ two_pos), Nat.zero_testBit]
      rw [hhigh, Bool.xor_false, Nat.testBit_succ, Nat.testBit_succ,
        Nat.mul_div_cancel_left _ two_pos]
  conv_lhs => rw [hsplit, element_xor, element_double]
  congr 1
  rcases Nat.mod_two_eq_zero_or_one word with hbit | hbit
  · rw [hbit, element_zero]
    rfl
  · rw [hbit, element_one]
    rfl

theorem eq_zero_of_element_eq_zero (hdegree : HasDegree m p) {word : ℕ} (hword : word < 2 ^ m)
    (hzero : element p word = 0) : word = 0 := by
  apply bitPoly_eq_zero
  by_contra hne
  have hdvd : bitPoly p ∣ bitPoly word := AdjoinRoot.mk_eq_zero.mp hzero
  have hle := degree_le_of_dvd hdvd hne
  rw [hdegree.degree] at hle
  exact absurd (degree_bitPoly_lt hword) (not_lt.mpr hle)

theorem element_injOn (hdegree : HasDegree m p) {a b : ℕ} (ha : a < 2 ^ m) (hb : b < 2 ^ m)
    (heq : element p a = element p b) : a = b := by
  have hxor : element p (a ^^^ b) = 0 := by rw [element_xor, heq, add_self_eq_zero]
  have hzero := eq_zero_of_element_eq_zero hdegree (Nat.xor_lt_two_pow ha hb) hxor
  exact Nat.xor_eq_zero_iff.mp hzero

/-! ## Doubling -/

/-- Multiply by the root: double and reduce when the word leaves its `m` bits. -/
def doubled (m p word : ℕ) : ℕ :=
  if (2 * word).testBit m then (2 * word) ^^^ p else 2 * word

theorem element_doubled (word : ℕ) :
    element p (doubled m p word) = AdjoinRoot.root (bitPoly p) * element p word := by
  unfold doubled
  split_ifs
  · rw [element_xor, element_self, add_zero, element_double]
  · exact element_double word

theorem doubled_lt (hdegree : HasDegree m p) {word : ℕ} (hword : word < 2 ^ m) :
    doubled m p word < 2 ^ m := by
  have hhigh : 2 * word < 2 ^ (m + 1) := by
    rw [pow_succ]
    omega
  unfold doubled
  split_ifs with hbit
  · refine Nat.lt_pow_two_of_testBit _ ?_
    intro i hi
    rw [Nat.testBit_xor]
    rcases hi.eq_or_lt with rfl | hlt
    · rw [hbit, hdegree.testBit]
      rfl
    · have hpow : 2 ^ (m + 1) ≤ 2 ^ i := Nat.pow_le_pow_right two_pos hlt
      rw [Nat.testBit_lt_two_pow (hhigh.trans_le hpow),
        Nat.testBit_lt_two_pow (hdegree.high.trans_le hpow)]
      rfl
  · refine Nat.lt_pow_two_of_testBit _ ?_
    intro i hi
    rcases hi.eq_or_lt with rfl | hlt
    · simpa using hbit
    · exact Nat.testBit_lt_two_pow (hhigh.trans_le (Nat.pow_le_pow_right two_pos hlt))

/-- Horner's scheme over the `bits` lowest bits of a word. -/
def product (m p second : ℕ) : ℕ → ℕ → ℕ
  | 0, _ => 0
  | bits + 1, first =>
    let doubledRest := doubled m p (product m p second bits (first / 2))
    if first % 2 = 1 then doubledRest ^^^ second else doubledRest

theorem element_product {bits first : ℕ} (second : ℕ) (hfirst : first < 2 ^ bits) :
    element p (product m p second bits first) = element p first * element p second := by
  induction bits generalizing first with
  | zero =>
    rw [pow_zero, Nat.lt_one_iff] at hfirst
    rw [product, hfirst, element_zero, zero_mul]
  | succ bits ih =>
    have hrest : first / 2 < 2 ^ bits := by
      rw [pow_succ] at hfirst
      omega
    rw [product, element_div_two first, add_mul, mul_assoc, ← ih hrest]
    split_ifs with hbit
    · rw [element_xor, element_doubled, one_mul]
    · rw [element_doubled, zero_mul, add_zero]

theorem product_lt (hdegree : HasDegree m p) {second : ℕ} (hsecond : second < 2 ^ m)
    (bits first : ℕ) : product m p second bits first < 2 ^ m := by
  induction bits generalizing first with
  | zero => exact Nat.two_pow_pos m
  | succ bits ih =>
    have hrest := doubled_lt hdegree (ih (first / 2))
    rw [product]
    split_ifs with hbit
    · exact Nat.xor_lt_two_pow hrest hsecond
    · exact hrest

/-- The word that stands for the `i`-th power of the root. -/
def rootPower (m p i : ℕ) : ℕ := (doubled m p)^[i] 1

theorem rootPower_succ (i : ℕ) : rootPower m p (i + 1) = doubled m p (rootPower m p i) :=
  Function.iterate_succ_apply' _ _ _

theorem element_rootPower (i : ℕ) :
    element p (rootPower m p i) = AdjoinRoot.root (bitPoly p) ^ i := by
  induction i with
  | zero => rw [rootPower, Function.iterate_zero_apply, element_one, pow_zero]
  | succ i ih => rw [rootPower_succ, element_doubled, ih, pow_succ']

theorem rootPower_lt (hdegree : HasDegree m p) (hm : 0 < m) (i : ℕ) : rootPower m p i < 2 ^ m := by
  induction i with
  | zero => exact Nat.one_lt_two_pow hm.ne'
  | succ i ih =>
    rw [rootPower_succ]
    exact doubled_lt hdegree ih

theorem rootPower_eq_iff (hdegree : HasDegree m p) (hm : 0 < m) (i j : ℕ) :
    rootPower m p i = rootPower m p j ↔
      AdjoinRoot.root (bitPoly p) ^ i = AdjoinRoot.root (bitPoly p) ^ j := by
  rw [← element_rootPower (m := m), ← element_rootPower (m := m)]
  constructor
  · intro heq
    rw [heq]
  · exact element_injOn hdegree (rootPower_lt hdegree hm i) (rootPower_lt hdegree hm j)

/-! ## Powers exhaust the words -/

section Order

variable (hdegree : HasDegree m p) (hm : 0 < m)
  (horder : orderOf (AdjoinRoot.root (bitPoly p)) = 2 ^ m - 1)

include horder in
theorem root_pow_order : AdjoinRoot.root (bitPoly p) ^ (2 ^ m - 1) = 1 := by
  rw [← horder]
  exact pow_orderOf_eq_one _

include hdegree hm horder in
theorem rootPower_injOn : Set.InjOn (rootPower m p) (Finset.range (2 ^ m - 1)) := by
  intro i hi j hj heq
  rw [Finset.coe_range, Set.mem_Iio, ← horder] at hi hj
  exact pow_injOn_Iio_orderOf hi hj ((rootPower_eq_iff hdegree hm i j).mp heq)

include hdegree hm horder in
theorem rootPower_ne_zero (i : ℕ) : rootPower m p i ≠ 0 := by
  intro hzero
  have hone : (1 : AdjoinRoot (bitPoly p)) = 0 := by
    calc (1 : AdjoinRoot (bitPoly p))
        = (AdjoinRoot.root (bitPoly p) ^ (2 ^ m - 1)) ^ i := by
          rw [root_pow_order horder, one_pow]
      _ = (AdjoinRoot.root (bitPoly p) ^ i) ^ (2 ^ m - 1) := pow_right_comm _ _ _
      _ = 0 ^ (2 ^ m - 1) := by rw [← element_rootPower (m := m), hzero, element_zero]
      _ = 0 := zero_pow (Nat.sub_pos_of_lt (Nat.one_lt_two_pow hm.ne')).ne'
  have hword : element p 1 = element p 0 := by rw [element_one, element_zero, hone]
  exact one_ne_zero (element_injOn hdegree (Nat.one_lt_two_pow hm.ne') (Nat.two_pow_pos m) hword)

include hdegree hm horder in
/-- The `2 ^ m - 1` powers are distinct nonzero words, so they are all of them. -/
theorem exists_rootPower {word : ℕ} (hword : word < 2 ^ m) (hne : word ≠ 0) :
    ∃ i < 2 ^ m - 1, rootPower m p i = word := by
  have hsubset : (Finset.range (2 ^ m - 1)).image (rootPower m p) ⊆ (Finset.range (2 ^ m)).erase 0 := by
    intro x hx
    obtain ⟨i, _, rfl⟩ := Finset.mem_image.mp hx
    exact Finset.mem_erase.mpr
      ⟨rootPower_ne_zero hdegree hm horder i, Finset.mem_range.mpr (rootPower_lt hdegree hm i)⟩
  have hcard : ((Finset.range (2 ^ m)).erase 0).card ≤
      ((Finset.range (2 ^ m - 1)).image (rootPower m p)).card := by
    rw [Finset.card_image_of_injOn (rootPower_injOn hdegree hm horder), Finset.card_range,
      Finset.card_erase_of_mem (Finset.mem_range.mpr (Nat.two_pow_pos m)), Finset.card_range]
  have hall := Finset.eq_of_subset_of_card_le hsubset hcard
  have hmem : word ∈ (Finset.range (2 ^ m - 1)).image (rootPower m p) := by
    rw [hall]
    exact Finset.mem_erase.mpr ⟨hne, Finset.mem_range.mpr hword⟩
  obtain ⟨i, hi, heq⟩ := Finset.mem_image.mp hmem
  exact ⟨i, Finset.mem_range.mp hi, heq⟩

/-! ## Primitivity from the order of the root -/

theorem exists_bitPoly {m : ℕ} {g : (ZMod 2)[X]} (hg : g.degree < m) :
    ∃ word < 2 ^ m, bitPoly word = g := by
  induction m generalizing g with
  | zero =>
    refine ⟨0, Nat.one_pos, ?_⟩
    rw [bitPoly_zero]
    ext i
    rw [coeff_zero, (degree_lt_iff_coeff_zero g 0).mp hg i (Nat.zero_le i)]
  | succ m ih =>
    have hdivX : g.divX.degree < m := by
      rw [degree_lt_iff_coeff_zero] at hg ⊢
      intro i hi
      rw [coeff_divX]
      exact hg (i + 1) (Nat.succ_le_succ hi)
    obtain ⟨word, hword, hpoly⟩ := ih hdivX
    have hdouble : bitPoly (2 * word) + C (g.coeff 0) = g := by
      rw [bitPoly_double, hpoly, X_mul, divX_mul_X_add]
    have hcoeff : g.coeff 0 = 0 ∨ g.coeff 0 = 1 := by
      generalize g.coeff 0 = c
      decide +revert
    have hlt : 2 * word < 2 ^ (m + 1) := by
      rw [pow_succ]
      omega
    rcases hcoeff with hzero | hone
    · refine ⟨2 * word, hlt, ?_⟩
      rw [hzero, C_0, add_zero] at hdouble
      exact hdouble
    · refine ⟨2 * word ^^^ 1, Nat.xor_lt_two_pow hlt (Nat.one_lt_two_pow (Nat.succ_ne_zero m)), ?_⟩
      rw [hone, C_1] at hdouble
      rw [bitPoly_xor, bitPoly_one]
      exact hdouble

include hdegree hm horder in
theorem exists_root_pow {g : (ZMod 2)[X]} (hg : g.degree < m) (hne : g ≠ 0) :
    ∃ i, AdjoinRoot.mk (bitPoly p) g = AdjoinRoot.root (bitPoly p) ^ i := by
  obtain ⟨word, hword, rfl⟩ := exists_bitPoly hg
  have hword0 : word ≠ 0 := by
    rintro rfl
    exact hne bitPoly_zero
  obtain ⟨i, _, hi⟩ := exists_rootPower hdegree hm horder hword hword0
  refine ⟨i, ?_⟩
  rw [← element_rootPower (m := m), hi]
  rfl

include hdegree hm horder in
theorem primitive_of_order : Primitive m p where
  toHasDegree := hdegree
  order := horder
  irreducible := by
    have hnonzero : bitPoly p ≠ 0 := by
      intro hzero
      have hbot := hdegree.degree
      rw [hzero, degree_zero] at hbot
      exact absurd hbot WithBot.bot_ne_coe
    -- A factor of a proper factorisation is a power of the root, and so is the product.
    have hfactor {a b : (ZMod 2)[X]} (hab : bitPoly p = a * b) (hb : ¬IsUnit b) :
        a.degree < m := by
      have hb0 : b ≠ 0 := right_ne_zero_of_mul (hab ▸ hnonzero)
      have ha0 : a ≠ 0 := left_ne_zero_of_mul (hab ▸ hnonzero)
      have hpos := degree_pos_of_ne_zero_of_nonunit hb0 hb
      have hsum := degree_mul (p := a) (q := b)
      rw [← hab, hdegree.degree, degree_eq_natDegree ha0, degree_eq_natDegree hb0] at hsum
      rw [degree_eq_natDegree hb0] at hpos
      rw [degree_eq_natDegree ha0]
      norm_cast at hsum hpos ⊢
      omega
    refine ⟨?_, ?_⟩
    · intro hunit
      have hdeg := degree_eq_zero_of_isUnit hunit
      rw [hdegree.degree] at hdeg
      exact hm.ne' (by exact_mod_cast hdeg)
    · intro a b hab
      by_contra hunits
      rw [not_or] at hunits
      obtain ⟨i, hi⟩ := exists_root_pow hdegree hm horder (hfactor hab hunits.2)
        (left_ne_zero_of_mul (hab ▸ hnonzero))
      obtain ⟨j, hj⟩ := exists_root_pow hdegree hm horder
        (hfactor (hab.trans (mul_comm a b)) hunits.1) (right_ne_zero_of_mul (hab ▸ hnonzero))
      have hzero : element p (rootPower m p (i + j)) = 0 := by
        rw [element_rootPower, pow_add, ← hi, ← hj, ← map_mul, ← hab, AdjoinRoot.mk_self]
      exact rootPower_ne_zero hdegree hm horder (i + j)
        (eq_zero_of_element_eq_zero hdegree (rootPower_lt hdegree hm _) hzero)

end Order

/-- Primitivity by evaluation: the doubling step returns to one after `2 ^ m - 1` steps and not
after any of the proper quotients by a prime. -/
theorem primitive_of_rootPower (hdegree : HasDegree m p) (hm : 0 < m)
    (hreturns : rootPower m p (2 ^ m - 1) = rootPower m p 0)
    (hearlier : ∀ q : ℕ, q.Prime → q ∣ 2 ^ m - 1 →
      rootPower m p ((2 ^ m - 1) / q) ≠ rootPower m p 0) : Primitive m p := by
  refine primitive_of_order hdegree hm ?_
  refine orderOf_eq_of_pow_and_pow_div_prime (Nat.sub_pos_of_lt (Nat.one_lt_two_pow hm.ne')) ?_ ?_
  · rw [(rootPower_eq_iff hdegree hm _ _).mp hreturns, pow_zero]
  · intro q hq hdvd hone
    refine hearlier q hq hdvd ((rootPower_eq_iff hdegree hm _ _).mpr ?_)
    rw [hone, pow_zero]

end Element

end Sdrmm.BinaryField
