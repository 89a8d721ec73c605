import Mathlib.Algebra.Polynomial.Eval.Degree
import Mathlib.Tactic

/-!
# Coefficient arrays updated by exclusive or

Codecs over a field of characteristic two keep polynomials as arrays of symbols and accumulate into
them with `out[i] ^= v`.  Given a map `embed` of symbols into the field that turns exclusive or
into addition, `poly` reads such an array as a polynomial, lowest coefficient first, and the lemmas
say what the usual loops add to it.
-/

namespace Sdrmm.SymbolArray

open Polynomial

variable {β K : Type*} [XorOp β] [OfNat β 0]

/-- `out[i] ^= v`. -/
def xorAt (out : List β) (i : ℕ) (v : β) : List β := out.modify i fun old ↦ old ^^^ v

omit [OfNat β 0] in
@[simp]
theorem length_xorAt (out : List β) (i : ℕ) (v : β) : (xorAt out i v).length = out.length :=
  List.length_modify _ _ _

theorem getD_xorAt (out : List β) (i k : ℕ) (v : β) (hi : i < out.length) :
    (xorAt out i v).getD k 0 = if i = k then out.getD k 0 ^^^ v else out.getD k 0 := by
  rw [xorAt, List.getD_eq_getElem?_getD, List.getD_eq_getElem?_getD, List.getElem?_modify]
  split_ifs with hik
  · subst hik
    rw [List.getElem?_eq_getElem hi]
    rfl
  · rw [id_map']

omit [XorOp β] in
theorem getD_take (out : List β) (n k : ℕ) :
    (out.take n).getD k 0 = if k < n then out.getD k 0 else 0 := by
  rw [List.getD_eq_getElem?_getD, List.getElem?_take]
  split_ifs
  · rw [List.getD_eq_getElem?_getD]
  · rfl

omit [XorOp β] in
theorem getD_replicate (n k : ℕ) : (List.replicate n (0 : β)).getD k 0 = 0 := by
  rw [List.getD_eq_getElem?_getD, List.getElem?_replicate]
  split_ifs <;> rfl

variable [Field K]

/-- Symbols stand for field elements and exclusive or for addition. -/
structure Embeds (embed : β → K) : Prop where
  zero : embed 0 = 0
  xor : ∀ a b, embed (a ^^^ b) = embed a + embed b

/-- The polynomial of an array, lowest coefficient first. -/
noncomputable def poly (embed : β → K) (out : List β) : K[X] :=
  ∑ i ∈ Finset.range out.length, C (embed (out.getD i 0)) * X ^ i

variable {embed : β → K} (hembed : Embeds embed)

include hembed

theorem coeff_poly (out : List β) (k : ℕ) : (poly embed out).coeff k = embed (out.getD k 0) := by
  rw [poly, finsetSum_coeff]
  simp only [coeff_C_mul_X_pow]
  rw [Finset.sum_ite_eq]
  split_ifs with hk
  · rfl
  · rw [List.getD_eq_getElem?_getD, List.getElem?_eq_none (by simpa using hk), Option.getD_none, hembed.zero]

theorem poly_nil : poly embed ([] : List β) = 0 := by
  ext k
  rw [coeff_poly hembed, List.getD_nil, hembed.zero, coeff_zero]

theorem poly_cons (a : β) (out : List β) :
    poly embed (a :: out) = C (embed a) + X * poly embed out := by
  ext k
  rw [coeff_poly hembed, coeff_add, coeff_C]
  cases k with
  | zero => simp
  | succ k => rw [List.getD_cons_succ, coeff_X_mul, coeff_poly hembed, if_neg k.succ_ne_zero, zero_add]

theorem poly_replicate_zero (n : ℕ) : poly embed (List.replicate n (0 : β)) = 0 := by
  ext k
  rw [coeff_poly hembed, getD_replicate, hembed.zero, coeff_zero]

theorem poly_xorAt {out : List β} {i : ℕ} (v : β) (hi : i < out.length) :
    poly embed (xorAt out i v) = poly embed out + C (embed v) * X ^ i := by
  ext k
  rw [coeff_poly hembed, getD_xorAt _ _ _ _ hi, coeff_add, coeff_poly hembed, coeff_C_mul_X_pow]
  split_ifs with h h' h'
  · rw [hembed.xor]
  · exact absurd h.symm h'
  · exact absurd h'.symm h
  · rw [add_zero]

theorem coeff_poly_take (out : List β) (n k : ℕ) :
    (poly embed (out.take n)).coeff k = if k < n then (poly embed out).coeff k else 0 := by
  rw [coeff_poly hembed, coeff_poly hembed, getD_take]
  split_ifs
  · rfl
  · exact hembed.zero

/-- A prefix that keeps all nonzero coefficients keeps the polynomial. -/
theorem poly_take {out : List β} {n : ℕ} (hdegree : (poly embed out).natDegree < n) :
    poly embed (out.take n) = poly embed out := by
  ext k
  rw [coeff_poly_take hembed]
  split_ifs with hk
  · rfl
  · exact (coeff_eq_zero_of_natDegree_lt (by omega)).symm

/-! ## Words read from the highest coefficient down -/

omit [XorOp β] hembed in
/-- The value at `r` of a word whose first symbol is its highest coefficient. -/
def wordValue (embed : β → K) (r : K) : List β → K
  | [] => 0
  | a :: word => embed a * r ^ word.length + wordValue embed r word

omit [XorOp β] [OfNat β 0] hembed in
theorem wordValue_append (r : K) (u w : List β) :
    wordValue embed r (u ++ w) = wordValue embed r u * r ^ w.length + wordValue embed r w := by
  induction u with
  | nil => rw [List.nil_append, wordValue, zero_mul, zero_add]
  | cons a u ih =>
    rw [List.cons_append, wordValue, wordValue, ih, List.length_append, pow_add]
    ring

theorem wordValue_reverse (r : K) (out : List β) :
    wordValue embed r out.reverse = (poly embed out).eval r := by
  induction out with
  | nil => rw [poly_nil hembed, eval_zero, List.reverse_nil, wordValue]
  | cons a out ih =>
    rw [List.reverse_cons, wordValue_append, ih, poly_cons hembed, eval_add, eval_C, eval_mul, eval_X]
    simp only [wordValue, List.length_singleton, List.length_nil, pow_zero, pow_one]
    ring

theorem wordValue_replicate_zero (r : K) (n : ℕ) :
    wordValue embed r (List.replicate n (0 : β)) = 0 := by
  induction n with
  | zero => rfl
  | succ n ih => rw [List.replicate_succ, wordValue, ih, hembed.zero, zero_mul, zero_add]

theorem wordValue_xorAt (r : K) {word : List β} {i : ℕ} (v : β) (hi : i < word.length) :
    wordValue embed r (xorAt word i v) =
      wordValue embed r word + embed v * r ^ (word.length - 1 - i) := by
  induction word generalizing i with
  | nil => exact absurd hi (Nat.not_lt_zero i)
  | cons a word ih =>
    cases i with
    | zero =>
      change wordValue embed r ((a ^^^ v) :: word) = _
      rw [wordValue, wordValue, hembed.xor, List.length_cons, Nat.add_sub_cancel, Nat.sub_zero]
      ring
    | succ i =>
      have hi' : i < word.length := Nat.lt_of_succ_lt_succ hi
      change wordValue embed r (a :: xorAt word i v) = _
      rw [wordValue, wordValue, ih hi', length_xorAt, List.length_cons,
        show word.length + 1 - 1 - (i + 1) = word.length - 1 - i by omega, add_assoc]

omit [XorOp β] hembed in
/-- The value of a word as a sum over positions counted from its end. -/
theorem wordValue_eq_sum (r : K) (word : List β) :
    wordValue embed r word =
      ∑ p ∈ Finset.range word.length, embed (word.getD (word.length - 1 - p) 0) * r ^ p := by
  induction word with
  | nil => rfl
  | cons a word ih =>
    rw [wordValue, ih, List.length_cons, Finset.sum_range_succ, add_comm, Nat.add_sub_cancel,
      Nat.sub_self, List.getD_cons_zero]
    congr 1
    refine Finset.sum_congr rfl ?_
    intro p hp
    have hlt := Finset.mem_range.mp hp
    rw [show word.length - p = word.length - 1 - p + 1 by omega, List.getD_cons_succ]

/-- `word.fold(0, |value, symbol| value * r ^ symbol)`. -/
theorem embed_foldl_horner (r : K) (times : β → β) (htimes : ∀ a, embed (times a) = embed a * r)
    (word : List β) (start : β) :
    embed (word.foldl (fun value symbol ↦ times value ^^^ symbol) start) =
      embed start * r ^ word.length + wordValue embed r word := by
  induction word generalizing start with
  | nil => rw [List.foldl_nil, wordValue, List.length_nil, pow_zero, mul_one, add_zero]
  | cons a word ih =>
    rw [List.foldl_cons, ih, hembed.xor, htimes, wordValue, List.length_cons, pow_succ']
    ring

/-! ## Accumulation loops -/

omit [OfNat β 0] [Field K] hembed in
/-- Adding multiples of consecutive factors into a word leaves what lies before them. -/
theorem addFactors_frame (scale : β → β) (factors : List β) (first start : ℕ) (out : List β) :
    ((factors.zipIdx first).foldl
      (fun out item ↦ xorAt out (start + item.2) (scale item.1)) out).length = out.length ∧
    ((factors.zipIdx first).foldl
      (fun out item ↦ xorAt out (start + item.2) (scale item.1)) out).take (start + first) =
        out.take (start + first) := by
  induction factors generalizing first out with
  | nil => exact ⟨rfl, rfl⟩
  | cons factor factors ih =>
    obtain ⟨hlength, htake⟩ := ih (first + 1) (xorAt out (start + first) (scale factor))
    rw [List.zipIdx_cons, List.foldl_cons]
    refine ⟨hlength.trans (length_xorAt _ _ _), ?_⟩
    have hfront := congrArg (List.take (start + first)) htake
    rw [List.take_take, List.take_take, Nat.min_eq_left (by omega)] at hfront
    rw [hfront, xorAt, List.take_modify, List.modify_eq_self]
    rw [List.length_take]
    exact Nat.min_le_left _ _

/-- `for (offset, factor) in factors.enumerate() { out[start + offset] ^= scale(factor) }`. -/
theorem wordValue_addFactors (r : K) (scale : β → β) (coefficient : K)
    (hscale : ∀ x, embed (scale x) = coefficient * embed x) (factors : List β) (first start : ℕ)
    {out : List β} (hfits : start + first + factors.length ≤ out.length) :
    wordValue embed r ((factors.zipIdx first).foldl
      (fun out item ↦ xorAt out (start + item.2) (scale item.1)) out) =
      wordValue embed r out + coefficient * wordValue embed r factors *
        r ^ (out.length - (start + first + factors.length)) := by
  induction factors generalizing first out with
  | nil => rw [List.zipIdx_nil, List.foldl_nil, wordValue, mul_zero, zero_mul, add_zero]
  | cons factor factors ih =>
    rw [List.length_cons] at hfits
    have hlength := length_xorAt out (start + first) (scale factor)
    have hfits' : start + (first + 1) + factors.length ≤
        (xorAt out (start + first) (scale factor)).length := by omega
    rw [List.zipIdx_cons, List.foldl_cons, ih (first + 1) hfits',
      wordValue_xorAt hembed r _ (by omega), hlength, hscale, wordValue, List.length_cons]
    have hexponent : out.length - 1 - (start + first) =
        factors.length + (out.length - (start + (first + 1) + factors.length)) := by omega
    rw [hexponent, pow_add, show start + first + (factors.length + 1) =
      start + (first + 1) + factors.length by omega]
    ring

omit [XorOp β] [OfNat β 0] [Field K] hembed in
/-- A loop whose steps keep the length and add to a measure of the word. -/
theorem measure_foldl {ι M : Type*} [AddMonoid M] (measure : List β → M)
    (step : List β → ι → List β) (added : ι → M) {n : ℕ} (items : List ι)
    (hstep : ∀ item ∈ items, ∀ out : List β, out.length = n →
      (step out item).length = n ∧ measure (step out item) = measure out + added item)
    {out : List β} (hout : out.length = n) :
    (items.foldl step out).length = n ∧
      measure (items.foldl step out) = measure out + (items.map added).sum := by
  induction items generalizing out with
  | nil => exact ⟨hout, by rw [List.foldl_nil, List.map_nil, List.sum_nil, add_zero]⟩
  | cons item items ih =>
    obtain ⟨hlength, hmeasure⟩ := hstep item List.mem_cons_self out hout
    obtain ⟨hlength', hmeasure'⟩ :=
      ih (fun item' hmem ↦ hstep item' (List.mem_cons_of_mem item hmem)) hlength
    refine ⟨hlength', ?_⟩
    rw [List.foldl_cons, hmeasure', hmeasure, List.map_cons, List.sum_cons, add_assoc]

omit [XorOp β] hembed in
/-- The rule for an accumulation loop: when every step keeps the length and adds its own
polynomial, the loop adds their sum. -/
theorem poly_foldl {ι : Type*} {step : List β → ι → List β} {added : ι → K[X]} {n : ℕ}
    (items : List ι) (hstep : ∀ item ∈ items, ∀ out : List β, out.length = n →
      (step out item).length = n ∧ poly embed (step out item) = poly embed out + added item)
    {out : List β} (hout : out.length = n) :
    (items.foldl step out).length = n ∧
      poly embed (items.foldl step out) = poly embed out + (items.map added).sum :=
  measure_foldl (poly embed) step added items hstep hout

omit [XorOp β] hembed in
theorem sum_map_zipIdx {M : Type*} [AddCommMonoid M] (xs : List β) (start : ℕ) (f : β → ℕ → M) :
    ((xs.zipIdx start).map fun item ↦ f item.1 item.2).sum =
      ∑ i ∈ Finset.range xs.length, f (xs.getD i 0) (start + i) := by
  induction xs generalizing start with
  | nil => rfl
  | cons x xs ih =>
    rw [List.zipIdx_cons, List.map_cons, List.sum_cons, ih, List.length_cons,
      Finset.sum_range_succ', add_comm]
    simp only [List.getD_cons_succ, List.getD_cons_zero, add_zero]
    congr 1
    refine Finset.sum_congr rfl ?_
    intro i _
    rw [Nat.add_right_comm, Nat.add_assoc]

/-- `for (offset, x) in xs.enumerate() { out[offset + shift] ^= scale(x) }`. -/
theorem poly_foldl_scaled (xs : List β) (shift : ℕ) (scale : β → β) (factor : K)
    (hscale : ∀ x, embed (scale x) = factor * embed x) {out : List β} {n : ℕ}
    (hout : out.length = n) (hfits : xs.length + shift ≤ n) :
    (xs.zipIdx.foldl (fun out item ↦ xorAt out (item.2 + shift) (scale item.1)) out).length = n ∧
      poly embed
        (xs.zipIdx.foldl (fun out item ↦ xorAt out (item.2 + shift) (scale item.1)) out) =
        poly embed out + C factor * X ^ shift * poly embed xs := by
  have hstep : ∀ item ∈ xs.zipIdx, ∀ out : List β, out.length = n →
      (xorAt out (item.2 + shift) (scale item.1)).length = n ∧
      poly embed (xorAt out (item.2 + shift) (scale item.1)) =
        poly embed out + C (embed (scale item.1)) * X ^ (item.2 + shift) := by
    intro item hmem out hout
    have hindex := (List.mem_zipIdx hmem).2.1
    exact ⟨by rw [length_xorAt, hout], poly_xorAt hembed _ (by omega)⟩
  have hloop := poly_foldl xs.zipIdx hstep hout
  refine ⟨hloop.1, ?_⟩
  rw [hloop.2, sum_map_zipIdx xs 0 fun x i ↦ C (embed (scale x)) * X ^ (i + shift)]
  congr 1
  rw [poly, Finset.mul_sum]
  refine Finset.sum_congr rfl ?_
  intro i _
  rw [hscale, C_mul, zero_add, pow_add]
  ring

/-- The product of two arrays, keeping the coefficients below `limit`. -/
def truncatedProduct (mul : β → β → β) (size limit : ℕ) (a b : List β) : List β :=
  a.zipIdx.foldl (fun out (x, i) ↦
    b.zipIdx.foldl (fun out (y, j) ↦
      if i + j < limit then xorAt out (i + j) (mul x y) else out) out) (List.replicate size 0)

/-- What the inner step of `truncatedProduct` adds. -/
noncomputable def truncatedTerm (embed : β → K) (limit : ℕ) (x y : β) (i j : ℕ) : K[X] :=
  if i + j < limit then C (embed x * embed y) * X ^ (i + j) else 0

omit hembed [XorOp β] [OfNat β 0] in
theorem coeff_truncatedTerm (limit : ℕ) (x y : β) (i j k : ℕ) :
    (truncatedTerm embed limit x y i j).coeff k =
      if k < limit then (C (embed x * embed y) * X ^ (i + j)).coeff k else 0 := by
  unfold truncatedTerm
  by_cases hk : k = i + j
  · subst hk
    split_ifs
    · rfl
    · exact coeff_zero _
  · rw [coeff_C_mul_X_pow, if_neg hk]
    split_ifs
    · rw [coeff_C_mul_X_pow, if_neg hk]
    · rw [coeff_C_mul_X_pow, if_neg hk]
    · exact coeff_zero _
    · exact coeff_zero _

omit [XorOp β] hembed in
theorem poly_mul_poly (a b : List β) : poly embed a * poly embed b =
    ∑ i ∈ Finset.range a.length, ∑ j ∈ Finset.range b.length,
      C (embed (a.getD i 0) * embed (b.getD j 0)) * X ^ (i + j) := by
  rw [poly, poly, Finset.sum_mul_sum]
  refine Finset.sum_congr rfl fun i _ ↦ Finset.sum_congr rfl fun j _ ↦ ?_
  rw [C_mul, pow_add]
  ring

section Product

variable {mul : β → β → β} (hmul : ∀ a b, embed (mul a b) = embed a * embed b) {size limit : ℕ}
  (hlimit : limit ≤ size)

include hmul hlimit

theorem poly_truncatedRow (x : β) (i : ℕ) (b : List β) {out : List β} (hout : out.length = size) :
    (b.zipIdx.foldl (fun out (y, j) ↦
      if i + j < limit then xorAt out (i + j) (mul x y) else out) out).length = size ∧
    poly embed (b.zipIdx.foldl (fun out (y, j) ↦
      if i + j < limit then xorAt out (i + j) (mul x y) else out) out) =
      poly embed out +
        ∑ j ∈ Finset.range b.length, truncatedTerm embed limit x (b.getD j 0) i j := by
  have hstep : ∀ item ∈ b.zipIdx, ∀ out : List β, out.length = size →
      (if i + item.2 < limit then xorAt out (i + item.2) (mul x item.1) else out).length = size ∧
      poly embed (if i + item.2 < limit then xorAt out (i + item.2) (mul x item.1) else out) =
        poly embed out + truncatedTerm embed limit x item.1 i item.2 := by
    intro item _ out hout
    unfold truncatedTerm
    split_ifs with hlt
    · refine ⟨by rw [length_xorAt, hout], ?_⟩
      rw [poly_xorAt hembed _ (by omega), hmul]
    · exact ⟨hout, (add_zero _).symm⟩
  obtain ⟨hlength, hpoly⟩ := poly_foldl b.zipIdx hstep hout
  refine ⟨hlength, hpoly.trans ?_⟩
  rw [sum_map_zipIdx b 0 fun y j ↦ truncatedTerm embed limit x y i j]
  simp only [zero_add]

theorem coeff_truncatedProduct (a b : List β) :
    (truncatedProduct mul size limit a b).length = size ∧
      ∀ k, (poly embed (truncatedProduct mul size limit a b)).coeff k =
        if k < limit then (poly embed a * poly embed b).coeff k else 0 := by
  have hloop := poly_foldl a.zipIdx
    (fun item _ _ hout ↦ poly_truncatedRow hembed hmul hlimit item.1 item.2 b hout)
    (List.length_replicate (n := size) (a := 0))
  refine ⟨hloop.1, ?_⟩
  intro k
  have hsum : poly embed (truncatedProduct mul size limit a b) =
      ∑ i ∈ Finset.range a.length, ∑ j ∈ Finset.range b.length,
        truncatedTerm embed limit (a.getD i 0) (b.getD j 0) i j := by
    refine hloop.2.trans ?_
    rw [poly_replicate_zero hembed, zero_add, sum_map_zipIdx a 0 fun x i ↦
      ∑ j ∈ Finset.range b.length, truncatedTerm embed limit x (b.getD j 0) i j]
    simp only [zero_add]
  rw [hsum, poly_mul_poly]
  simp only [finsetSum_coeff, coeff_truncatedTerm]
  split_ifs
  · rfl
  · simp only [Finset.sum_const_zero]

end Product

end Sdrmm.SymbolArray
