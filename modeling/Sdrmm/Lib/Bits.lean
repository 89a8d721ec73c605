import Mathlib.Tactic

/-!
# Bit masks

Counting and assembling bits of natural numbers that stand for machine words.
-/

namespace Sdrmm.Bits

/-- `count_ones` of a word of `width` bits. -/
def countOnes (width word : ℕ) : ℕ := ∑ i ∈ Finset.range width, (word.testBit i).toNat

/-- Two words that differ in exactly one bit have opposite parities. -/
theorem countOnes_odd_flip {width : ℕ} (first second flip : ℕ) (hflip : flip < width)
    (hdiffer : second.testBit flip = !first.testBit flip)
    (hagree : ∀ i, i ≠ flip → second.testBit i = first.testBit i) :
    (countOnes width second % 2 = 1) ↔ ¬ (countOnes width first % 2 = 1) := by
  have hmem : flip ∈ Finset.range width := Finset.mem_range.mpr hflip
  have hrest : ∑ i ∈ (Finset.range width).erase flip, (second.testBit i).toNat =
      ∑ i ∈ (Finset.range width).erase flip, (first.testBit i).toNat := by
    apply Finset.sum_congr rfl
    intro i hi
    rw [hagree i (Finset.ne_of_mem_erase hi)]
  unfold countOnes
  rw [← Finset.add_sum_erase _ _ hmem, ← Finset.add_sum_erase _ _ hmem, hrest, hdiffer]
  cases first.testBit flip <;> simp <;> omega

/-- The word whose bit `i` is `bit i`, or-ed together one bit at a time. -/
def assemble (width : ℕ) (bit : ℕ → Bool) : ℕ :=
  (List.range width).foldl (fun word i ↦ word ||| (bit i).toNat <<< i) 0

theorem testBit_shiftLeft_toNat (bit : Bool) (i j : ℕ) :
    (bit.toNat <<< i).testBit j = (decide (j = i) && bit) := by
  rw [Nat.testBit_shiftLeft]
  rcases lt_trichotomy j i with h | rfl | h
  · simp [Nat.not_le.mpr h, h.ne]
  · cases bit <;> simp
  · have hhigh : Nat.testBit 1 (j - i) = false :=
      Nat.testBit_lt_two_pow (Nat.one_lt_two_pow (by omega))
    cases bit <;> simp [h.ne', hhigh]

theorem testBit_assemble (width : ℕ) (bit : ℕ → Bool) (j : ℕ) :
    (assemble width bit).testBit j = (decide (j < width) && bit j) := by
  induction width with
  | zero => simp [assemble]
  | succ width ih =>
    rw [assemble, List.range_succ, List.foldl_append] at *
    change (((List.range width).foldl _ 0) ||| (bit width).toNat <<< width).testBit j = _
    rw [Nat.testBit_or, ih, testBit_shiftLeft_toNat]
    rcases lt_trichotomy j width with h | rfl | h
    · simp [h, h.ne, Nat.lt_succ_of_lt h]
    · simp
    · simp [h.ne', Nat.not_lt.mpr h.le, Nat.not_lt.mpr (Nat.succ_le_of_lt h)]

theorem countOnes_two_pow {width place : ℕ} (hplace : place < width) :
    countOnes width (2 ^ place) = 1 := by
  unfold countOnes
  rw [Finset.sum_eq_single_of_mem place (Finset.mem_range.mpr hplace), Nat.testBit_two_pow_self]
  · rfl
  · intro i _ hi
    rw [Nat.testBit_two_pow, decide_eq_false hi.symm]
    rfl

/-- `trailing_zeros` of a word of `width` bits. -/
def trailingZeros (width word : ℕ) : ℕ := (List.range width).findIdx word.testBit

theorem trailingZeros_two_pow {width place : ℕ} (hplace : place < width) :
    trailingZeros width (2 ^ place) = place := by
  rw [trailingZeros, List.findIdx_eq (by simpa using hplace)]
  simp only [List.getElem_range, Nat.testBit_two_pow_self, Nat.testBit_two_pow,
    decide_eq_false_iff_not, true_and]
  omega

/-! ## Exclusive or over a list -/

section XorAll

variable {ι : Type*}

def xorAll (items : List ι) (f : ι → Bool) : Bool := items.foldr (fun i acc ↦ f i ^^ acc) false

theorem xorAll_cons (i : ι) (items : List ι) (f : ι → Bool) :
    xorAll (i :: items) f = (f i ^^ xorAll items f) := rfl

theorem xorAll_append (first second : List ι) (f : ι → Bool) :
    xorAll (first ++ second) f = (xorAll first f ^^ xorAll second f) := by
  induction first with
  | nil => exact (Bool.false_xor _).symm
  | cons i first ih => rw [List.cons_append, xorAll_cons, xorAll_cons, ih, Bool.xor_assoc]

theorem xorAll_congr {items : List ι} {f g : ι → Bool} (heq : ∀ i ∈ items, f i = g i) :
    xorAll items f = xorAll items g := by
  induction items with
  | nil => rfl
  | cons i items ih =>
    rw [xorAll_cons, xorAll_cons, heq i List.mem_cons_self,
      ih fun j hj ↦ heq j (List.mem_cons_of_mem i hj)]

theorem xorAll_xor (items : List ι) (f g : ι → Bool) :
    xorAll items (fun i ↦ f i ^^ g i) = (xorAll items f ^^ xorAll items g) := by
  induction items with
  | nil => rfl
  | cons i items ih =>
    rw [xorAll_cons, xorAll_cons, xorAll_cons, ih, Bool.xor_assoc, Bool.xor_assoc,
      Bool.xor_left_comm (g i)]

theorem xorAll_filter (items : List ι) (keep : ι → Bool) (f : ι → Bool) :
    xorAll (items.filter keep) f = xorAll items fun i ↦ keep i && f i := by
  induction items with
  | nil => rfl
  | cons i items ih =>
    rw [xorAll_cons, ← ih]
    cases hkeep : keep i with
    | false => rw [List.filter_cons_of_neg (by simp [hkeep]), Bool.false_and, Bool.false_xor]
    | true => rw [List.filter_cons_of_pos hkeep, Bool.true_and, xorAll_cons]

theorem xorAll_perm {first second : List ι} (hperm : first.Perm second) (f : ι → Bool) :
    xorAll first f = xorAll second f := by
  induction hperm with
  | nil => rfl
  | cons i _ ih => rw [xorAll_cons, xorAll_cons, ih]
  | swap i j items => exact Bool.xor_left_comm _ _ _
  | trans _ _ ih ih' => exact ih.trans ih'

theorem xorAll_map {κ : Type*} (items : List κ) (g : κ → ι) (f : ι → Bool) :
    xorAll (items.map g) f = xorAll items fun i ↦ f (g i) := List.foldr_map ..

/-- The parity of a word is the exclusive or of its bits. -/
theorem countOnes_parity (width word : ℕ) :
    (countOnes width word % 2 == 1) = xorAll (List.range width) word.testBit := by
  induction width with
  | zero => rfl
  | succ width ih =>
    have hsum : countOnes (width + 1) word = countOnes width word + (word.testBit width).toNat :=
      Finset.sum_range_succ _ _
    rw [List.range_succ, xorAll_append, ← ih, hsum, xorAll_cons]
    change _ = (_ ^^ (word.testBit width ^^ false))
    rcases Nat.mod_two_eq_zero_or_one (countOnes width word) with h | h <;>
      cases word.testBit width <;> simp [Nat.add_mod, h]

end XorAll

end Sdrmm.Bits
