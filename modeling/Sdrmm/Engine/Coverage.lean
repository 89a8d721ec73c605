import Mathlib.Data.Nat.Count
import Mathlib.Tactic

/-!
# Sets of channels as bit vectors

`Coverage` of `engine/src/placement/coverage.rs`: a set of channel numbers below a fixed total, kept
in 64-bit words.  `bits` is the set it stands for, and each operation is the one on sets.
-/

namespace Sdrmm.Allocator

/-- A set of numbers below `total`, with the number of words fixed by the type. -/
structure Coverage (total : ℕ) where
  words : List (BitVec 64)
  length_eq : words.length = (total + 63) / 64
  deriving DecidableEq

namespace Coverage

variable {total : ℕ}

def countOnes (word : BitVec 64) : ℕ := Nat.count (fun i ↦ word.getLsbD i = true) 64

def empty (total : ℕ) : Coverage total where
  words := List.replicate ((total + 63) / 64) 0#64
  length_eq := List.length_replicate

def insert (coverage : Coverage total) (index : ℕ) : Coverage total where
  words := coverage.words.modify (index / 64) fun word ↦ word ||| 1#64 <<< (index % 64)
  length_eq := by rw [List.length_modify, coverage.length_eq]

def contains (coverage : Coverage total) (index : ℕ) : Bool :=
  coverage.words.getD (index / 64) 0#64 &&& 1#64 <<< (index % 64) ≠ 0#64

def count (coverage : Coverage total) : ℕ := (coverage.words.map countOnes).sum

def union (a b : Coverage total) : Coverage total where
  words := List.zipWith (fun x y ↦ x ||| y) a.words b.words
  length_eq := by rw [List.length_zipWith, a.length_eq, b.length_eq, Nat.min_self]

/-- How many members of `a` are not in `covered`. -/
def gain (a covered : Coverage total) : ℕ :=
  (List.zipWith (fun x y ↦ countOnes (x &&& ~~~y)) a.words covered.words).sum

def subsetOf (a b : Coverage total) : Bool :=
  (List.zipWith (fun x y ↦ decide (x &&& ~~~y = 0#64)) a.words b.words).all id

/-! ## Words and bits -/

/-- Bit `i` of the concatenated words. -/
def bit (words : List (BitVec 64)) (i : ℕ) : Bool := (words.getD (i / 64) 0#64).getLsbD (i % 64)

theorem getLsbD_mask {j : ℕ} (k : ℕ) (hj : j < 64) :
    (1#64 <<< k).getLsbD j = decide (j = k) := by
  rw [BitVec.getLsbD_shiftLeft, BitVec.getLsbD_one]
  rcases lt_trichotomy j k with hlt | rfl | hgt
  · simp [hlt, hlt.ne]
  · simp [hj]
  · have hpos : ¬j - k = 0 := by omega
    simp [hpos, hgt.ne']

theorem contains_eq_bit (coverage : Coverage total) (i : ℕ) :
    coverage.contains i = bit coverage.words i := by
  have hmod : i % 64 < 64 := Nat.mod_lt _ (by decide)
  simp only [contains, bit]
  generalize coverage.words.getD (i / 64) 0#64 = word
  have hmask (j : ℕ) (hj : j < 64) : (word &&& 1#64 <<< (i % 64)).getLsbD j =
      (word.getLsbD j && decide (j = i % 64)) := by
    rw [BitVec.getLsbD_and, getLsbD_mask _ hj]
  cases hbit : word.getLsbD (i % 64) with
  | false =>
    refine decide_eq_false (not_not.mpr (BitVec.eq_of_getLsbD_eq ?_))
    intro j hj
    rw [hmask j hj, BitVec.getLsbD_zero]
    by_cases hji : j = i % 64
    · rw [hji, hbit, Bool.false_and]
    · rw [decide_eq_false hji, Bool.and_false]
  | true =>
    refine decide_eq_true ?_
    intro hzero
    have hset := hmask (i % 64) hmod
    rw [hzero, hbit, BitVec.getLsbD_zero, decide_eq_true rfl] at hset
    exact absurd hset (by decide)

theorem sum_countOnes (words : List (BitVec 64)) :
    (words.map countOnes).sum = Nat.count (fun i ↦ bit words i = true) (64 * words.length) := by
  induction words with
  | nil => simp
  | cons word words ih =>
    rw [List.map_cons, List.sum_cons, List.length_cons, Nat.mul_succ, Nat.add_comm (64 * _),
      Nat.count_add, ih]
    have hfirst : Nat.count (fun i ↦ bit (word :: words) i = true) 64 = countOnes word := by
      rw [countOnes, Nat.count_eq_card_filter_range, Nat.count_eq_card_filter_range]
      refine congrArg Finset.card ?_
      refine Finset.filter_congr ?_
      intro i hi
      have hlt := Finset.mem_range.mp hi
      rw [bit, Nat.div_eq_of_lt hlt, Nat.mod_eq_of_lt hlt, List.getD_cons_zero]
    have hrest (i : ℕ) : bit (word :: words) (64 + i) = bit words i := by
      unfold bit
      rw [Nat.add_mod_left, Nat.add_div_left i (by decide), List.getD_cons_succ]
    simp only [hfirst, hrest]

/-- The set a coverage stands for. -/
def bits (coverage : Coverage total) : Finset ℕ :=
  (Finset.range (64 * coverage.words.length)).filter fun i ↦ bit coverage.words i = true

theorem mem_bits {coverage : Coverage total} {i : ℕ} :
    i ∈ coverage.bits ↔ coverage.contains i = true := by
  rw [contains_eq_bit, bits, Finset.mem_filter, Finset.mem_range, and_iff_right_iff_imp]
  intro hbit
  by_contra hge
  have hbeyond : coverage.words.length ≤ i / 64 := by omega
  rw [bit, List.getD_eq_getElem?_getD, List.getElem?_eq_none hbeyond, Option.getD_none] at hbit
  simp at hbit

theorem count_eq_card (coverage : Coverage total) : coverage.count = coverage.bits.card := by
  rw [count, sum_countOnes, Nat.count_eq_card_filter_range, bits]

theorem bits_empty : (empty total).bits = ∅ := by
  refine Finset.eq_empty_of_forall_notMem ?_
  intro i hi
  rw [mem_bits, contains_eq_bit, bit, empty, List.getD_eq_getElem?_getD,
    List.getElem?_replicate] at hi
  split_ifs at hi <;> simp at hi

theorem bit_zipWith (op : BitVec 64 → BitVec 64 → BitVec 64) {a b : List (BitVec 64)}
    (hlength : a.length = b.length) {i : ℕ} (hi : i < 64 * a.length) :
    bit (List.zipWith op a b) i =
      (op (a.getD (i / 64) 0#64) (b.getD (i / 64) 0#64)).getLsbD (i % 64) := by
  have hlt : i / 64 < a.length := by omega
  have hlt' : i / 64 < b.length := by omega
  rw [bit, List.getD_eq_getElem?_getD, List.getD_eq_getElem?_getD, List.getD_eq_getElem?_getD,
    List.getElem?_zipWith, List.getElem?_eq_getElem hlt, List.getElem?_eq_getElem hlt']
  rfl

variable (a b : Coverage total)

theorem lengths_eq : a.words.length = b.words.length := a.length_eq.trans b.length_eq.symm

theorem mem_range_of_mem {coverage : Coverage total} {i : ℕ} (hi : i ∈ coverage.bits) :
    i < 64 * coverage.words.length := by
  rw [bits, Finset.mem_filter, Finset.mem_range] at hi
  exact hi.1

theorem bits_union : (a.union b).bits = a.bits ∪ b.bits := by
  have hlength := lengths_eq a b
  have hunion : (a.union b).words.length = a.words.length :=
    (a.union b).length_eq.trans a.length_eq.symm
  ext i
  rw [Finset.mem_union, bits, bits, bits, Finset.mem_filter, Finset.mem_filter, Finset.mem_filter,
    Finset.mem_range, Finset.mem_range, Finset.mem_range, hunion, ← hlength]
  by_cases hi : i < 64 * a.words.length
  · have hbit : bit (a.union b).words i = (bit a.words i || bit b.words i) := by
      rw [union, bit_zipWith _ hlength hi, BitVec.getLsbD_or, bit, bit]
    simp only [hi, true_and, hbit, Bool.or_eq_true]
  · simp only [hi, false_and, or_self]

theorem bit_difference {i : ℕ} (hi : i < 64 * a.words.length) :
    bit (List.zipWith (fun x y ↦ x &&& ~~~y) a.words b.words) i =
      (bit a.words i && !bit b.words i) := by
  have hmod : i % 64 < 64 := Nat.mod_lt _ (by decide)
  rw [bit_zipWith _ (lengths_eq a b) hi, BitVec.getLsbD_and, BitVec.getLsbD_not, bit, bit]
  simp [hmod]

theorem gain_eq_card : a.gain b = (a.bits \ b.bits).card := by
  have hlength := lengths_eq a b
  have hwords : a.gain b =
      ((List.zipWith (fun x y ↦ x &&& ~~~y) a.words b.words).map countOnes).sum := by
    rw [gain, List.map_zipWith]
  have hzip : (List.zipWith (fun x y ↦ x &&& ~~~y) a.words b.words).length = a.words.length := by
    rw [List.length_zipWith, hlength, Nat.min_self]
  rw [hwords, sum_countOnes, Nat.count_eq_card_filter_range, hzip]
  congr 1
  ext i
  rw [Finset.mem_filter, Finset.mem_range, Finset.mem_sdiff, bits, bits, Finset.mem_filter,
    Finset.mem_filter, Finset.mem_range, Finset.mem_range, ← hlength]
  by_cases hi : i < 64 * a.words.length
  · simp only [hi, true_and, bit_difference a b hi, Bool.and_eq_true, Bool.not_eq_true',
      Bool.not_eq_true]
  · simp only [hi, false_and]

theorem subsetOf_iff : a.subsetOf b = true ↔ a.bits ⊆ b.bits := by
  have hlength := lengths_eq a b
  have hzip : (List.zipWith (fun x y ↦ x &&& ~~~y) a.words b.words).length = a.words.length := by
    rw [List.length_zipWith, hlength, Nat.min_self]
  have hwords : a.subsetOf b = true ↔
      ∀ word ∈ List.zipWith (fun x y ↦ x &&& ~~~y) a.words b.words, word = 0#64 := by
    rw [subsetOf, List.all_eq_true, ← List.map_zipWith (f := fun word : BitVec 64 ↦
      decide (word = 0#64)) (g := fun x y ↦ x &&& ~~~y)]
    simp only [List.mem_map, forall_exists_index, and_imp, forall_apply_eq_imp_iff₂, id_eq,
      decide_eq_true_iff]
  rw [hwords]
  constructor
  · intro hall i hi
    have hlt := mem_range_of_mem hi
    have hdifference := bit_difference a b hlt
    have hindex : i / 64 < (List.zipWith (fun x y ↦ x &&& ~~~y) a.words b.words).length := by
      omega
    have hzero := hall _ (List.getElem_mem hindex)
    rw [bit, List.getD_eq_getElem?_getD, List.getElem?_eq_getElem hindex, Option.getD_some, hzero,
      BitVec.getLsbD_zero] at hdifference
    rw [mem_bits, contains_eq_bit] at hi ⊢
    rw [hi, Bool.true_and] at hdifference
    simpa using hdifference.symm
  · intro hsubset word hmem
    obtain ⟨j, hj, rfl⟩ := List.mem_iff_getElem.mp hmem
    refine BitVec.eq_of_getLsbD_eq ?_
    intro k hk
    have hlt : 64 * j + k < 64 * a.words.length := by omega
    have hdifference := bit_difference a b hlt
    rw [bit, show (64 * j + k) / 64 = j by omega, show (64 * j + k) % 64 = k by omega,
      List.getD_eq_getElem?_getD, List.getElem?_eq_getElem hj, Option.getD_some] at hdifference
    rw [hdifference, BitVec.getLsbD_zero]
    by_contra hne
    rw [Bool.not_eq_false, Bool.and_eq_true, Bool.not_eq_true'] at hne
    have hin : 64 * j + k ∈ b.bits := hsubset (by rw [mem_bits, contains_eq_bit]; exact hne.1)
    rw [mem_bits, contains_eq_bit, hne.2] at hin
    exact absurd hin (by decide)

theorem bits_insert {index : ℕ} (hindex : index < total) :
    (a.insert index).bits = Insert.insert index a.bits := by
  have hwords : index / 64 < a.words.length := by
    rw [a.length_eq]
    omega
  ext i
  have hmod : i % 64 < 64 := Nat.mod_lt _ (by decide)
  rw [Finset.mem_insert, mem_bits, mem_bits, contains_eq_bit, contains_eq_bit, bit, bit, insert,
    List.getD_eq_getElem?_getD, List.getElem?_modify]
  by_cases hword : index / 64 = i / 64
  · have hmem : i / 64 < a.words.length := hword ▸ hwords
    have hsame : i = index ↔ i % 64 = index % 64 := by omega
    simp only [hword, if_true, List.getElem?_eq_getElem hmem, Option.map_eq_map,
      Option.map_some, Option.getD_some, BitVec.getLsbD_or, getLsbD_mask _ hmod, Bool.or_eq_true, decide_eq_true_iff, hsame,
      List.getD_eq_getElem?_getD]
    exact or_comm
  · have hne : ¬i = index := fun h ↦ hword (by rw [h])
    simp only [hword, if_false, id_map', hne, false_or, List.getD_eq_getElem?_getD]

end Coverage

end Sdrmm.Allocator
