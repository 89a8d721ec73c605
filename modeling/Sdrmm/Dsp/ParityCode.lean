import Mathlib.Data.Nat.Bitwise
import Sdrmm.Lib.Bits

/-!
# Codes given by parity masks

`ParityCode` of `dsp/src/fec/block.rs`.  A syndrome names its error as long as the columns of the
masks differ from each other and have more than one bit; then every single flipped bit is put back.
-/

namespace Sdrmm.Dsp

open Bits

structure ParityCode where
  k : ℕ
  parity : List ℕ

namespace ParityCode

def hamming13_9 : ParityCode where
  k := 9
  parity := [0b001101011, 0b011010111, 0b110101111, 0b100110101]

def hamming15_11 : ParityCode where
  k := 11
  parity := [0b00110101111, 0b01101011110, 0b11010111100, 0b10011010111]

variable (code : ParityCode)

def n : ℕ := code.k + code.parity.length

def mask (j : ℕ) : ℕ := code.parity.getD j 0

def sum (word : List Bool) (mask : ℕ) : Bool :=
  xorAll (List.range code.k) fun i ↦ mask.testBit i && word.getD i false

def encode (word : List Bool) : List Bool :=
  (List.range code.parity.length).foldl
    (fun word j ↦ word.set (code.k + j) (code.sum word (code.mask j))) word

def syndrome (word : List Bool) : ℕ :=
  assemble code.parity.length fun j ↦ code.sum word (code.mask j) != word.getD (code.k + j) false

def column (i : ℕ) : ℕ := assemble code.parity.length fun j ↦ (code.mask j).testBit i

/-- The word after a correction and the number of bits corrected. -/
def decode (word : List Bool) : Option (List Bool × ℕ) :=
  let syndrome := code.syndrome word
  if syndrome = 0 then some (word, 0)
  else if countOnes 32 syndrome = 1 then
    some (word.modify (code.k + trailingZeros 32 syndrome) not, 1)
  else
    match (List.range code.k).find? fun i ↦ code.column i == syndrome with
    | some i => some (word.modify i not, 1)
    | none => none

/-- The parity bits are those of the data bits. -/
def Valid (word : List Bool) : Prop :=
  ∀ j < code.parity.length, code.sum word (code.mask j) = word.getD (code.k + j) false

/-- The columns name the data bit in error. -/
def Separates : Prop :=
  code.parity.length ≤ 32 ∧ ∀ i < code.k, code.column i ≠ 0 ∧ countOnes 32 (code.column i) ≠ 1 ∧
    ∀ other < code.k, code.column other = code.column i → other = i

instance : Decidable code.Separates := by
  unfold Separates
  infer_instance

theorem hamming13_9_separates : hamming13_9.Separates := by decide

theorem hamming15_11_separates : hamming15_11.Separates := by decide

variable {code}

/-! ## Encoding -/

theorem sum_congr {first second : List Bool}
    (hsame : ∀ i < code.k, first.getD i false = second.getD i false) (mask : ℕ) :
    code.sum first mask = code.sum second mask := by
  apply xorAll_congr
  intro i hi
  rw [hsame i (List.mem_range.mp hi)]

/-- The word after the first parity bits have been written. -/
theorem encode_first {word : List Bool} (hword : word.length = code.n) {count : ℕ}
    (hcount : count ≤ code.parity.length) :
    let encoded := (List.range count).foldl
      (fun word j ↦ word.set (code.k + j) (code.sum word (code.mask j))) word
    encoded.length = word.length ∧ ∀ i, encoded.getD i false =
      if code.k ≤ i ∧ i < code.k + count then code.sum word (code.mask (i - code.k))
      else word.getD i false := by
  induction count with
  | zero =>
    refine ⟨rfl, fun i ↦ ?_⟩
    rw [if_neg (by omega)]
    rfl
  | succ count ih =>
    obtain ⟨hlength, hbits⟩ := ih (Nat.le_of_succ_le hcount)
    have hplace : code.k + count < word.length := by
      rw [hword, n]
      omega
    rw [List.range_succ, List.foldl_append]
    dsimp only [List.foldl_cons, List.foldl_nil]
    generalize (List.range count).foldl
      (fun word j ↦ word.set (code.k + j) (code.sum word (code.mask j))) word = encoded at hlength hbits
    have hsum : code.sum encoded (code.mask count) = code.sum word (code.mask count) := by
      apply sum_congr
      intro i hi
      rw [hbits, if_neg (by omega)]
    refine ⟨by rw [List.length_set, hlength], fun i ↦ ?_⟩
    rw [List.getD_eq_getElem?_getD, List.getElem?_set, hlength]
    by_cases hi : code.k + count = i
    · rw [if_pos hi, if_pos (hi ▸ hplace), if_pos (by omega), Option.getD_some, hsum, ← hi,
        Nat.add_sub_cancel_left]
    · rw [if_neg hi, ← List.getD_eq_getElem?_getD, hbits]
      by_cases hin : code.k ≤ i ∧ i < code.k + count
      · rw [if_pos hin, if_pos (by omega)]
      · rw [if_neg hin, if_neg (by omega)]

theorem length_encode {word : List Bool} (hword : word.length = code.n) :
    (code.encode word).length = code.n := (encode_first hword le_rfl).1.trans hword

theorem encode_data {word : List Bool} (hword : word.length = code.n) {i : ℕ} (hi : i < code.k) :
    (code.encode word).getD i false = word.getD i false := by
  rw [encode, (encode_first hword le_rfl).2, if_neg (by omega)]

theorem encode_valid {word : List Bool} (hword : word.length = code.n) :
    code.Valid (code.encode word) := by
  intro j hj
  rw [sum_congr fun i hi ↦ encode_data hword hi]
  rw [encode, (encode_first hword le_rfl).2, if_pos (by omega), Nat.add_sub_cancel_left]

/-! ## Decoding -/

theorem syndrome_eq_zero_iff (word : List Bool) : code.syndrome word = 0 ↔ code.Valid word := by
  constructor
  · intro hzero j hj
    have hbit := congrArg (Nat.testBit · j) hzero
    simp only [syndrome, testBit_assemble, decide_eq_true hj, Bool.true_and, Nat.zero_testBit] at hbit
    exact bne_eq_false_iff_eq.mp hbit
  · intro hvalid
    apply Nat.eq_of_testBit_eq
    intro j
    rw [syndrome, testBit_assemble, Nat.zero_testBit]
    by_cases hj : j < code.parity.length
    · rw [hvalid j hj, bne_self_eq_false, Bool.and_false]
    · rw [decide_eq_false hj, Bool.false_and]

theorem decode_valid {word : List Bool} (hvalid : code.Valid word) :
    code.decode word = some (word, 0) := if_pos ((syndrome_eq_zero_iff word).mpr hvalid)

theorem decode_quiet {word decoded : List Bool} (hdecode : code.decode word = some (decoded, 0)) :
    decoded = word ∧ code.Valid word := by
  unfold decode at hdecode
  dsimp only at hdecode
  split at hdecode
  · rename_i hzero
    exact ⟨(congrArg Prod.fst (Option.some.inj hdecode)).symm, (syndrome_eq_zero_iff word).mp hzero⟩
  · split at hdecode
    · exact absurd (congrArg Prod.snd (Option.some.inj hdecode)) Nat.one_ne_zero
    · split at hdecode
      · exact absurd (congrArg Prod.snd (Option.some.inj hdecode)) Nat.one_ne_zero
      · exact nomatch hdecode

theorem getD_modify_not {word : List Bool} {place : ℕ} (hplace : place < word.length) (i : ℕ) :
    (word.modify place not).getD i false = (word.getD i false ^^ decide (place = i)) := by
  rw [List.getD_eq_getElem?_getD, List.getD_eq_getElem?_getD, List.getElem?_modify]
  by_cases hi : place = i
  · rw [← hi, List.getElem?_eq_getElem hplace, decide_eq_true rfl, Bool.xor_true]
    simp
  · rw [decide_eq_false hi, Bool.xor_false]
    cases word[i]? with
    | none => rfl
    | some bit => simp [hi]

theorem sum_modify {word : List Bool} {place : ℕ} (hplace : place < word.length) (mask : ℕ) :
    code.sum (word.modify place not) mask =
      (code.sum word mask ^^ (decide (place < code.k) && mask.testBit place)) := by
  have hsplit : code.sum (word.modify place not) mask = (code.sum word mask ^^
      xorAll (List.range code.k) fun i ↦ decide (place = i) && mask.testBit i) := by
    rw [sum, sum, ← xorAll_xor]
    apply xorAll_congr
    intro i _
    rw [getD_modify_not hplace]
    cases mask.testBit i <;> cases decide (place = i) <;> simp
  rw [hsplit]
  congr 1
  induction code.k with
  | zero => rfl
  | succ k ih =>
    rw [List.range_succ, xorAll_append, ih, xorAll_cons]
    rcases lt_trichotomy place k with h | rfl | h
    · simp [h, h.ne, Nat.lt_succ_of_lt h, xorAll]
    · simp [xorAll]
    · simp [h.ne', Nat.not_lt.mpr h.le, Nat.not_lt.mpr (Nat.succ_le_of_lt h), xorAll]

/-- The syndrome of a word with one bit flipped. -/
theorem syndrome_modify {word : List Bool} (hword : word.length = code.n) (hvalid : code.Valid word)
    {place : ℕ} (hplace : place < code.n) : code.syndrome (word.modify place not) =
      if place < code.k then code.column place else 2 ^ (place - code.k) := by
  have hlength : place < word.length := hword ▸ hplace
  rw [n] at hplace
  apply Nat.eq_of_testBit_eq
  intro j
  rw [syndrome, testBit_assemble, sum_modify hlength, getD_modify_not hlength]
  by_cases hj : j < code.parity.length
  · rw [decide_eq_true hj, Bool.true_and, hvalid j hj]
    by_cases hdata : place < code.k
    · rw [if_pos hdata, column, testBit_assemble, decide_eq_true hj, decide_eq_true hdata,
        decide_eq_false (by omega)]
      cases word.getD (code.k + j) false <;> cases (code.mask j).testBit place <;> rfl
    · rw [if_neg hdata, Nat.testBit_two_pow, decide_eq_false hdata, Bool.false_and, Bool.xor_false]
      have hsame : decide (place = code.k + j) = decide (place - code.k = j) := by
        rw [decide_eq_decide]
        omega
      rw [hsame]
      cases word.getD (code.k + j) false <;> cases decide (place - code.k = j) <;> rfl
  · rw [decide_eq_false hj, Bool.false_and]
    split
    · rw [column, testBit_assemble, decide_eq_false hj, Bool.false_and]
    · rw [Nat.testBit_two_pow, decide_eq_false (by omega)]

/-- One flipped bit is put back. -/
theorem decode_modify (hseparates : code.Separates) {word : List Bool} (hword : word.length = code.n)
    (hvalid : code.Valid word) {place : ℕ} (hplace : place < code.n) :
    code.decode (word.modify place not) = some (word, 1) := by
  obtain ⟨hwidth, hcolumns⟩ := hseparates
  have hback : (word.modify place not).modify place not = word := by
    rw [List.modify_modify_eq]
    have hself : not ∘ not = id := funext Bool.not_not
    rw [hself, List.modify_id]
  have hsyndrome := syndrome_modify hword hvalid hplace
  rw [n] at hplace
  unfold decode
  dsimp only
  rw [hsyndrome]
  by_cases hdata : place < code.k
  · obtain ⟨hnonzero, hheavy, hunique⟩ := hcolumns place hdata
    have hfind : (List.range code.k).find? (fun i ↦ code.column i == code.column place) =
        some place := by
      cases hfound : (List.range code.k).find? fun i ↦ code.column i == code.column place with
      | none =>
        have hmiss := List.find?_eq_none.mp hfound place (List.mem_range.mpr hdata)
        exact absurd (beq_self_eq_true _) hmiss
      | some other =>
        have hequal := List.find?_some hfound
        rw [beq_iff_eq] at hequal
        rw [hunique other (List.mem_range.mp (List.mem_of_find?_eq_some hfound)) hequal]
    rw [if_pos hdata, if_neg hnonzero, if_neg hheavy, hfind]
    dsimp only
    rw [hback]
  · have hbit : place - code.k < 32 := by omega
    have hones : countOnes 32 (2 ^ (place - code.k)) = 1 := countOnes_two_pow hbit
    rw [if_neg hdata, if_neg (Nat.two_pow_pos _).ne', if_pos hones, trailingZeros_two_pow hbit,
      Nat.add_sub_cancel' (Nat.not_lt.mp hdata), hback]

end ParityCode

end Sdrmm.Dsp
