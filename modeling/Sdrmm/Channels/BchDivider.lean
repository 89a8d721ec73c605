import Sdrmm.Lib.BinaryField
import Sdrmm.Lib.Bits

/-!
# Division by a generator, a byte at a time

`Divider` of `channels/src/datv/dvbs2/bch/divider.rs` keeps the remainder in three limbs of 64 bits and takes
eight bits of the word at once, with a table of what the byte that leaves the remainder is worth.  A remainder
is read as the number whose bits it holds: shifts, masks and the byte at the top are then those of the number,
wherever the limbs part it, and both divisions give the word of less than `parity` bits that stands for the
same element as the whole word.
-/

namespace Sdrmm.Dvbs2.Bch

open Bits BinaryField

def LIMBS : ℕ := 3
def MAX_PARITY : ℕ := 64 * LIMBS

/-- The limbs, lowest first. -/
abbrev Remainder := Fin LIMBS → UInt64

namespace Remainder

/-- `value[limb]`. -/
def limb (value : Remainder) (index : ℕ) : UInt64 := if h : index < LIMBS then value ⟨index, h⟩ else 0

def bit (value : Remainder) (index : ℕ) : Bool :=
  value.limb (index / 64) >>> UInt64.ofNat (index % 64) &&& 1 == 1

/-- `value[index / 64] |= 1 << (index % 64)`. -/
def setBit (value : Remainder) (index : ℕ) : Remainder := fun limb ↦
  if limb.val = index / 64 then value limb ||| 1 <<< UInt64.ofNat (index % 64) else value limb

/-- `value[0] |= byte`. -/
def orLow (value : Remainder) (byte : UInt8) : Remainder := fun limb ↦
  if limb.val = 0 then value limb ||| byte.toUInt64 else value limb

end Remainder

open Remainder

def pack (bits : List Bool) : UInt8 := bits.foldl (fun byte bit ↦ byte <<< 1 ||| (if bit then 1 else 0)) 0

def topByte (value : Remainder) (parity : ℕ) : UInt8 :=
  let low := parity - 8
  let limb := low / 64
  let offset := low % 64
  let byte := value.limb limb >>> UInt64.ofNat offset
  (if offset > 56 ∧ limb + 1 < LIMBS then byte ||| value.limb (limb + 1) <<< UInt64.ofNat (64 - offset)
    else byte).toUInt8

def shl (value : Remainder) (count : ℕ) : Remainder := fun limb ↦
  if 0 < limb.val then
    value limb <<< UInt64.ofNat count ||| value.limb (limb.val - 1) >>> UInt64.ofNat (64 - count)
  else value limb <<< UInt64.ofNat count

def and (value mask : Remainder) : Remainder := fun limb ↦ value limb &&& mask limb

def xor (value other : Remainder) : Remainder := fun limb ↦ value limb ^^^ other limb

def lowBits (count : ℕ) : Remainder := fun limb ↦
  let bits := count - limb.val * 64
  if bits = 0 then 0 else if 64 ≤ bits then UInt64.ofNat (2 ^ 64 - 1) else 1 <<< UInt64.ofNat bits - 1

structure Divider where
  parity : ℕ
  mask : Remainder
  table : List Remainder

namespace Divider

/-- A power of the variable, reduced: the next one. -/
def nextPower (parity : ℕ) (mask base reduced : Remainder) : Remainder :=
  if reduced.bit (parity - 1) then xor (and (shl reduced 1) mask) base else and (shl reduced 1) mask

def base (generator : List Bool) (parity : ℕ) : Remainder :=
  ((List.range parity).filter fun index ↦ generator.getD index false).foldl setBit fun _ ↦ 0

def power (parity : ℕ) (mask base : Remainder) (count : ℕ) : Remainder := (nextPower parity mask base)^[count] base

def entry (power : ℕ → Remainder) (byte : ℕ) : Remainder :=
  ((List.range 8).filter fun shift ↦ byte >>> shift &&& 1 == 1).foldl
    (fun sum shift ↦ xor sum (power shift)) fun _ ↦ 0

def new (generator : List Bool) : Divider :=
  let parity := min (generator.length - 1) MAX_PARITY
  let mask := lowBits parity
  { parity := parity
    mask := mask
    table := (List.range 256).map (entry (power parity mask (base generator parity))) }

/-- One byte of the word. -/
def step (divider : Divider) (state : Remainder) (chunk : List Bool) : Remainder :=
  let top := topByte state divider.parity
  let shifted := orLow (and (shl state 8) divider.mask) (pack chunk)
  xor shifted (divider.table.getD top.toNat fun _ ↦ 0)

end Divider

/-- The whole chunks of eight. -/
def asChunks : List Bool → List (List Bool)
  | a :: b :: c :: d :: e :: f :: g :: h :: rest => [a, b, c, d, e, f, g, h] :: asChunks rest
  | _ => []

def Divider.remainder (divider : Divider) (word : List Bool) : Remainder :=
  let lead := word.take (word.length % 8)
  let rest := word.drop (word.length % 8)
  (asChunks rest).foldl divider.step (orLow (fun _ ↦ 0) (pack lead))

/-! ## Bitwise long division -/

def slowStep (generator : List Bool) (state : List Bool) (input : Bool) : List Bool :=
  let carry := state.getD (generator.length - 2) false
  let shifted := input :: state.dropLast
  if carry then List.zipWith (· ^^ ·) shifted generator else shifted

/-- The division that takes in one bit at a time, as the tests of the source have it. -/
def slowRemainder (word generator : List Bool) : List Bool :=
  word.foldl (slowStep generator) (List.replicate (generator.length - 1) false)

/-! ## Remainders as numbers -/

section Number

variable (value other : Remainder) {i count : ℕ}

/-- The number whose bits the limbs hold. -/
def Remainder.number (value : Remainder) : ℕ :=
  assemble MAX_PARITY fun i ↦ (value.limb (i / 64)).toNat.testBit (i % 64)

theorem testBit_number (i : ℕ) : value.number.testBit i =
    (decide (i < MAX_PARITY) && (value.limb (i / 64)).toNat.testBit (i % 64)) := testBit_assemble _ _ i

theorem testBit_number_of_ge (hi : MAX_PARITY ≤ i) : value.number.testBit i = false := by
  rw [testBit_number, decide_eq_false (not_lt.mpr hi), Bool.false_and]

theorem testBit_number_of_lt (hi : i < MAX_PARITY) :
    value.number.testBit i = (value.limb (i / 64)).toNat.testBit (i % 64) := by
  rw [testBit_number, decide_eq_true hi, Bool.true_and]

theorem limb_lt (hi : i < MAX_PARITY) : i / 64 < LIMBS := Nat.div_lt_of_lt_mul hi

theorem limb_of_lt {index : ℕ} (hindex : index < LIMBS) : value.limb index = value ⟨index, hindex⟩ := dif_pos hindex

theorem toNat_shiftRight_of_lt {shift : ℕ} (hshift : shift < 64) (word : UInt64) :
    (word >>> UInt64.ofNat shift).toNat = word.toNat >>> shift := by
  rw [UInt64.toNat_shiftRight, UInt64.toNat_ofNat_of_lt' (by rw [UInt64.size]; omega), Nat.mod_eq_of_lt hshift]

theorem testBit_shiftLeft_of_lt {shift : ℕ} (hshift : shift < 64) (word : UInt64) (hi : i < 64) :
    (word <<< UInt64.ofNat shift).toNat.testBit i = (decide (shift ≤ i) && word.toNat.testBit (i - shift)) := by
  rw [UInt64.toNat_shiftLeft, UInt64.toNat_ofNat_of_lt' (by rw [UInt64.size]; omega), Nat.mod_eq_of_lt hshift,
    Nat.testBit_mod_two_pow, decide_eq_true hi, Bool.true_and, Nat.testBit_shiftLeft]

theorem testBit_eq_false (word : UInt64) (hi : 64 ≤ i) : word.toNat.testBit i = false :=
  Nat.testBit_lt_two_pow (word.toNat_lt.trans_le (Nat.pow_le_pow_right two_pos hi))

theorem and_one_eq_one (word : UInt64) : (word &&& 1 == 1) = word.toNat.testBit 0 := by
  rw [Bool.eq_iff_iff, beq_iff_eq, ← UInt64.toNat_inj, UInt64.toNat_and, Nat.testBit_zero, decide_eq_true_iff]
  exact iff_of_eq (congrArg (· = 1) (Nat.and_one_is_mod _))

theorem bit_eq (hi : i < MAX_PARITY) : value.bit i = value.number.testBit i := by
  rw [testBit_number_of_lt value hi, Remainder.bit, and_one_eq_one,
    toNat_shiftRight_of_lt (Nat.mod_lt _ (by decide)), Nat.testBit_shiftRight, Nat.add_zero]

theorem number_xor : (xor value other).number = value.number ^^^ other.number := by
  apply Nat.eq_of_testBit_eq
  intro i
  rw [Nat.testBit_xor]
  rcases Nat.lt_or_ge i MAX_PARITY with hi | hi
  · rw [testBit_number_of_lt _ hi, testBit_number_of_lt _ hi, testBit_number_of_lt _ hi,
      limb_of_lt _ (limb_lt hi), limb_of_lt _ (limb_lt hi), limb_of_lt _ (limb_lt hi), xor, UInt64.toNat_xor,
      Nat.testBit_xor]
  · rw [testBit_number_of_ge _ hi, testBit_number_of_ge _ hi, testBit_number_of_ge _ hi]
    rfl

theorem number_and : (and value other).number = value.number &&& other.number := by
  apply Nat.eq_of_testBit_eq
  intro i
  rw [Nat.testBit_and]
  rcases Nat.lt_or_ge i MAX_PARITY with hi | hi
  · rw [testBit_number_of_lt _ hi, testBit_number_of_lt _ hi, testBit_number_of_lt _ hi,
      limb_of_lt _ (limb_lt hi), limb_of_lt _ (limb_lt hi), limb_of_lt _ (limb_lt hi), and, UInt64.toNat_and,
      Nat.testBit_and]
  · rw [testBit_number_of_ge _ hi, testBit_number_of_ge _ hi, testBit_number_of_ge _ hi]
    rfl

/-- A shift by up to a limb goes over from one limb to the next. -/
theorem number_shl (hpos : 0 < count) (hcount : count < 64) :
    (shl value count).number = (value.number <<< count) % 2 ^ MAX_PARITY := by
  apply Nat.eq_of_testBit_eq
  intro i
  rw [Nat.testBit_mod_two_pow, Nat.testBit_shiftLeft]
  rcases Nat.lt_or_ge i MAX_PARITY with hi | hi
  · have hmod : i % 64 < 64 := Nat.mod_lt _ (by decide)
    have hdiv : 64 * (i / 64) + i % 64 = i := Nat.div_add_mod i 64
    rw [testBit_number_of_lt _ hi, limb_of_lt _ (limb_lt hi), decide_eq_true hi, Bool.true_and, shl]
    rcases Nat.lt_or_ge (i % 64) count with hcross | hwithin
    · have hnone : (value ⟨i / 64, limb_lt hi⟩ <<< UInt64.ofNat count).toNat.testBit (i % 64) = false := by
        rw [testBit_shiftLeft_of_lt hcount _ hmod, decide_eq_false (by omega), Bool.false_and]
      rcases Nat.eq_zero_or_pos (i / 64) with hzero | hlimb
      · rw [if_neg (by simp only [hzero]; decide), hnone, decide_eq_false (by omega), Bool.false_and]
      · have hbelow : (i - count) / 64 = i / 64 - 1 := by omega
        have hplace : (i - count) % 64 = 64 - count + i % 64 := by omega
        have hlow : i - count < MAX_PARITY := by omega
        rw [if_pos hlimb, UInt64.toNat_or, Nat.testBit_or, hnone, Bool.false_or,
          toNat_shiftRight_of_lt (by omega), Nat.testBit_shiftRight, testBit_number_of_lt _ hlow, hbelow, hplace,
          decide_eq_true (by omega), Bool.true_and]
    · have hsame : (i - count) / 64 = i / 64 := by omega
      have hplace : (i - count) % 64 = i % 64 - count := by omega
      have hlow : i - count < MAX_PARITY := by omega
      have hfirst : (value ⟨i / 64, limb_lt hi⟩ <<< UInt64.ofNat count).toNat.testBit (i % 64) =
          (value ⟨i / 64, limb_lt hi⟩).toNat.testBit (i % 64 - count) := by
        rw [testBit_shiftLeft_of_lt hcount _ hmod, decide_eq_true hwithin, Bool.true_and]
      rw [testBit_number_of_lt _ hlow, hsame, hplace, limb_of_lt _ (limb_lt hi), decide_eq_true (by omega),
        Bool.true_and]
      split_ifs with hlimb
      · rw [UInt64.toNat_or, Nat.testBit_or, hfirst, toNat_shiftRight_of_lt (by omega), Nat.testBit_shiftRight,
          testBit_eq_false (i := 64 - count + i % 64) _ (by omega), Bool.or_false]
      · exact hfirst
  · rw [testBit_number_of_ge _ hi, decide_eq_false (not_lt.mpr hi), Bool.false_and]

theorem lowBits_apply (count : ℕ) {index : ℕ} (hindex : index < LIMBS) : lowBits count ⟨index, hindex⟩ =
    if count - index * 64 = 0 then 0
    else if 64 ≤ count - index * 64 then UInt64.ofNat (2 ^ 64 - 1)
    else 1 <<< UInt64.ofNat (count - index * 64) - 1 := rfl

theorem testBit_lowBits (hcount : count ≤ MAX_PARITY) : (lowBits count).number.testBit i = decide (i < count) := by
  rcases Nat.lt_or_ge i MAX_PARITY with hi | hi
  · have hmod : i % 64 < 64 := Nat.mod_lt _ (by decide)
    have hdiv : 64 * (i / 64) + i % 64 = i := Nat.div_add_mod i 64
    rw [testBit_number_of_lt _ hi, limb_of_lt _ (limb_lt hi), lowBits_apply]
    split_ifs with hnone hall
    · rw [UInt64.toNat_zero, Nat.zero_testBit, decide_eq_false (by omega)]
    · rw [UInt64.toNat_ofNat_of_lt' (by decide), Nat.testBit_two_pow_sub_one, decide_eq_true hmod,
        decide_eq_true (by omega)]
    · have hone : (1 <<< UInt64.ofNat (count - i / 64 * 64)).toNat = 2 ^ (count - i / 64 * 64) := by
        have hlt : 2 ^ (count - i / 64 * 64) < 2 ^ 64 := Nat.pow_lt_pow_right (by decide) (by omega)
        rw [UInt64.toNat_shiftLeft, UInt64.toNat_ofNat_of_lt' (by rw [UInt64.size]; omega),
          Nat.mod_eq_of_lt (show count - i / 64 * 64 < 64 by omega), UInt64.toNat_one, Nat.one_shiftLeft,
          Nat.mod_eq_of_lt hlt]
      have hle : (1 : UInt64) ≤ 1 <<< UInt64.ofNat (count - i / 64 * 64) := by
        rw [UInt64.le_iff_toNat_le, hone]
        exact Nat.one_le_two_pow
      rw [UInt64.toNat_sub_of_le _ _ hle, hone, UInt64.toNat_one,
        Nat.testBit_two_pow_sub_one]
      exact decide_eq_decide.mpr (by omega)
  · rw [testBit_number_of_ge _ hi, decide_eq_false (by omega)]

theorem number_and_lowBits (hcount : count ≤ MAX_PARITY) :
    (and value (lowBits count)).number = value.number % 2 ^ count := by
  apply Nat.eq_of_testBit_eq
  intro i
  rw [number_and, Nat.testBit_and, testBit_lowBits hcount, Nat.testBit_mod_two_pow, Bool.and_comm]

theorem orLow_apply (byte : UInt8) {index : ℕ} (hindex : index < LIMBS) : value.orLow byte ⟨index, hindex⟩ =
    if index = 0 then value ⟨index, hindex⟩ ||| byte.toUInt64 else value ⟨index, hindex⟩ := rfl

theorem testBit_orLow (byte : UInt8) (i : ℕ) :
    (value.orLow byte).number.testBit i = (value.number.testBit i || byte.toNat.testBit i) := by
  have hbyte : byte.toNat < 2 ^ 8 := byte.toNat_lt
  rcases Nat.lt_or_ge i MAX_PARITY with hi | hi
  · rw [testBit_number_of_lt _ hi, testBit_number_of_lt _ hi, limb_of_lt _ (limb_lt hi), limb_of_lt _ (limb_lt hi),
      orLow_apply]
    split_ifs with hzero
    · have hsmall : i % 64 = i := Nat.mod_eq_of_lt (by omega)
      rw [UInt64.toNat_or, Nat.testBit_or, hsmall, UInt8.toNat_toUInt64]
    · have hlarge : 64 ≤ i := by omega
      rw [Nat.testBit_lt_two_pow (hbyte.trans_le (Nat.pow_le_pow_right two_pos (show 8 ≤ i by omega))),
        Bool.or_false]
  · have hlarge : 8 ≤ i := le_trans (by decide) hi
    rw [testBit_number_of_ge _ hi, testBit_number_of_ge _ hi,
      Nat.testBit_lt_two_pow (hbyte.trans_le (Nat.pow_le_pow_right two_pos hlarge))]
    rfl

/-- The byte at the top may lie in two limbs. -/
theorem toNat_topByte {parity : ℕ} (hlow : 8 ≤ parity) (hhigh : parity ≤ MAX_PARITY) :
    (topByte value parity).toNat = value.number >>> (parity - 8) % 2 ^ 8 := by
  apply Nat.eq_of_testBit_eq
  intro i
  rw [Nat.testBit_mod_two_pow, Nat.testBit_shiftRight, topByte, UInt64.toNat_toUInt8, Nat.testBit_mod_two_pow]
  rcases Nat.lt_or_ge i 8 with hi | hi
  · rw [decide_eq_true hi, Bool.true_and, Bool.true_and]
    have hmax : MAX_PARITY = 192 := rfl
    have hlimbs : LIMBS = 3 := rfl
    have hmod : (parity - 8) % 64 < 64 := Nat.mod_lt _ (by decide)
    have hplace : parity - 8 + i < MAX_PARITY := by omega
    rw [testBit_number_of_lt _ hplace]
    rcases Nat.lt_or_ge ((parity - 8) % 64 + i) 64 with hwithin | hcross
    · have hdiv : (parity - 8 + i) / 64 = (parity - 8) / 64 := by omega
      have hrem : (parity - 8 + i) % 64 = (parity - 8) % 64 + i := by omega
      rw [hdiv, hrem]
      split_ifs with htwo
      · rw [UInt64.toNat_or, Nat.testBit_or, toNat_shiftRight_of_lt hmod, Nat.testBit_shiftRight,
          testBit_shiftLeft_of_lt (by omega) _ (by omega), decide_eq_false (by omega), Bool.false_and, Bool.or_false]
      · rw [toNat_shiftRight_of_lt hmod, Nat.testBit_shiftRight]
    · have hdiv : (parity - 8 + i) / 64 = (parity - 8) / 64 + 1 := by omega
      have hrem : (parity - 8 + i) % 64 = (parity - 8) % 64 + i - 64 := by omega
      have htwo : (parity - 8) % 64 > 56 ∧ (parity - 8) / 64 + 1 < LIMBS := by omega
      rw [hdiv, hrem, if_pos htwo, UInt64.toNat_or, Nat.testBit_or, toNat_shiftRight_of_lt hmod,
        Nat.testBit_shiftRight, testBit_eq_false _ hcross, Bool.false_or,
        testBit_shiftLeft_of_lt (by omega) _ (by omega), decide_eq_true (by omega), Bool.true_and]
      congr 1
      omega
  · rw [decide_eq_false (not_lt.mpr hi), Bool.false_and, Bool.false_and]

end Number

theorem number_zero : (Remainder.number fun _ ↦ 0) = 0 := by
  apply Nat.eq_of_testBit_eq
  intro i
  rcases Nat.lt_or_ge i MAX_PARITY with hi | hi
  · rw [testBit_number_of_lt _ hi, limb_of_lt _ (limb_lt hi), UInt64.toNat_zero, Nat.zero_testBit, Nat.zero_testBit]
  · rw [testBit_number_of_ge _ hi, Nat.zero_testBit]

/-! ## Bits as numbers -/

/-- The number of some bits, lowest first. -/
def numberOf (bits : List Bool) : ℕ := assemble bits.length fun i ↦ bits.getD i false

theorem testBit_numberOf (bits : List Bool) (i : ℕ) : (numberOf bits).testBit i = bits.getD i false := by
  rw [numberOf, testBit_assemble]
  rcases Nat.lt_or_ge i bits.length with hi | hi
  · rw [decide_eq_true hi, Bool.true_and]
  · rw [decide_eq_false (not_lt.mpr hi), Bool.false_and, List.getD_eq_default _ _ hi]

theorem numberOf_lt (bits : List Bool) : numberOf bits < 2 ^ bits.length := by
  apply Nat.lt_pow_two_of_testBit
  intro i hi
  rw [testBit_numberOf, List.getD_eq_default _ _ hi]

/-- The number of the bits of a word, highest first. -/
def wordNumber (word : List Bool) : ℕ := word.foldl (fun number bit ↦ 2 * number + bit.toNat) 0

theorem wordNumber_snoc (word : List Bool) (bit : Bool) :
    wordNumber (word ++ [bit]) = 2 * wordNumber word + bit.toNat := List.foldl_append ..

theorem toNat_pack {bits : List Bool} (hlength : bits.length ≤ 8) :
    (pack bits).toNat = wordNumber bits ∧ wordNumber bits < 2 ^ bits.length := by
  induction bits using List.reverseRecOn with
  | nil => exact ⟨rfl, by decide⟩
  | append_singleton bits bit ih =>
    rw [List.length_append, List.length_singleton] at hlength
    obtain ⟨hpack, hlt⟩ := ih (by omega)
    have hhalf : wordNumber bits < 2 ^ 7 := hlt.trans_le (Nat.pow_le_pow_right two_pos (by omega))
    have hshift : (pack bits <<< 1).toNat = 2 * wordNumber bits := by
      rw [UInt8.toNat_shiftLeft, hpack, Nat.shiftLeft_eq]
      change wordNumber bits * 2 ^ 1 % 2 ^ 8 = _
      omega
    constructor
    · rw [wordNumber_snoc, pack, List.foldl_append]
      change (pack bits <<< 1 ||| (if bit then 1 else 0)).toNat = _
      rw [UInt8.toNat_or, hshift]
      cases bit with
      | false => exact Nat.or_zero _
      | true => exact (Nat.two_pow_add_eq_or_of_lt (i := 1) (b := 1) (by decide) (wordNumber bits)).symm
    · rw [wordNumber_snoc, List.length_append, List.length_singleton, pow_succ]
      have hbit : bit.toNat ≤ 1 := Bool.toNat_le bit
      omega

/-! ## What the numbers stand for -/

section Element

variable {p parity : ℕ}

theorem element_shiftLeft (word count : ℕ) :
    element p (word <<< count) = AdjoinRoot.root (bitPoly p) ^ count * element p word := by
  induction count with
  | zero => rw [Nat.shiftLeft_zero, pow_zero, one_mul]
  | succ count ih =>
    rw [Nat.shiftLeft_succ, element_double, ih, pow_succ']
    exact (mul_assoc ..).symm

theorem eq_of_element_xor {a b : ℕ} (hzero : element p (a ^^^ b) = 0) : element p a = element p b := by
  rw [element_xor] at hzero
  calc
    element p a = element p a + (element p b + element p b) := by rw [add_self_eq_zero, add_zero]
    _ = element p b := by rw [← add_assoc, hzero, zero_add]

/-- What is shifted out of a remainder and what stays. -/
theorem split_at_parity (number parity : ℕ) :
    number = (number >>> parity) <<< parity ^^^ number % 2 ^ parity := by
  apply Nat.eq_of_testBit_eq
  intro i
  rw [Nat.testBit_xor, Nat.testBit_shiftLeft, Nat.testBit_shiftRight, Nat.testBit_mod_two_pow]
  rcases Nat.lt_or_ge i parity with hi | hi
  · rw [decide_eq_true hi, decide_eq_false (not_le.mpr hi), Bool.false_and, Bool.true_and, Bool.false_xor]
  · rw [decide_eq_false (not_lt.mpr hi), decide_eq_true hi, Bool.true_and, Bool.false_and, Bool.xor_false,
      Nat.add_sub_cancel' hi]

theorem mod_two_pow_succ_xor (number count : ℕ) :
    number % 2 ^ (count + 1) = number % 2 ^ count ^^^ (number.testBit count).toNat <<< count := by
  apply Nat.eq_of_testBit_eq
  intro i
  rw [Nat.testBit_xor, testBit_shiftLeft_toNat, Nat.testBit_mod_two_pow, Nat.testBit_mod_two_pow]
  rcases lt_trichotomy i count with hi | rfl | hi
  · rw [decide_eq_true (Nat.lt_succ_of_lt hi), decide_eq_true hi, decide_eq_false hi.ne, Bool.true_and,
      Bool.false_and, Bool.xor_false]
  · rw [decide_eq_true (Nat.lt_succ_self i), decide_eq_false (lt_irrefl i), decide_eq_true rfl, Bool.true_and,
      Bool.false_and, Bool.false_xor]
  · rw [decide_eq_false (by omega), decide_eq_false (by omega), decide_eq_false (by omega)]
    rfl

variable (hdegree : HasDegree parity p)

include hdegree

theorem split_generator : p = 2 ^ parity ^^^ p % 2 ^ parity := by
  have htop : p >>> parity = 1 := by
    rw [Nat.shiftRight_eq_div_pow]
    apply Nat.div_eq_of_lt_le
    · rw [one_mul]
      exact hdegree.low
    · rw [← pow_succ']
      exact hdegree.high
  have hsplit := split_at_parity p parity
  rwa [htop, Nat.one_shiftLeft] at hsplit

/-- The generator without its leading bit is worth the power that it leads with. -/
theorem element_base : element p (p % 2 ^ parity) = AdjoinRoot.root (bitPoly p) ^ parity := by
  have hzero : element p (2 ^ parity ^^^ p % 2 ^ parity) = 0 := by
    rw [← split_generator hdegree]
    exact element_self
  rw [← eq_of_element_xor hzero, ← Nat.one_shiftLeft, element_shiftLeft, element_one, mul_one]

theorem doubled_eq {number : ℕ} (hnumber : number < 2 ^ parity) (hpos : 0 < parity) :
    doubled parity p number =
      if number.testBit (parity - 1) then 2 * number % 2 ^ parity ^^^ p % 2 ^ parity
      else 2 * number % 2 ^ parity := by
  have hlt := doubled_lt hdegree hnumber
  have hcarry : (2 * number).testBit parity = number.testBit (parity - 1) := by
    rw [← Nat.sub_add_cancel hpos, Nat.testBit_succ, Nat.mul_div_cancel_left _ two_pos, Nat.add_sub_cancel]
  rw [← Nat.mod_eq_of_lt hlt, doubled, hcarry]
  split_ifs
  · exact Nat.xor_mod_two_pow
  · rfl

end Element

/-! ## The table -/

section Table

variable {generator : List Bool} {parity : ℕ}

theorem testBit_setBit (value : Remainder) {place : ℕ} (hplace : place < MAX_PARITY) (i : ℕ) :
    (value.setBit place).number.testBit i = (value.number.testBit i || decide (i = place)) := by
  rcases Nat.lt_or_ge i MAX_PARITY with hi | hi
  · rw [testBit_number_of_lt _ hi, testBit_number_of_lt _ hi, limb_of_lt _ (limb_lt hi), limb_of_lt _ (limb_lt hi)]
    have happly : value.setBit place ⟨i / 64, limb_lt hi⟩ = if i / 64 = place / 64 then
        value ⟨i / 64, limb_lt hi⟩ ||| 1 <<< UInt64.ofNat (place % 64) else value ⟨i / 64, limb_lt hi⟩ := rfl
    rw [happly]
    split_ifs with hlimb
    · have hone : (1 <<< UInt64.ofNat (place % 64) : UInt64).toNat.testBit (i % 64) = decide (i = place) := by
        rw [testBit_shiftLeft_of_lt (Nat.mod_lt _ (by decide)) _ (Nat.mod_lt _ (by decide)), UInt64.toNat_one,
          Bool.eq_iff_iff, Bool.and_eq_true, Nat.testBit_one_eq_true_iff_self_eq_zero, decide_eq_true_iff,
          decide_eq_true_iff]
        omega
      rw [UInt64.toNat_or, Nat.testBit_or, hone]
    · rw [decide_eq_false (fun h ↦ hlimb (congrArg (· / 64) h)), Bool.or_false]
  · rw [testBit_number_of_ge _ hi, testBit_number_of_ge _ hi, decide_eq_false (by omega)]
    rfl

theorem testBit_foldl_setBit (places : List ℕ) (value : Remainder) (hplaces : ∀ place ∈ places, place < MAX_PARITY)
    (i : ℕ) : (places.foldl setBit value).number.testBit i = (value.number.testBit i || decide (i ∈ places)) := by
  induction places generalizing value with
  | nil => rw [List.foldl_nil, decide_eq_false List.not_mem_nil, Bool.or_false]
  | cons place places ih =>
    rw [List.foldl_cons, ih _ fun other hother ↦ hplaces other (List.mem_cons_of_mem place hother),
      testBit_setBit _ (hplaces place List.mem_cons_self), Bool.or_assoc, ← Bool.decide_or]
    exact congrArg _ (decide_eq_decide.mpr List.mem_cons.symm)

/-- The generator as a number has its leading bit at the parity. -/
theorem hasDegree_numberOf (hlength : generator.length = parity + 1) (hlead : generator.getD parity false = true) :
    HasDegree parity (numberOf generator) where
  low := Nat.ge_two_pow_of_testBit ((testBit_numberOf generator parity).trans hlead)
  high := hlength ▸ numberOf_lt generator

theorem number_base (hparity : parity ≤ MAX_PARITY) :
    (Divider.base generator parity).number = numberOf generator % 2 ^ parity := by
  apply Nat.eq_of_testBit_eq
  intro i
  have hplaces : ∀ place ∈ (List.range parity).filter (fun index ↦ generator.getD index false), place < MAX_PARITY :=
    fun place hplace ↦ (List.mem_range.mp (List.mem_of_mem_filter hplace)).trans_le hparity
  rw [Divider.base, testBit_foldl_setBit _ _ hplaces, number_zero, Nat.zero_testBit, Bool.false_or,
    Nat.testBit_mod_two_pow, testBit_numberOf]
  simp only [List.mem_filter, List.mem_range, Bool.decide_and, Bool.decide_eq_true]

variable (hlength : generator.length = parity + 1) (hlead : generator.getD parity false = true)
  (hlow : 8 ≤ parity) (hhigh : parity ≤ MAX_PARITY)

include hlength hlead hlow hhigh

theorem number_nextPower {reduced : Remainder} (hreduced : reduced.number < 2 ^ parity) :
    (Divider.nextPower parity (lowBits parity) (Divider.base generator parity) reduced).number =
      doubled parity (numberOf generator) reduced.number := by
  have hshifted : (and (shl reduced 1) (lowBits parity)).number = 2 * reduced.number % 2 ^ parity := by
    rw [number_and_lowBits _ hhigh, number_shl _ one_pos (by decide), Nat.mod_mod_of_dvd _ (Nat.pow_dvd_pow 2 hhigh),
      Nat.shiftLeft_eq, pow_one, mul_comm]
  rw [doubled_eq (hasDegree_numberOf hlength hlead) hreduced (by omega), Divider.nextPower, bit_eq _ (by omega)]
  split_ifs
  · rw [number_xor, hshifted, number_base hhigh]
  · exact hshifted

theorem power_spec (count : ℕ) :
    (Divider.power parity (lowBits parity) (Divider.base generator parity) count).number < 2 ^ parity ∧
      element (numberOf generator)
          (Divider.power parity (lowBits parity) (Divider.base generator parity) count).number =
        AdjoinRoot.root (bitPoly (numberOf generator)) ^ (parity + count) := by
  have hdegree := hasDegree_numberOf hlength hlead
  induction count with
  | zero =>
    rw [Divider.power, Function.iterate_zero_apply, number_base hhigh, element_base hdegree]
    exact ⟨Nat.mod_lt _ (Nat.two_pow_pos parity), rfl⟩
  | succ count ih =>
    have hnext : Divider.power parity (lowBits parity) (Divider.base generator parity) (count + 1) =
        Divider.nextPower parity (lowBits parity) (Divider.base generator parity)
          (Divider.power parity (lowBits parity) (Divider.base generator parity) count) :=
      Function.iterate_succ_apply' ..
    rw [hnext, number_nextPower hlength hlead hlow hhigh ih.1, element_doubled]
    constructor
    · exact doubled_lt hdegree ih.1
    · calc
        _ = AdjoinRoot.root (bitPoly (numberOf generator)) *
            AdjoinRoot.root (bitPoly (numberOf generator)) ^ (parity + count) := congrArg _ ih.2
        _ = _ := (pow_succ' _ _).symm

/-- What the lowest bits of a byte add up to. -/
theorem entry_prefix (byte count : ℕ) :
    (((List.range count).filter fun shift ↦ byte >>> shift &&& 1 == 1).foldl (fun sum shift ↦
        xor sum (Divider.power parity (lowBits parity) (Divider.base generator parity) shift))
        fun _ ↦ 0).number < 2 ^ parity ∧
      element (numberOf generator) (((List.range count).filter fun shift ↦ byte >>> shift &&& 1 == 1).foldl
          (fun sum shift ↦ xor sum (Divider.power parity (lowBits parity) (Divider.base generator parity) shift))
          fun _ ↦ 0).number =
        AdjoinRoot.root (bitPoly (numberOf generator)) ^ parity *
          element (numberOf generator) (byte % 2 ^ count) := by
  induction count with
  | zero =>
    rw [List.range_zero, List.filter_nil, List.foldl_nil, number_zero, pow_zero, Nat.mod_one, element_zero, mul_zero]
    exact ⟨Nat.two_pow_pos parity, rfl⟩
  | succ count ih =>
    have hbit : (byte >>> count &&& 1 == 1) = byte.testBit count := by
      rw [Nat.testBit_eq_decide_div_mod_eq, Nat.and_one_is_mod, Nat.shiftRight_eq_div_pow]
      rfl
    rw [List.range_succ, List.filter_append, List.foldl_append, mod_two_pow_succ_xor, element_xor, mul_add,
      element_shiftLeft, List.filter_singleton, hbit]
    cases byte.testBit count with
    | false =>
      rw [Bool.toNat_false, element_zero, mul_zero, mul_zero, add_zero]
      exact ih
    | true =>
      obtain ⟨hlt, hpower⟩ := power_spec hlength hlead hlow hhigh count
      rw [Bool.toNat_true, element_one, mul_one, ← pow_add]
      change (xor _ _).number < _ ∧ element _ (xor _ _).number = _
      rw [number_xor, element_xor, ih.2, hpower]
      exact ⟨Nat.xor_lt_two_pow ih.1 hlt, rfl⟩

/-- A byte's entry is what the byte is worth once it has left the remainder. -/
theorem entry_spec {byte : ℕ} (hbyte : byte < 2 ^ 8) :
    ((Divider.new generator).table.getD byte fun _ ↦ 0).number < 2 ^ parity ∧
      element (numberOf generator) ((Divider.new generator).table.getD byte fun _ ↦ 0).number =
        AdjoinRoot.root (bitPoly (numberOf generator)) ^ parity * element (numberOf generator) byte := by
  have hparity : min (generator.length - 1) MAX_PARITY = parity := by omega
  have hentry : ((Divider.new generator).table.getD byte fun _ ↦ 0) =
      Divider.entry (Divider.power parity (lowBits parity) (Divider.base generator parity)) byte := by
    have hrange : byte < ((List.range 256).map
        (Divider.entry (Divider.power parity (lowBits parity) (Divider.base generator parity)))).length := by
      rw [List.length_map, List.length_range]
      exact hbyte
    rw [Divider.new, hparity, List.getD_eq_getElem _ _ hrange, List.getElem_map, List.getElem_range]
  have hprefix := entry_prefix hlength hlead hlow hhigh byte 8
  rw [Nat.mod_eq_of_lt hbyte] at hprefix
  rw [hentry]
  exact hprefix

/-- One byte taken in: eight places up, the byte added, and what was shifted out put back by the table. -/
theorem step_spec {state : Remainder} (hstate : state.number < 2 ^ parity) {chunk : List Bool}
    (hchunk : chunk.length = 8) :
    ((Divider.new generator).step state chunk).number < 2 ^ parity ∧
      element (numberOf generator) ((Divider.new generator).step state chunk).number =
        AdjoinRoot.root (bitPoly (numberOf generator)) ^ 8 * element (numberOf generator) state.number +
          element (numberOf generator) (wordNumber chunk) := by
  have hparity : (Divider.new generator).parity = parity := by
    change min (generator.length - 1) MAX_PARITY = parity
    omega
  have hmask : (Divider.new generator).mask = lowBits parity := congrArg lowBits hparity
  obtain ⟨hpack, hbyte⟩ := toNat_pack hchunk.le
  rw [hchunk] at hbyte
  have htop : (topByte state parity).toNat = state.number >>> (parity - 8) := by
    rw [toNat_topByte state hlow hhigh, Nat.shiftRight_eq_div_pow]
    apply Nat.mod_eq_of_lt
    apply Nat.div_lt_of_lt_mul
    rw [← pow_add, Nat.sub_add_cancel hlow]
    exact hstate
  have hmasked : (and (shl state 8) (lowBits parity)).number = state.number <<< 8 % 2 ^ parity := by
    rw [number_and_lowBits _ hhigh, number_shl _ (by decide) (by decide),
      Nat.mod_mod_of_dvd _ (Nat.pow_dvd_pow 2 hhigh)]
  have hadded : (orLow (and (shl state 8) (lowBits parity)) (pack chunk)).number =
      state.number <<< 8 % 2 ^ parity ^^^ wordNumber chunk := by
    apply Nat.eq_of_testBit_eq
    intro i
    rw [testBit_orLow, hmasked, hpack, Nat.testBit_xor, Nat.testBit_mod_two_pow, Nat.testBit_shiftLeft]
    rcases Nat.lt_or_ge i 8 with hi | hi
    · rw [decide_eq_false (not_le.mpr hi), Bool.false_and, Bool.and_false, Bool.false_or, Bool.false_xor]
    · rw [Nat.testBit_lt_two_pow (hbyte.trans_le (Nat.pow_le_pow_right two_pos hi)), Bool.or_false, Bool.xor_false]
  have hsplit := split_at_parity (state.number <<< 8) parity
  have hout : state.number <<< 8 >>> parity = state.number >>> (parity - 8) := by
    rw [← Nat.sub_add_cancel hlow, Nat.add_comm, Nat.shiftRight_add, Nat.shiftLeft_shiftRight,
      Nat.add_sub_cancel_left]
  obtain ⟨hentry, hworth⟩ := entry_spec hlength hlead hlow hhigh (topByte state parity).toNat_lt
  rw [Divider.step, hparity, hmask, number_xor, hadded]
  constructor
  · apply Nat.xor_lt_two_pow _ hentry
    apply Nat.xor_lt_two_pow (Nat.mod_lt _ (Nat.two_pow_pos parity))
    exact hbyte.trans_le (Nat.pow_le_pow_right two_pos hlow)
  · calc
      _ = element (numberOf generator) (state.number <<< 8 % 2 ^ parity) +
            element (numberOf generator) (wordNumber chunk) +
          AdjoinRoot.root (bitPoly (numberOf generator)) ^ parity *
            element (numberOf generator) (state.number >>> (parity - 8)) := by
        rw [element_xor, element_xor, hworth, htop]
      _ = AdjoinRoot.root (bitPoly (numberOf generator)) ^ parity *
            element (numberOf generator) (state.number >>> (parity - 8)) +
            element (numberOf generator) (state.number <<< 8 % 2 ^ parity) +
          element (numberOf generator) (wordNumber chunk) := by ring
      _ = element (numberOf generator) (state.number <<< 8) + element (numberOf generator) (wordNumber chunk) := by
        rw [← element_shiftLeft, ← element_xor, ← hout, ← hsplit]
      _ = _ := by rw [element_shiftLeft]

end Table

/-! ## Both divisions -/

section Division

variable {p : ℕ}

theorem element_snoc (word : List Bool) (bit : Bool) : element p (wordNumber (word ++ [bit])) =
    AdjoinRoot.root (bitPoly p) * element p (wordNumber word) + element p bit.toNat := by
  have hbit : (2 * wordNumber word + bit.toNat) = 2 * wordNumber word ^^^ bit.toNat := by
    cases bit with
    | false => exact (Nat.xor_zero _).symm
    | true => exact (Nat.xor_one_of_even (even_two_mul _)).symm
  rw [wordNumber_snoc, hbit, element_xor, element_double]

theorem element_append (word chunk : List Bool) : element p (wordNumber (word ++ chunk)) =
    AdjoinRoot.root (bitPoly p) ^ chunk.length * element p (wordNumber word) + element p (wordNumber chunk) := by
  induction chunk using List.reverseRecOn with
  | nil =>
    have hnil : wordNumber [] = 0 := rfl
    rw [List.append_nil, List.length_nil, pow_zero, one_mul, hnil, element_zero, add_zero]
  | append_singleton chunk bit ih =>
    rw [← List.append_assoc, element_snoc, element_snoc, ih, List.length_append, List.length_singleton, pow_succ']
    ring

theorem flatten_asChunks {word : List Bool} (hlength : word.length % 8 = 0) :
    (asChunks word).flatten = word ∧ ∀ chunk ∈ asChunks word, chunk.length = 8 := by
  fun_induction asChunks word with
  | case1 a b c d e f g h rest ih =>
    have hrest : rest.length % 8 = 0 := by
      simp only [List.length_cons] at hlength
      omega
    obtain ⟨hflatten, hchunks⟩ := ih hrest
    constructor
    · rw [List.flatten_cons, hflatten]
      rfl
    · intro chunk hchunk
      cases hchunk with
      | head => rfl
      | tail _ hlater => exact hchunks chunk hlater
  | case2 word hshort =>
    have hempty : word = [] := by
      match word, hlength, hshort with
      | [], _, _ => rfl
      | a :: b :: c :: d :: e :: f :: g :: h :: rest, _, hshort => exact (hshort a b c d e f g h rest rfl).elim
    rw [hempty]
    exact ⟨rfl, fun chunk hchunk ↦ absurd hchunk List.not_mem_nil⟩

variable {generator : List Bool} {parity : ℕ} (hlength : generator.length = parity + 1)
  (hlead : generator.getD parity false = true)

include hlength hlead

theorem foldl_step_spec (hlow : 8 ≤ parity) (hhigh : parity ≤ MAX_PARITY) (chunks : List (List Bool))
    (hchunks : ∀ chunk ∈ chunks, chunk.length = 8) {state : Remainder} {word : List Bool}
    (hstate : state.number < 2 ^ parity)
    (hword : element (numberOf generator) state.number = element (numberOf generator) (wordNumber word)) :
    (chunks.foldl (Divider.new generator).step state).number < 2 ^ parity ∧
      element (numberOf generator) (chunks.foldl (Divider.new generator).step state).number =
        element (numberOf generator) (wordNumber (word ++ chunks.flatten)) := by
  induction chunks generalizing state word with
  | nil =>
    rw [List.flatten_nil, List.append_nil]
    exact ⟨hstate, hword⟩
  | cons chunk chunks ih =>
    obtain ⟨hlt, hstep⟩ := step_spec hlength hlead hlow hhigh hstate (hchunks chunk List.mem_cons_self)
    rw [List.foldl_cons, List.flatten_cons, ← List.append_assoc]
    apply ih (fun other hother ↦ hchunks other (List.mem_cons_of_mem chunk hother)) hlt
    rw [hstep, element_append, hchunks chunk List.mem_cons_self, hword]

/-- The byte at a time. -/
theorem remainder_spec (hlow : 8 ≤ parity) (hhigh : parity ≤ MAX_PARITY) (word : List Bool) :
    ((Divider.new generator).remainder word).number < 2 ^ parity ∧
      element (numberOf generator) ((Divider.new generator).remainder word).number =
        element (numberOf generator) (wordNumber word) := by
  have hmod : word.length % 8 < 8 := Nat.mod_lt _ (by decide)
  have htake : (word.take (word.length % 8)).length = word.length % 8 :=
    List.length_take_of_le (Nat.mod_le _ _)
  obtain ⟨hpack, hlt⟩ := toNat_pack (by omega : (word.take (word.length % 8)).length ≤ 8)
  have hdrop : (word.drop (word.length % 8)).length % 8 = 0 := by
    rw [List.length_drop]
    omega
  obtain ⟨hflatten, hchunks⟩ := flatten_asChunks hdrop
  have hlead' : (orLow (fun _ ↦ 0) (pack (word.take (word.length % 8)))).number =
      wordNumber (word.take (word.length % 8)) := by
    apply Nat.eq_of_testBit_eq
    intro i
    rw [testBit_orLow, number_zero, Nat.zero_testBit, Bool.false_or, hpack]
  have hspec := foldl_step_spec hlength hlead hlow hhigh _ hchunks
    (hlead'.trans_lt (hlt.trans_le (Nat.pow_le_pow_right two_pos (by omega)))) (congrArg _ hlead')
  rw [hflatten, List.take_append_drop] at hspec
  exact hspec

/-- One bit at a time. -/
theorem slowStep_spec (hpos : 0 < parity) {state : List Bool} (hstate : state.length = parity) (input : Bool) :
    (slowStep generator state input).length = parity ∧
      element (numberOf generator) (numberOf (slowStep generator state input)) =
        AdjoinRoot.root (bitPoly (numberOf generator)) * element (numberOf generator) (numberOf state) +
          element (numberOf generator) input.toNat := by
  have hlt : numberOf state < 2 ^ parity := hstate ▸ numberOf_lt state
  have hshifted : (input :: state.dropLast).length = parity := by
    rw [List.length_cons, List.length_dropLast, hstate]
    omega
  have hnumber : numberOf (input :: state.dropLast) = 2 * numberOf state % 2 ^ parity ^^^ input.toNat := by
    apply Nat.eq_of_testBit_eq
    intro i
    rw [testBit_numberOf, Nat.testBit_xor, Nat.testBit_mod_two_pow]
    cases i with
    | zero =>
      rw [List.getD_cons_zero, Nat.testBit_zero, Nat.mul_mod_right, decide_eq_true hpos]
      cases input <;> rfl
    | succ i =>
      have hinput : input.toNat.testBit (i + 1) = false := by
        cases input with
        | false => exact Nat.zero_testBit _
        | true => exact Nat.testBit_lt_two_pow (Nat.one_lt_two_pow (Nat.succ_ne_zero i))
      rw [List.getD_cons_succ, hinput, Bool.xor_false, Nat.testBit_succ, Nat.mul_div_cancel_left _ two_pos,
        testBit_numberOf]
      rcases Nat.lt_or_ge (i + 1) parity with hi | hi
      · rw [decide_eq_true hi, Bool.true_and, List.getD_eq_getElem?_getD, List.getD_eq_getElem?_getD,
          List.getElem?_dropLast, if_pos (by omega)]
      · rw [decide_eq_false (not_lt.mpr hi), Bool.false_and, List.getD_eq_default _ _ (by
          rw [List.length_dropLast]
          omega)]
  have hcarry : state.getD (generator.length - 2) false = (numberOf state).testBit (parity - 1) := by
    rw [testBit_numberOf, hlength]
    rfl
  have hdoubled := doubled_eq (hasDegree_numberOf hlength hlead) hlt hpos
  have hresult : (slowStep generator state input).length = parity ∧
      numberOf (slowStep generator state input) = doubled parity (numberOf generator) (numberOf state) ^^^
        input.toNat := by
    rw [slowStep, hcarry, hdoubled]
    split_ifs
    · constructor
      · rw [List.length_zipWith, hshifted, hlength]
        omega
      · rw [Nat.xor_right_comm, ← hnumber]
        apply Nat.eq_of_testBit_eq
        intro i
        rw [testBit_numberOf, Nat.testBit_xor, Nat.testBit_mod_two_pow, testBit_numberOf, testBit_numberOf]
        rcases Nat.lt_or_ge i parity with hi | hi
        · rw [decide_eq_true hi, Bool.true_and, List.getD_eq_getElem _ _ (by rw [List.length_zipWith]; omega),
            List.getElem_zipWith, List.getD_eq_getElem _ _ (by omega), List.getD_eq_getElem _ _ (by omega)]
        · rw [decide_eq_false (not_lt.mpr hi), Bool.false_and, Bool.xor_false,
            List.getD_eq_default _ _ (by rw [List.length_zipWith]; omega), List.getD_eq_default _ _ (by omega)]
    · exact ⟨hshifted, hnumber⟩
  rw [hresult.2, element_xor, element_doubled]
  exact ⟨hresult.1, rfl⟩

theorem slowRemainder_spec (hpos : 0 < parity) (word : List Bool) :
    (slowRemainder word generator).length = parity ∧
      element (numberOf generator) (numberOf (slowRemainder word generator)) =
        element (numberOf generator) (wordNumber word) := by
  induction word using List.reverseRecOn with
  | nil =>
    have hstart : slowRemainder [] generator = List.replicate parity false := by
      rw [slowRemainder, List.foldl_nil, hlength, Nat.add_sub_cancel]
    have hnumber : numberOf (List.replicate parity false) = wordNumber [] := by
      apply Nat.eq_of_testBit_eq
      intro i
      have hnil : wordNumber [] = 0 := rfl
      rw [testBit_numberOf, hnil, Nat.zero_testBit, List.getD_eq_getElem?_getD, List.getElem?_replicate]
      split_ifs <;> rfl
    rw [hstart, hnumber]
    exact ⟨List.length_replicate, rfl⟩
  | append_singleton word bit ih =>
    have hsnoc : slowRemainder (word ++ [bit]) generator = slowStep generator (slowRemainder word generator) bit :=
      List.foldl_append ..
    obtain ⟨hstep, hworth⟩ := slowStep_spec hlength hlead hpos ih.1 bit
    rw [hsnoc, hworth, ih.2, element_snoc]
    exact ⟨hstep, rfl⟩

end Division

/-- For every generator of degree eight to 192 and every word, the division by bytes has the remainder of the
division by bits, and nothing above it. -/
theorem remainder_eq_slowRemainder (generator word : List Bool) (parity : ℕ)
    (hlength : generator.length = parity + 1) (hlow : 8 ≤ parity) (hhigh : parity ≤ MAX_PARITY)
    (hlead : generator.getD parity false = true) :
    (List.range MAX_PARITY).map ((Divider.new generator).remainder word).bit =
      slowRemainder word generator ++ List.replicate (MAX_PARITY - parity) false := by
  obtain ⟨hfast, hword⟩ := remainder_spec hlength hlead hlow hhigh word
  obtain ⟨hslow, hsame⟩ := slowRemainder_spec hlength hlead (by omega) word
  have hlt : numberOf (slowRemainder word generator) < 2 ^ parity := hslow ▸ numberOf_lt _
  have heq : ((Divider.new generator).remainder word).number = numberOf (slowRemainder word generator) :=
    element_injOn (hasDegree_numberOf hlength hlead) hfast hlt (hword.trans hsame.symm)
  apply List.ext_getElem
  · rw [List.length_map, List.length_range, List.length_append, hslow, List.length_replicate]
    omega
  · intro i hi _
    rw [List.length_map, List.length_range] at hi
    rw [List.getElem_map, List.getElem_range, bit_eq _ hi, heq, testBit_numberOf, List.getElem_append]
    split_ifs with hin
    · exact List.getD_eq_getElem _ _ hin
    · rw [List.getElem_replicate]
      exact List.getD_eq_default _ _ (not_lt.mp hin)

/-- A generator of degree nine. -/
def degreeNine : List Bool := [true, true, false, false, false, false, false, false, false, true]

theorem remainder_eq_slowRemainder_nine :
    (List.range MAX_PARITY).map ((Divider.new degreeNine).remainder (List.replicate 13 true)).bit =
      slowRemainder (List.replicate 13 true) degreeNine ++ List.replicate (MAX_PARITY - 9) false :=
  remainder_eq_slowRemainder _ _ 9 rfl (by decide) (by decide) rfl

end Sdrmm.Dvbs2.Bch
