import Sdrmm.Lib.BinaryCode
import Sdrmm.Lib.ShiftRegister

/-!
# Reflected cyclic checks

A check register that takes its bytes in from the low end and shifts down.  The register is linear
and its shift one to one, so a flipped bit adds to the check what the shifts that are left make of a
single one.  Where the polynomial has an odd number of ones the shift keeps the parity, and two
errors of one kind leave the same trace only if they are a multiple of the period apart.
-/

open Function

namespace Sdrmm.ReflectedCrc

open Bits BinaryCode

/-- One shift of the register. -/
def shift (poly reg : ℕ) : ℕ := if reg % 2 = 1 then reg >>> 1 ^^^ poly else reg >>> 1

/-- The register after some bytes. -/
def check (poly init : ℕ) (bytes : List UInt8) : ℕ :=
  bytes.foldl (fun reg byte ↦ (shift poly)^[8] (reg ^^^ byte.toNat)) init

variable {poly : ℕ}

/-! ## The shift -/

theorem shift_zero : shift poly 0 = 0 := rfl

theorem shift_double (reg : ℕ) : shift poly (reg <<< 1) = reg := by
  rw [shift, Nat.shiftLeft_shiftRight, Nat.shiftLeft_eq, pow_one, if_neg (by omega)]

theorem shift_xor (first second : ℕ) :
    shift poly (first ^^^ second) = shift poly first ^^^ shift poly second := by
  have hparity : (first ^^^ second) % 2 = (first + second) % 2 := Nat.xor_mod_two_eq
  unfold shift
  rw [Nat.shiftRight_xor_distrib]
  rcases Nat.mod_two_eq_zero_or_one first with hfirst | hfirst <;>
    rcases Nat.mod_two_eq_zero_or_one second with hsecond | hsecond
  · rw [if_neg (by omega), if_neg (by omega), if_neg (by omega)]
  · rw [if_pos (by omega), if_neg (by omega), if_pos hsecond, Nat.xor_assoc]
  · rw [if_pos (by omega), if_pos hfirst, if_neg (by omega), Nat.xor_assoc, Nat.xor_assoc,
      Nat.xor_comm poly]
  · rw [if_neg (by omega), if_pos hfirst, if_pos hsecond, Nat.xor_comm (second >>> 1),
      Nat.xor_assoc, Nat.xor_xor_cancel_left]

theorem iterate_xor (n first second : ℕ) :
    (shift poly)^[n] (first ^^^ second) = (shift poly)^[n] first ^^^ (shift poly)^[n] second := by
  induction n generalizing first second with
  | zero => rfl
  | succ n ih => rw [iterate_succ_apply, iterate_succ_apply, iterate_succ_apply, shift_xor, ih]

theorem iterate_shiftLeft (k reg : ℕ) : (shift poly)^[k] (reg <<< k) = reg := by
  induction k with
  | zero => rfl
  | succ k ih => rw [iterate_succ_apply, Nat.shiftLeft_add, shift_double, ih]

section Width

variable {width : ℕ} (hpoly : poly < 2 ^ (width + 1)) (htop : 2 ^ width ≤ poly)

include hpoly in
theorem shift_lt {reg : ℕ} (hreg : reg < 2 ^ (width + 1)) : shift poly reg < 2 ^ (width + 1) := by
  have hhalf : reg >>> 1 < 2 ^ (width + 1) := by
    rw [Nat.shiftRight_eq_div_pow]
    exact (Nat.div_le_self reg _).trans_lt hreg
  unfold shift
  split
  · exact Nat.xor_lt_two_pow hhalf hpoly
  · exact hhalf

include hpoly in
theorem iterate_lt {reg : ℕ} (hreg : reg < 2 ^ (width + 1)) (n : ℕ) :
    (shift poly)^[n] reg < 2 ^ (width + 1) := by
  induction n with
  | zero => exact hreg
  | succ n ih =>
    rw [iterate_succ_apply']
    exact shift_lt hpoly ih

include htop in
theorem eq_zero_of_shift {reg : ℕ} (hreg : reg < 2 ^ (width + 1)) (hshift : shift poly reg = 0) :
    reg = 0 := by
  have hpow : 2 ^ (width + 1) = 2 * 2 ^ width := Nat.pow_succ'
  rw [shift, Nat.shiftRight_eq_div_pow] at hshift
  split at hshift
  · have hequal := Nat.eq_of_xor_eq_zero hshift
    omega
  · omega

include hpoly htop in
theorem eq_zero_of_iterate {n reg : ℕ} (hreg : reg < 2 ^ (width + 1))
    (hzero : (shift poly)^[n] reg = 0) : reg = 0 := by
  induction n with
  | zero => exact hzero
  | succ n ih =>
    rw [iterate_succ_apply'] at hzero
    exact ih (eq_zero_of_shift htop (iterate_lt hpoly hreg n) hzero)

include hpoly htop in
theorem iterate_inj {n first second : ℕ} (hfirst : first < 2 ^ (width + 1))
    (hsecond : second < 2 ^ (width + 1))
    (hsame : (shift poly)^[n] first = (shift poly)^[n] second) : first = second := by
  apply Nat.eq_of_xor_eq_zero
  apply eq_zero_of_iterate hpoly htop (Nat.xor_lt_two_pow hfirst hsecond)
  rw [iterate_xor, hsame, Nat.xor_self]

include hpoly in
theorem check_lt (hwidth : 7 ≤ width) {init : ℕ} (hinit : init < 2 ^ (width + 1))
    (bytes : List UInt8) : check poly init bytes < 2 ^ (width + 1) := by
  induction bytes generalizing init with
  | nil => exact hinit
  | cons byte bytes ih =>
    have hbyte : byte.toNat < 2 ^ (width + 1) := by
      calc
        byte.toNat < 2 ^ 8 := byte.toNat_lt
        _ ≤ 2 ^ (width + 1) := Nat.pow_le_pow_right (by decide) (by omega)
    exact ih (iterate_lt hpoly (Nat.xor_lt_two_pow hinit hbyte) 8)

end Width

theorem check_append (init : ℕ) (first second : List UInt8) :
    check poly init (first ++ second) = check poly (check poly init first) second :=
  List.foldl_append

/-- Two bytes are taken in like one word. -/
theorem check_pair (init : ℕ) (lo hi : UInt8) :
    check poly init [lo, hi] = (shift poly)^[16] (init ^^^ (lo.toNat ||| hi.toNat <<< 8)) := by
  have hhigh : (shift poly)^[8] (hi.toNat <<< 8) = hi.toNat := iterate_shiftLeft 8 hi.toNat
  have hlow : lo.toNat < 2 ^ 8 := lo.toNat_lt
  change (shift poly)^[8] ((shift poly)^[8] (init ^^^ lo.toNat) ^^^ hi.toNat) = (shift poly)^[8 + 8] _
  rw [iterate_add_apply, Nat.or_comm, shiftLeft_or_eq_xor hlow, Nat.xor_comm (hi.toNat <<< 8),
    ← Nat.xor_assoc, iterate_xor 8 (init ^^^ lo.toNat) (hi.toNat <<< 8), hhigh]

/-! ## Marks

What a flipped bit leaves in the register after a number of shifts. -/

def mark (poly n : ℕ) : ℕ := (shift poly)^[n] 1

theorem mark_succ (n : ℕ) : mark poly (n + 1) = (shift poly)^[n] (shift poly 1) :=
  iterate_succ_apply _ n 1

theorem parity_shift {width reg : ℕ} (hodd : countOnes (width + 1) poly % 2 = 1)
    (hreg : reg < 2 ^ (width + 1)) :
    countOnes (width + 1) (shift poly reg) % 2 = countOnes (width + 1) reg % 2 := by
  have hlow := countOnes_shiftRight width reg
  have htop : countOnes (width + 1) (reg >>> 1) = countOnes width (reg >>> 1) := by
    have hbit : (reg >>> 1).testBit width = false := by
      rw [Nat.testBit_shiftRight, Nat.add_comm]
      exact Nat.testBit_lt_two_pow hreg
    have hsum : countOnes (width + 1) (reg >>> 1) =
        countOnes width (reg >>> 1) + ((reg >>> 1).testBit width).toNat := Finset.sum_range_succ _ _
    rw [hsum, hbit]
    rfl
  rw [Nat.toNat_testBit, pow_zero, Nat.div_one] at hlow
  unfold shift
  split
  · have hsum := countOnes_xor_parity (width + 1) (reg >>> 1) poly
    omega
  · omega

section Period

variable {width : ℕ} (hpoly : poly < 2 ^ (width + 1)) (htop : 2 ^ width ≤ poly)

theorem one_lt : 1 < 2 ^ (width + 1) := Nat.one_lt_two_pow (Nat.succ_ne_zero width)

include hpoly in
theorem parity_mark (hodd : countOnes (width + 1) poly % 2 = 1) (n : ℕ) :
    countOnes (width + 1) (mark poly n) % 2 = 1 := by
  induction n with
  | zero =>
    have hzero : countOnes width 0 = 0 := Finset.sum_eq_zero fun i _ ↦ by rw [Nat.zero_testBit]; rfl
    rw [mark, iterate_zero_apply, countOnes_shiftRight, show 1 >>> 1 = 0 from rfl, hzero]
    rfl
  | succ n ih =>
    rw [mark, iterate_succ_apply', parity_shift hodd (iterate_lt hpoly one_lt n)]
    exact ih

include hpoly htop in
theorem mark_ne_zero (n : ℕ) : mark poly n ≠ 0 := by
  intro hzero
  exact Nat.one_ne_zero (eq_zero_of_iterate hpoly htop one_lt hzero)

variable {period : ℕ} (hperiod : minimalPeriod (shift poly) 1 = period)

include hperiod in
theorem mark_inj {a b : ℕ} (ha : a < period) (hb : b < period) (hsame : mark poly a = mark poly b) :
    a = b := by
  rw [← hperiod] at ha hb
  exact iterate_injOn_Iio_minimalPeriod ha hb hsame

include hpoly htop hperiod in
/-- The shift fixes the difference of two marks with adjacent pairs alike, so twice the distance
between them is a period. -/
theorem pair_inj (hodd : Odd period) {a b : ℕ} (ha : a < period) (hb : b < period)
    (hsame : mark poly a ^^^ mark poly (a + 1) = mark poly b ^^^ mark poly (b + 1)) : a = b := by
  wlog hle : a ≤ b generalizing a b with hsymm
  · exact (hsymm hb ha hsame.symm (Nat.le_of_not_le hle)).symm
  obtain ⟨n, rfl⟩ := Nat.exists_eq_add_of_le hle
  have hshifted (k : ℕ) : mark poly (a + k) = (shift poly)^[a] (mark poly k) :=
    iterate_add_apply _ a k 1
  have hfixed : 1 ^^^ shift poly 1 = mark poly n ^^^ shift poly (mark poly n) := by
    have hsmall : 1 ^^^ shift poly 1 ^^^ (mark poly n ^^^ shift poly (mark poly n)) <
        2 ^ (width + 1) :=
      Nat.xor_lt_two_pow (Nat.xor_lt_two_pow one_lt (shift_lt hpoly one_lt))
        (Nat.xor_lt_two_pow (iterate_lt hpoly one_lt n)
          (shift_lt hpoly (iterate_lt hpoly one_lt n)))
    have hnext : shift poly (mark poly n) = mark poly (n + 1) := (iterate_succ_apply' _ n 1).symm
    apply Nat.eq_of_xor_eq_zero
    apply eq_zero_of_iterate hpoly htop hsmall (n := a)
    rw [iterate_xor, iterate_xor, iterate_xor, hnext, ← mark_succ, ← hshifted, ← hshifted,
      ← Nat.add_assoc, ← hsame]
    exact Nat.xor_self _
  have hkept : shift poly (1 ^^^ mark poly n) = 1 ^^^ mark poly n := by
    apply Nat.eq_of_xor_eq_zero
    rw [shift_xor, Nat.xor_comm 1, Nat.xor_assoc, ← Nat.xor_assoc (shift poly (mark poly n)),
      Nat.xor_comm (shift poly (mark poly n)), ← hfixed, Nat.xor_comm 1, Nat.xor_assoc,
      Nat.xor_self, Nat.xor_zero, Nat.xor_self]
  have htwice : IsPeriodicPt (shift poly) (n + n) 1 := by
    have hrun : (shift poly)^[n] (1 ^^^ mark poly n) = 1 ^^^ mark poly n := iterate_fixed hkept n
    rw [iterate_xor, Nat.xor_comm 1] at hrun
    have hdouble := Nat.xor_right_inj.mp hrun
    rw [mark, ← iterate_add_apply] at hdouble
    exact hdouble
  have hdvd : period ∣ 2 * n := by
    rw [← hperiod, two_mul]
    exact htwice.minimalPeriod_dvd
  have hdivides : period ∣ n := (Nat.coprime_two_right.mpr hodd).dvd_of_dvd_mul_left hdvd
  rw [Nat.eq_zero_of_dvd_of_lt hdivides (by omega)]
  rfl

end Period

/-! ## Flipped bits -/

/-- A bit of a byte string the other way, counted from the low end of the first byte. -/
def flipBit (bytes : List UInt8) (place : ℕ) : List UInt8 :=
  bytes.modify (place / 8) (· ^^^ UInt8.ofNat (1 <<< (place % 8)))

theorem length_flipBit (bytes : List UInt8) (place : ℕ) : (flipBit bytes place).length = bytes.length :=
  List.length_modify _ _ _

theorem flipBit_flipBit (bytes : List UInt8) (place : ℕ) : flipBit (flipBit bytes place) place = bytes := by
  rw [flipBit, flipBit, List.modify_modify_eq]
  have hself : (fun byte : UInt8 ↦ byte ^^^ UInt8.ofNat (1 <<< (place % 8))) ∘
      (fun byte ↦ byte ^^^ UInt8.ofNat (1 <<< (place % 8))) = id := by
    funext byte
    rw [comp_apply, UInt8.xor_assoc, UInt8.xor_self, UInt8.xor_zero]
    rfl
  rw [hself, List.modify_id]

theorem flipBit_comm (bytes : List UInt8) (first second : ℕ) :
    flipBit (flipBit bytes first) second = flipBit (flipBit bytes second) first := by
  apply List.ext_getElem?
  intro i
  simp only [flipBit, List.getElem?_modify, Option.map_eq_map]
  cases bytes[i]? with
  | none => rfl
  | some byte =>
    simp only [Option.map_some]
    split
    · split
      · rw [UInt8.xor_assoc, UInt8.xor_comm (UInt8.ofNat _), UInt8.xor_assoc]
      · rfl
    · rfl

theorem check_xor (init other : ℕ) (bytes : List UInt8) :
    check poly (init ^^^ other) bytes =
      check poly init bytes ^^^ (shift poly)^[8 * bytes.length] other := by
  induction bytes generalizing init other with
  | nil => rfl
  | cons byte bytes ih =>
    have hbyte : (shift poly)^[8] (init ^^^ other ^^^ byte.toNat) =
        (shift poly)^[8] (init ^^^ byte.toNat) ^^^ (shift poly)^[8] other := by
      rw [← iterate_xor, Nat.xor_assoc, Nat.xor_comm other, ← Nat.xor_assoc]
    change check poly ((shift poly)^[8] (init ^^^ other ^^^ byte.toNat)) bytes =
      check poly ((shift poly)^[8] (init ^^^ byte.toNat)) bytes ^^^ _
    rw [hbyte, ih, ← iterate_add_apply, List.length_cons, Nat.mul_succ]

/-- A flipped bit adds to the check the mark of the shifts from there to the end. -/
theorem check_flipBit (init : ℕ) {bytes : List UInt8} {place : ℕ} (hplace : place < 8 * bytes.length) :
    check poly init (flipBit bytes place) =
      check poly init bytes ^^^ mark poly (8 * bytes.length - place) := by
  induction bytes generalizing init place with
  | nil => exact absurd hplace (Nat.not_lt_zero place)
  | cons byte bytes ih =>
    rw [List.length_cons] at hplace ⊢
    by_cases hhead : place < 8
    · have hbyte : (byte ^^^ UInt8.ofNat (1 <<< place)).toNat = byte.toNat ^^^ 2 ^ place := by
        rw [UInt8.toNat_xor, UInt8.toNat_ofNat', Nat.one_shiftLeft,
          Nat.mod_eq_of_lt (Nat.pow_lt_pow_right one_lt_two hhead)]
      have hflip : flipBit (byte :: bytes) place = (byte ^^^ UInt8.ofNat (1 <<< place)) :: bytes := by
        rw [flipBit, Nat.div_eq_of_lt hhead, Nat.mod_eq_of_lt hhead]
        rfl
      have hmark : (shift poly)^[8] (2 ^ place) = mark poly (8 - place) := by
        have hsplit : 8 = 8 - place + place := by omega
        rw [hsplit, iterate_add_apply, ← Nat.one_shiftLeft, iterate_shiftLeft, Nat.add_sub_cancel]
        rfl
      rw [hflip]
      change check poly ((shift poly)^[8] (init ^^^ (byte ^^^ UInt8.ofNat (1 <<< place)).toNat)) bytes =
        check poly ((shift poly)^[8] (init ^^^ byte.toNat)) bytes ^^^ _
      rw [hbyte, ← Nat.xor_assoc, iterate_xor, check_xor, hmark, mark, ← iterate_add_apply, mark]
      congr 2
      omega
    · have hflip : flipBit (byte :: bytes) place = byte :: flipBit bytes (place - 8) := by
        obtain ⟨rest, rfl⟩ := Nat.exists_eq_add_of_le' (Nat.not_lt.mp hhead)
        rw [flipBit, flipBit, Nat.add_div_right _ (by decide), Nat.add_mod_right, Nat.add_sub_cancel]
        rfl
      rw [hflip]
      change check poly ((shift poly)^[8] (init ^^^ byte.toNat)) (flipBit bytes (place - 8)) =
        check poly ((shift poly)^[8] (init ^^^ byte.toNat)) bytes ^^^ _
      rw [ih _ (by omega)]
      congr 2
      omega

end Sdrmm.ReflectedCrc
