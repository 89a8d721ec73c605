import Mathlib.Data.Nat.Bitwise
import Mathlib.Tactic.Ring
import Sdrmm.Lib.BigEndian

/-!
# Cyclic redundancy checks

The byte-wise checks of `dsp/src/fec.rs` that other decoders share.
-/

namespace Sdrmm.Dsp

/-- One bit of `crc16_msb`. -/
def crc16Shift (poly crc : UInt16) : UInt16 :=
  if crc &&& 0x8000 ≠ 0 then (crc <<< 1) ^^^ poly else crc <<< 1

def crc16Msb (poly init : UInt16) (data : List UInt8) : UInt16 :=
  data.foldl (fun crc byte ↦ (crc16Shift poly)^[8] (crc ^^^ (byte.toUInt16 <<< (8 : UInt16)))) init

/-- One bit of `crc32_mpeg`. -/
def crc32Shift (crc : UInt32) : UInt32 :=
  if crc &&& 0x80000000 ≠ 0 then (crc <<< 1) ^^^ 0x04c11db7 else crc <<< 1

def crc32Mpeg (data : List UInt8) : UInt32 :=
  data.foldl (fun crc byte ↦ crc32Shift^[8] (crc ^^^ (byte.toUInt32 <<< (24 : UInt32)))) 0xffffffff

/-! ## The check of a message with its own check -/

theorem crc32Shift_small {crc : UInt32} (hcrc : crc.toNat < 2 ^ 31) :
    (crc32Shift crc).toNat = 2 * crc.toNat := by
  have hbit : crc &&& 0x80000000 = 0 := by
    apply UInt32.toNat_inj.mp
    rw [UInt32.toNat_and, show (0x80000000 : UInt32).toNat = 2 ^ 31 from rfl, Nat.and_comm,
      Nat.two_pow_and, Nat.testBit_lt_two_pow hcrc]
    rfl
  rw [crc32Shift, if_neg (fun h ↦ h hbit), UInt32.toNat_shiftLeft,
    show (1 : UInt32).toNat % 32 = 1 from rfl, Nat.shiftLeft_eq]
  omega

/-- Shifts of a register with zeros on top move it up. -/
theorem crc32Shift_iterate (count : ℕ) {crc : UInt32} (hcrc : 2 ^ count * crc.toNat < 2 ^ 32) :
    (crc32Shift^[count] crc).toNat = 2 ^ count * crc.toNat := by
  induction count generalizing crc with
  | zero => rw [Function.iterate_zero, id, pow_zero, one_mul]
  | succ count ih =>
    rw [pow_succ, mul_assoc] at hcrc
    have hpositive : 0 < 2 ^ count := Nat.two_pow_pos count
    have hsmall : crc.toNat < 2 ^ 31 := by nlinarith
    rw [Function.iterate_succ_apply, ih (by rwa [crc32Shift_small hsmall]),
      crc32Shift_small hsmall, pow_succ, mul_assoc]

theorem xor_top (value : ℕ) : value ^^^ ((value / 2 ^ 24) <<< 24) = value % 2 ^ 24 := by
  apply Nat.eq_of_testBit_eq
  intro i
  rw [Nat.testBit_xor, Nat.testBit_shiftLeft, Nat.testBit_mod_two_pow, Nat.testBit_div_two_pow]
  by_cases hi : 24 ≤ i
  · rw [Nat.sub_add_cancel hi]
    simp [hi, Nat.not_lt.mpr hi]
  · simp [hi, Nat.not_le.mp hi]

/-- The register takes its own highest byte and moves up by it. -/
theorem crc32_feed_top (crc : UInt32) (byte : UInt8) (hbyte : byte.toNat = crc.toNat / 2 ^ 24) :
    (crc32Shift^[8] (crc ^^^ (byte.toUInt32 <<< (24 : UInt32)))).toNat =
      crc.toNat % 2 ^ 24 * 2 ^ 8 := by
  have hlow : (crc ^^^ (byte.toUInt32 <<< (24 : UInt32))).toNat = crc.toNat % 2 ^ 24 := by
    rw [UInt32.toNat_xor, UInt32.toNat_shiftLeft, UInt8.toNat_toUInt32, hbyte,
      show (24 : UInt32).toNat % 32 = 24 from rfl, Nat.mod_eq_of_lt, xor_top]
    rw [Nat.shiftLeft_eq]
    have := crc.toNat_lt
    omega
  rw [crc32Shift_iterate 8 (by rw [hlow]; omega), hlow, Nat.mul_comm]

/-- A message that carries its own check has the check zero. -/
theorem crc32Mpeg_append_check (message : List UInt8) :
    crc32Mpeg (message ++ toBe32 (crc32Mpeg message).toNat) = 0 := by
  have hlt := (crc32Mpeg message).toNat_lt
  unfold crc32Mpeg at hlt ⊢
  rw [List.foldl_append]
  generalize List.foldl _ _ message = crc at hlt ⊢
  simp only [toBe32, List.foldl_cons, List.foldl_nil]
  -- Each of the four bytes is the highest one of what the register then holds.
  have hfirst := crc32_feed_top crc (UInt8.ofNat (crc.toNat / 16777216))
    (by rw [UInt8.toNat_ofNat']; omega)
  generalize crc32Shift^[8] _ = first at hfirst ⊢
  have hsecond := crc32_feed_top first (UInt8.ofNat (crc.toNat / 65536))
    (by rw [UInt8.toNat_ofNat', hfirst]; omega)
  generalize crc32Shift^[8] _ = second at hsecond ⊢
  have hthird := crc32_feed_top second (UInt8.ofNat (crc.toNat / 256))
    (by rw [UInt8.toNat_ofNat', hsecond, hfirst]; omega)
  generalize crc32Shift^[8] _ = third at hthird ⊢
  have hfourth := crc32_feed_top third (UInt8.ofNat crc.toNat)
    (by rw [UInt8.toNat_ofNat', hthird, hsecond, hfirst]; omega)
  apply UInt32.toNat_inj.mp
  rw [hfourth, hthird, hsecond, hfirst]
  change _ = 0
  omega

/-! ## Short messages -/

theorem crc32Shift_large {crc : UInt32} (hcrc : 2 ^ 31 ≤ crc.toNat) :
    (crc32Shift crc).toNat = (2 * (crc.toNat - 2 ^ 31)) ^^^ 0x04c11db7 := by
  have hlt := crc.toNat_lt
  have hbit : crc &&& 0x80000000 ≠ 0 := by
    intro hzero
    have htop : crc.toNat.testBit 31 = true := by
      rw [Nat.testBit_eq_decide_div_mod_eq, decide_eq_true_iff]
      omega
    have hand := congrArg UInt32.toNat hzero
    rw [UInt32.toNat_and, show (0x80000000 : UInt32).toNat = 2 ^ 31 from rfl, Nat.and_comm,
      Nat.two_pow_and, htop] at hand
    exact absurd hand (by decide)
  rw [crc32Shift, if_pos hbit, UInt32.toNat_xor, UInt32.toNat_shiftLeft,
    show (1 : UInt32).toNat % 32 = 1 from rfl, Nat.shiftLeft_eq,
    show crc.toNat * 2 ^ 1 % 2 ^ 32 = 2 * (crc.toNat - 2 ^ 31) by omega]
  rfl

theorem crc32Shift_injective : Function.Injective crc32Shift := by
  intro first second heq
  have hnat := congrArg UInt32.toNat heq
  apply UInt32.toNat_inj.mp
  -- The lowest bit of the register tells whether the polynomial was added.
  have hodd : ∀ value, ((2 * value) ^^^ 0x04c11db7) % 2 = 1 := by
    intro value
    rw [Nat.xor_mod_two_eq]
    omega
  rcases Nat.lt_or_ge first.toNat (2 ^ 31) with hfirst | hfirst <;>
    rcases Nat.lt_or_ge second.toNat (2 ^ 31) with hsecond | hsecond
  · rw [crc32Shift_small hfirst, crc32Shift_small hsecond] at hnat
    omega
  · rw [crc32Shift_small hfirst, crc32Shift_large hsecond] at hnat
    have := hodd (second.toNat - 2 ^ 31)
    omega
  · rw [crc32Shift_large hfirst, crc32Shift_small hsecond] at hnat
    have := hodd (first.toNat - 2 ^ 31)
    omega
  · rw [crc32Shift_large hfirst, crc32Shift_large hsecond] at hnat
    have := Nat.xor_left_injective hnat
    omega

/-- A byte that leaves the low byte of the register empty was the register's own highest one. -/
theorem crc32_fed_top {crc : UInt32} {byte : UInt8} {rest : ℕ} (hrest : rest < 2 ^ 24)
    (hfed : (crc32Shift^[8] (crc ^^^ (byte.toUInt32 <<< (24 : UInt32)))).toNat = rest * 2 ^ 8) :
    byte.toNat = crc.toNat / 2 ^ 24 ∧ crc.toNat % 2 ^ 24 = rest := by
  have hto : (UInt32.ofNat rest).toNat = rest := by
    rw [UInt32.toNat_ofNat', Nat.mod_eq_of_lt (by omega)]
  have hshifted : crc32Shift^[8] (UInt32.ofNat rest) =
      crc32Shift^[8] (crc ^^^ (byte.toUInt32 <<< (24 : UInt32))) := by
    apply UInt32.toNat_inj.mp
    rw [hfed, crc32Shift_iterate 8 (by rw [hto]; omega), hto, Nat.mul_comm]
  have hregister := congrArg UInt32.toNat (crc32Shift_injective.iterate 8 hshifted)
  have hbyte := byte.toNat_lt
  rw [hto, UInt32.toNat_xor, UInt32.toNat_shiftLeft, UInt8.toNat_toUInt32,
    show (24 : UInt32).toNat % 32 = 24 from rfl, Nat.shiftLeft_eq, Nat.mod_eq_of_lt (by omega)] at hregister
  have hhigh : 0 = crc.toNat / 2 ^ 24 ^^^ byte.toNat := by
    calc
      0 = rest / 2 ^ 24 := (Nat.div_eq_of_lt hrest).symm
      _ = crc.toNat / 2 ^ 24 ^^^ byte.toNat := by
        rw [hregister, Nat.xor_div_two_pow, Nat.mul_div_cancel _ (Nat.two_pow_pos 24)]
  have hlow : rest = crc.toNat % 2 ^ 24 := by
    calc
      rest = rest % 2 ^ 24 := (Nat.mod_eq_of_lt hrest).symm
      _ = crc.toNat % 2 ^ 24 := by
        rw [hregister, Nat.xor_mod_two_pow, Nat.mul_mod_left, Nat.xor_zero]
  exact ⟨(Nat.xor_eq_zero_iff.mp hhigh.symm).symm, hlow.symm⟩

theorem crc32_low_of_fed {crc : UInt32} {byte : UInt8} {bits : ℕ} (hbits : bits ≤ 24)
    (hfed : 2 ^ (bits + 8) ∣
      (crc32Shift^[8] (crc ^^^ (byte.toUInt32 <<< (24 : UInt32)))).toNat) :
    byte.toNat = crc.toNat / 2 ^ 24 ∧ 2 ^ bits ∣ crc.toNat := by
  obtain ⟨rest, hrest⟩ := hfed
  have heq : 2 ^ (bits + 8) * rest = 2 ^ bits * rest * 2 ^ 8 := by
    rw [pow_add]
    ring
  have hlt := (crc32Shift^[8] (crc ^^^ (byte.toUInt32 <<< (24 : UInt32)))).toNat_lt
  have htop := crc32_fed_top (by omega) (hrest.trans heq)
  refine ⟨htop.1, ?_⟩
  have hdvd : 2 ^ bits ∣ crc.toNat % 2 ^ 24 := htop.2 ▸ Nat.dvd_mul_right _ _
  exact (Nat.dvd_mod_iff (Nat.pow_dvd_pow 2 hbits)).mp hdvd

/-- A message of three or four bytes that has the check zero begins with the register's first byte. -/
theorem head?_of_crc32Mpeg_eq_zero {message : List UInt8} (hlow : 3 ≤ message.length)
    (hhigh : message.length ≤ 4) (hcheck : crc32Mpeg message = 0) : message.head? = some 0xFF := by
  have hzero : (crc32Mpeg message).toNat = 0 := congrArg UInt32.toNat hcheck
  have hdvd : 2 ^ (24 + 8) ∣ (crc32Mpeg message).toNat := hzero ▸ Nat.dvd_zero _
  unfold crc32Mpeg at hdvd
  match message, hlow, hhigh with
  | [first, second, third], _, _ =>
    have hsecond := (crc32_low_of_fed le_rfl hdvd).2
    have hfirst := (@crc32_low_of_fed _ _ 16 (by decide) hsecond).2
    have hstart := (@crc32_low_of_fed _ _ 8 (by decide) hfirst).2
    exact absurd hstart (by decide)
  | [first, second, third, fourth], _, _ =>
    have hthird := (crc32_low_of_fed le_rfl hdvd).2
    have hsecond := (@crc32_low_of_fed _ _ 16 (by decide) hthird).2
    have hfirst := (@crc32_low_of_fed _ _ 8 (by decide) hsecond).2
    have hbyte := (@crc32_low_of_fed _ _ 0 (by decide) hfirst).1
    rw [List.head?_cons, Option.some.injEq]
    apply UInt8.toNat_inj.mp
    rw [hbyte]
    rfl

end Sdrmm.Dsp
