import Sdrmm.Lib.Bits
import Sdrmm.Lib.ShiftRegister

/-!
# Energy dispersal

The pseudo-random binary sequences of `dsp/src/fec/prbs.rs`.  A generator is a feedback shift register,
and applying it to bytes adds a stretch of its sequence to them.
-/

namespace Sdrmm

structure PrbsSpec where
  stages : ℕ
  taps : ℕ
  seed : ℕ

def dvbDispersal : PrbsSpec where
  stages := 15
  taps := 0x6000
  seed := 0x00A9

def dabDispersal : PrbsSpec where
  stages := 9
  taps := 0x110
  seed := 0x1FF

structure Prbs where
  spec : PrbsSpec
  register : ℕ
  mask : ℕ

namespace Prbs

def new (spec : PrbsSpec) : Prbs := ⟨spec, spec.seed, 1 <<< spec.stages - 1⟩

def reset (prbs : Prbs) : Prbs := { prbs with register := prbs.spec.seed }

def nextBit (prbs : Prbs) : Bool × Prbs :=
  let feedback := Bits.countOnes 32 (prbs.register &&& prbs.spec.taps) % 2
  (feedback == 1, { prbs with register := (prbs.register <<< 1 ||| feedback) &&& prbs.mask })

/-- Eight bits, the first one highest. -/
def nextByte (prbs : Prbs) : UInt8 × Prbs :=
  [7, 6, 5, 4, 3, 2, 1, 0].foldl (fun (state : UInt8 × Prbs) (index : UInt8) ↦
    let next := state.2.nextBit
    (state.1 ||| next.1.toUInt8 <<< index, next.2)) (0, prbs)

def applyBits : Prbs → List Bool → List Bool × Prbs
  | prbs, [] => ([], prbs)
  | prbs, bit :: bits =>
      let next := prbs.nextBit
      let rest := applyBits next.2 bits
      ((bit ^^ next.1) :: rest.1, rest.2)

def applyBytes : Prbs → List UInt8 → List UInt8 × Prbs
  | prbs, [] => ([], prbs)
  | prbs, byte :: data =>
      let next := prbs.nextByte
      let rest := applyBytes next.2 data
      ((byte ^^^ next.1) :: rest.1, rest.2)

def skipBytes (prbs : Prbs) (count : ℕ) : Prbs := (fun state ↦ state.nextBit.2)^[count * 8] prbs

theorem length_applyBits (prbs : Prbs) (bits : List Bool) : (prbs.applyBits bits).1.length = bits.length := by
  induction bits generalizing prbs with
  | nil => rfl
  | cons bit bits ih => exact congrArg (· + 1) (ih prbs.nextBit.2)

/-- The bits that are scrambled twice are themselves. -/
theorem applyBits_applyBits (prbs : Prbs) (bits : List Bool) : (prbs.applyBits (prbs.applyBits bits).1).1 = bits := by
  induction bits generalizing prbs with
  | nil => rfl
  | cons bit bits ih =>
    calc
      (prbs.applyBits (prbs.applyBits (bit :: bits)).1).1 =
          ((bit ^^ prbs.nextBit.1) ^^ prbs.nextBit.1) ::
            (prbs.nextBit.2.applyBits (prbs.nextBit.2.applyBits bits).1).1 := rfl
      _ = bit :: bits := by rw [ih, Bool.xor_assoc, Bool.xor_self, Bool.xor_false]

/-! ## The sequence -/

section Sequence

variable (spec : PrbsSpec)

def feedback (register : ℕ) : Bool := Bits.countOnes 32 (register &&& spec.taps) % 2 == 1

/-- The bits of the sequence. -/
def bit (n : ℕ) : Bool := ShiftRegister.bit spec.stages (feedback spec) spec.seed n

/-- The generator after `n` bits. -/
def afterBits (n : ℕ) : Prbs where
  spec := spec
  register := (ShiftRegister.step spec.stages (feedback spec))^[n] spec.seed
  mask := 1 <<< spec.stages - 1

theorem nextBit_afterBits (n : ℕ) :
    (afterBits spec n).nextBit = (bit spec n, afterBits spec (n + 1)) := by
  have hshift : ∀ register : ℕ, (register <<< 1 ||| Bits.countOnes 32 (register &&& spec.taps) % 2) &&&
      (1 <<< spec.stages - 1) = ShiftRegister.step spec.stages (feedback spec) register := by
    intro register
    have hbit : Bits.countOnes 32 (register &&& spec.taps) % 2 = (feedback spec register).toNat := by
      rw [feedback]
      rcases Nat.mod_two_eq_zero_or_one (Bits.countOnes 32 (register &&& spec.taps)) with h | h <;>
        rw [h] <;> rfl
    have hlow : (feedback spec register).toNat < 2 ^ 1 := Bool.toNat_lt _
    rw [hbit, Nat.one_shiftLeft, Nat.and_two_pow_sub_one_eq_mod, ← Nat.shiftLeft_add_eq_or_of_lt hlow,
      Nat.shiftLeft_eq, pow_one, mul_comm, ShiftRegister.step]
  rw [nextBit, afterBits, afterBits, Function.iterate_succ_apply']
  simp only [hshift]
  rfl

/-- Eight bits of the sequence as a byte. -/
def keyByte (n : ℕ) : UInt8 := (nextByte (afterBits spec n)).1

theorem nextByte_afterBits (n : ℕ) :
    (afterBits spec n).nextByte = (keyByte spec n, afterBits spec (n + 8)) := by
  apply Prod.ext
  · rfl
  · simp only [nextByte, List.foldl_cons, List.foldl_nil, nextBit_afterBits]

theorem testBit_packed : ∀ a b c d e f g h : Bool, ∀ i < 8,
    (((0 : UInt8) ||| a.toUInt8 <<< 7 ||| b.toUInt8 <<< 6 ||| c.toUInt8 <<< 5 ||| d.toUInt8 <<< 4 |||
      e.toUInt8 <<< 3 ||| f.toUInt8 <<< 2 ||| g.toUInt8 <<< 1 ||| h.toUInt8 <<< 0).toNat.testBit i) =
      [h, g, f, e, d, c, b, a].getD i false := by
  decide

theorem testBit_keyByte (n : ℕ) {i : ℕ} (hi : i < 8) :
    (keyByte spec n).toNat.testBit (7 - i) = bit spec (n + i) := by
  simp only [keyByte, nextByte, List.foldl_cons, List.foldl_nil, nextBit_afterBits]
  rw [testBit_packed _ _ _ _ _ _ _ _ (7 - i) (by omega)]
  interval_cases i <;> rfl

theorem keyByte_eq_iff (a b : ℕ) :
    keyByte spec a = keyByte spec b ↔ ∀ i < 8, bit spec (a + i) = bit spec (b + i) := by
  constructor
  · intro hsame i hi
    rw [← testBit_keyByte spec a hi, ← testBit_keyByte spec b hi, hsame]
  · intro hbits
    apply UInt8.toNat_inj.mp
    apply Nat.eq_of_testBit_eq
    intro i
    rcases lt_or_ge i 8 with hi | hi
    · have hbit := hbits (7 - i) (by omega)
      rw [← testBit_keyByte spec a (by omega), ← testBit_keyByte spec b (by omega)] at hbit
      rwa [show 7 - (7 - i) = i by omega] at hbit
    · have hbound : ∀ byte : UInt8, byte.toNat.testBit i = false := by
        intro byte
        apply Nat.testBit_lt_two_pow
        calc
          byte.toNat < 2 ^ 8 := byte.toNat_lt
          _ ≤ 2 ^ i := Nat.pow_le_pow_right (by decide) hi
      rw [hbound, hbound]

/-- The bytes of the sequence from byte `n` on. -/
def keyBytes (n count : ℕ) : List UInt8 := (List.range count).map fun i ↦ keyByte spec (8 * (n + i))

theorem keyBytes_succ (n count : ℕ) :
    keyBytes spec n (count + 1) = keyByte spec (8 * n) :: keyBytes spec (n + 1) count := by
  have hshift : (fun i ↦ keyByte spec (8 * (n + i))) ∘ Nat.succ =
      fun i ↦ keyByte spec (8 * (n + 1 + i)) := by
    funext i
    rw [Function.comp_apply, show n + Nat.succ i = n + 1 + i by omega]
  rw [keyBytes, List.range_succ_eq_map, List.map_cons, List.map_map, hshift, add_zero, keyBytes]

theorem applyBytes_afterBits (n : ℕ) (data : List UInt8) :
    (afterBits spec (8 * n)).applyBytes data =
      (List.zipWith (· ^^^ ·) data (keyBytes spec n data.length),
        afterBits spec (8 * (n + data.length))) := by
  induction data generalizing n with
  | nil => rfl
  | cons byte data ih =>
    rw [applyBytes, nextByte_afterBits, show 8 * n + 8 = 8 * (n + 1) by ring]
    simp only [ih (n + 1), List.length_cons, keyBytes_succ, List.zipWith_cons_cons]
    rw [show n + 1 + data.length = n + (data.length + 1) by ring]

theorem skipBytes_afterBits (n count : ℕ) :
    (afterBits spec (8 * n)).skipBytes count = afterBits spec (8 * (n + count)) := by
  have hskip : ∀ k, (fun state : Prbs ↦ state.nextBit.2)^[k] (afterBits spec (8 * n)) =
      afterBits spec (8 * n + k) := by
    intro k
    induction k with
    | zero => rfl
    | succ k ih => rw [Function.iterate_succ_apply', ih, nextBit_afterBits]; rfl
  rw [skipBytes, hskip, mul_comm count, mul_add]

end Sequence

/-! ## The DVB sequence -/

/-- One step of the DVB generator, in a form that computes quickly. -/
def dvbStep (register : ℕ) : ℕ :=
  (2 * register + (register / 16384 + register / 8192) % 2) % 32768

theorem countOnes_taps (register : ℕ) :
    Bits.countOnes 32 (register &&& 0x6000) = register / 8192 % 2 + register / 16384 % 2 := by
  have hbit : ∀ i, ((register &&& 0x6000).testBit i).toNat =
      if i = 13 ∨ i = 14 then register / 2 ^ i % 2 else 0 := by
    intro i
    have htap : Nat.testBit 0x6000 i = decide (i = 13 ∨ i = 14) := by
      rcases lt_or_ge i 15 with hi | hi
      · interval_cases i <;> rfl
      · have hlarge : Nat.testBit 0x6000 i = false := by
          apply Nat.testBit_lt_two_pow
          calc
            0x6000 < 2 ^ 15 := by decide
            _ ≤ 2 ^ i := Nat.pow_le_pow_right (by decide) hi
        rw [hlarge, eq_comm, decide_eq_false_iff_not]
        omega
    rw [Nat.testBit_and, htap, ← Nat.toNat_testBit]
    by_cases hi : i = 13 ∨ i = 14 <;> simp [hi]
  rw [Bits.countOnes, Finset.sum_congr rfl fun i _ ↦ hbit i, ← Finset.sum_filter]
  have htapped : (Finset.range 32).filter (fun i ↦ i = 13 ∨ i = 14) = {13, 14} := by decide
  rw [htapped, Finset.sum_pair (by decide)]
  norm_num

theorem step_dvb (register : ℕ) :
    ShiftRegister.step dvbDispersal.stages (feedback dvbDispersal) register = dvbStep register := by
  have hbit : (feedback dvbDispersal register).toNat =
      (register / 16384 + register / 8192) % 2 := by
    rw [feedback, show dvbDispersal.taps = 0x6000 from rfl, countOnes_taps]
    have hsame : (register / 8192 % 2 + register / 16384 % 2) % 2 =
        (register / 16384 + register / 8192) % 2 := by omega
    rw [hsame]
    rcases Nat.mod_two_eq_zero_or_one (register / 16384 + register / 8192) with h | h <;>
      rw [h] <;> rfl
  rw [ShiftRegister.step, hbit]
  rfl

/-- The generator after some steps, as long as it does not run dry. -/
def dvbRun : ℕ → ℕ → ℕ
  | 0, register => register
  | n + 1, register => if register = 0 then 0 else dvbRun n (dvbStep register)

theorem dvbRun_eq (n register : ℕ) : dvbRun n register = dvbStep^[n] register := by
  induction n generalizing register with
  | zero => rfl
  | succ n ih =>
    rw [dvbRun, Function.iterate_succ_apply, ih]
    split_ifs with hzero
    · rw [hzero, show dvbStep 0 = 0 from rfl, Function.iterate_fixed rfl]
    · rfl

set_option maxRecDepth 100000 in
theorem minimalPeriod_dvb : Function.minimalPeriod
    (ShiftRegister.step dvbDispersal.stages (feedback dvbDispersal)) dvbDispersal.seed = 32767 := by
  have hrun : ∀ n, Function.IsPeriodicPt
      (ShiftRegister.step dvbDispersal.stages (feedback dvbDispersal)) n dvbDispersal.seed ↔
        dvbRun n 169 = 169 := by
    intro n
    rw [dvbRun_eq, show dvbStep = ShiftRegister.step dvbDispersal.stages (feedback dvbDispersal) from
      (funext step_dvb).symm]
    rfl
  apply ShiftRegister.minimalPeriod_eq_of_factors [7, 31, 151]
  · norm_num
  · rw [hrun]
    decide
  · intro q hq
    rw [hrun]
    revert q
    decide

/-- Two stretches of at least two bytes are the same exactly if they are a multiple of the period apart. -/
theorem keyBytes_dvb_eq_iff {count : ℕ} (hcount : 2 ≤ count) (a b : ℕ) :
    keyBytes dvbDispersal a count = keyBytes dvbDispersal b count ↔
      8 * a ≡ 8 * b [MOD 32767] := by
  have hwindow := ShiftRegister.window_eq_iff (show dvbDispersal.seed < 2 ^ dvbDispersal.stages by decide)
    (by rw [minimalPeriod_dvb]; decide) (show dvbDispersal.stages ≤ 8 * count by
      show 15 ≤ 8 * count
      omega) (8 * a) (8 * b)
  rw [minimalPeriod_dvb] at hwindow
  rw [← hwindow, keyBytes, keyBytes]
  constructor
  · intro hsame i hi
    have hbyte : keyByte dvbDispersal (8 * (a + i / 8)) = keyByte dvbDispersal (8 * (b + i / 8)) := by
      have hget := congrArg (·[i / 8]?) hsame
      simpa [show i / 8 < count by omega] using hget
    have hbit := (keyByte_eq_iff _ _ _).mp hbyte (i % 8) (Nat.mod_lt _ (by decide))
    rw [show 8 * (a + i / 8) + i % 8 = 8 * a + i by omega,
      show 8 * (b + i / 8) + i % 8 = 8 * b + i by omega] at hbit
    exact hbit
  · intro hbits
    apply List.map_congr_left
    intro i hi
    rw [List.mem_range] at hi
    rw [keyByte_eq_iff]
    intro j hj
    have hbit := hbits (8 * i + j) (by omega)
    rw [show 8 * (a + i) + j = 8 * a + (8 * i + j) by ring,
      show 8 * (b + i) + j = 8 * b + (8 * i + j) by ring]
    exact hbit

end Prbs

end Sdrmm
