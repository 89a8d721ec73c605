import Mathlib.Tactic

/-!
# Little-endian byte strings

Fixed-width little-endian encoding of natural numbers and its inverse on byte lists.  Values that
do not fit are truncated, as a machine conversion does; the round-trip laws state exactly which
values survive.
-/

namespace Sdrmm.LittleEndian

/-- The `width` low bytes of `value`, least significant first. -/
def toBytes : ℕ → ℕ → List UInt8
  | 0, _ => []
  | width + 1, value => UInt8.ofNat value :: toBytes width (value / 256)

def ofBytes : List UInt8 → ℕ
  | [] => 0
  | byte :: bytes => byte.toNat + 256 * ofBytes bytes

@[simp]
theorem length_toBytes (width value : ℕ) : (toBytes width value).length = width := by
  induction width generalizing value with
  | zero => rfl
  | succ width ih => simp [toBytes, ih]

theorem ofBytes_lt (bytes : List UInt8) : ofBytes bytes < 256 ^ bytes.length := by
  induction bytes with
  | nil => simp [ofBytes]
  | cons byte bytes ih =>
    have hbyte := byte.toNat_lt
    simp only [ofBytes, List.length_cons, pow_succ]
    omega

theorem ofBytes_toBytes (width value : ℕ) (hfits : value < 256 ^ width) :
    ofBytes (toBytes width value) = value := by
  induction width generalizing value with
  | zero => simp_all [toBytes, ofBytes]
  | succ width ih =>
    have hrest : value / 256 < 256 ^ width := by
      rw [Nat.div_lt_iff_lt_mul (by norm_num), ← pow_succ]
      exact hfits
    simp only [toBytes, ofBytes, ih _ hrest, UInt8.toNat_ofNat']
    omega

theorem toBytes_ofBytes (bytes : List UInt8) : toBytes bytes.length (ofBytes bytes) = bytes := by
  induction bytes with
  | nil => rfl
  | cons byte bytes ih =>
    have hbyte := byte.toNat_lt
    have hlow : UInt8.ofNat (byte.toNat + 256 * ofBytes bytes) = byte := by
      apply UInt8.toNat_inj.mp
      rw [UInt8.toNat_ofNat']
      omega
    have hhigh : (byte.toNat + 256 * ofBytes bytes) / 256 = ofBytes bytes := by omega
    simp only [List.length_cons, ofBytes, toBytes, hlow, hhigh, ih]

end Sdrmm.LittleEndian
