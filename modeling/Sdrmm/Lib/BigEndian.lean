import Mathlib.Tactic

/-!
# Big-endian numbers

Two and four bytes as a number, the highest byte first, and back.
-/

namespace Sdrmm

def be16 (high low : UInt8) : ℕ := high.toNat * 256 + low.toNat

def toBe16 (value : ℕ) : List UInt8 := [UInt8.ofNat (value / 256), UInt8.ofNat value]

def toBe32 (value : ℕ) : List UInt8 :=
  [UInt8.ofNat (value / 16777216), UInt8.ofNat (value / 65536), UInt8.ofNat (value / 256),
    UInt8.ofNat value]

@[simp]
theorem length_toBe16 (value : ℕ) : (toBe16 value).length = 2 := rfl

@[simp]
theorem length_toBe32 (value : ℕ) : (toBe32 value).length = 4 := rfl

theorem be16_toBe16 {value : ℕ} (hvalue : value < 0x10000) :
    be16 (UInt8.ofNat (value / 256)) (UInt8.ofNat value) = value := by
  rw [be16, UInt8.toNat_ofNat', UInt8.toNat_ofNat']
  omega

end Sdrmm
