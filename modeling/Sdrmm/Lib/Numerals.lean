import Mathlib

/-!
# Numerals of finite types

The sizes of the finite types that are used with numerals are not zero, by name: a numeral of such a
type is the same term in every module.
-/

namespace Sdrmm.Numerals

instance neZero_two : NeZero 2 := ⟨by decide⟩

instance neZero_four : NeZero 4 := ⟨by decide⟩

instance neZero_eight : NeZero 8 := ⟨by decide⟩

instance neZero_sixteen : NeZero 16 := ⟨by decide⟩

instance neZero_byte : NeZero 256 := ⟨by decide⟩

end Sdrmm.Numerals
