import Sdrmm.Cps.Codeplug

/-!
# Tones

The CTCSS table and the octal DCS codes of `cps/src/tones.rs`.
-/

namespace Sdrmm.Cps

def ctcssDecihertz : List ℕ :=
  [625, 670, 693, 719, 744, 770, 797, 825, 854, 885, 915, 948, 974, 1000, 1035, 1072, 1109, 1148,
    1188, 1230, 1273, 1318, 1365, 1413, 1462, 1514, 1567, 1598, 1622, 1655, 1679, 1713, 1738, 1773,
    1799, 1835, 1862, 1899, 1928, 1966, 1995, 2035, 2065, 2107, 2181, 2257, 2291, 2336, 2418, 2503,
    2541]

/-- The first entry nearest to a tone. -/
def nearestCtcssIndex (decihertz : ℕ) : ℕ :=
  let distance := fun index ↦ absDiff (ctcssDecihertz.getD index 0) decihertz
  (List.range ctcssDecihertz.length).foldl
    (fun best index ↦ if distance index < distance best then index else best) 0

def ctcssFromIndex (index : ℕ) : Option ℕ := ctcssDecihertz[index]?

/-- The lowest decimal digits of `rest`, read as octal ones. -/
def octalOf : ℕ → ℕ → ℕ
  | 0, _ => 0
  | digits + 1, rest => rest % 10 + 8 * octalOf digits (rest / 10)

/-- The lowest octal digits of `rest`, read as decimal ones. -/
def decimalOf : ℕ → ℕ → ℕ
  | 0, _ => 0
  | digits + 1, rest => rest % 8 + 10 * decimalOf digits (rest / 8)

def dcsToBinary (code : ℕ) : ℕ := octalOf 3 code % 512

def dcsFromBinary (binary : ℕ) : ℕ := decimalOf 3 (binary % 512)

end Sdrmm.Cps
