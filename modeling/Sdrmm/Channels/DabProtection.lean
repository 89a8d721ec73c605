import Mathlib.Tactic

/-!
# Protection profiles of DAB sub-channels

The puncturing vectors and profiles of `channels/src/dab/protection.rs`.  A profile says how many blocks of the
mother code are punctured by which vector; `codedBits` is what is left of them.
-/

namespace Sdrmm.Dab

def block : ℕ := 128
def cycle : ℕ := 32

def pi : List (List ℕ) :=
  [[1, 1, 0, 0, 1, 0, 0, 0, 1, 0, 0, 0, 1, 0, 0, 0, 1, 0, 0, 0, 1, 0, 0, 0, 1, 0, 0, 0, 1, 0, 0, 0],
   [1, 1, 0, 0, 1, 0, 0, 0, 1, 0, 0, 0, 1, 0, 0, 0, 1, 1, 0, 0, 1, 0, 0, 0, 1, 0, 0, 0, 1, 0, 0, 0],
   [1, 1, 0, 0, 1, 0, 0, 0, 1, 1, 0, 0, 1, 0, 0, 0, 1, 1, 0, 0, 1, 0, 0, 0, 1, 0, 0, 0, 1, 0, 0, 0],
   [1, 1, 0, 0, 1, 0, 0, 0, 1, 1, 0, 0, 1, 0, 0, 0, 1, 1, 0, 0, 1, 0, 0, 0, 1, 1, 0, 0, 1, 0, 0, 0],
   [1, 1, 0, 0, 1, 1, 0, 0, 1, 1, 0, 0, 1, 0, 0, 0, 1, 1, 0, 0, 1, 0, 0, 0, 1, 1, 0, 0, 1, 0, 0, 0],
   [1, 1, 0, 0, 1, 1, 0, 0, 1, 1, 0, 0, 1, 0, 0, 0, 1, 1, 0, 0, 1, 1, 0, 0, 1, 1, 0, 0, 1, 0, 0, 0],
   [1, 1, 0, 0, 1, 1, 0, 0, 1, 1, 0, 0, 1, 1, 0, 0, 1, 1, 0, 0, 1, 1, 0, 0, 1, 1, 0, 0, 1, 0, 0, 0],
   [1, 1, 0, 0, 1, 1, 0, 0, 1, 1, 0, 0, 1, 1, 0, 0, 1, 1, 0, 0, 1, 1, 0, 0, 1, 1, 0, 0, 1, 1, 0, 0],
   [1, 1, 1, 0, 1, 1, 0, 0, 1, 1, 0, 0, 1, 1, 0, 0, 1, 1, 0, 0, 1, 1, 0, 0, 1, 1, 0, 0, 1, 1, 0, 0],
   [1, 1, 1, 0, 1, 1, 0, 0, 1, 1, 0, 0, 1, 1, 0, 0, 1, 1, 1, 0, 1, 1, 0, 0, 1, 1, 0, 0, 1, 1, 0, 0],
   [1, 1, 1, 0, 1, 1, 0, 0, 1, 1, 1, 0, 1, 1, 0, 0, 1, 1, 1, 0, 1, 1, 0, 0, 1, 1, 0, 0, 1, 1, 0, 0],
   [1, 1, 1, 0, 1, 1, 0, 0, 1, 1, 1, 0, 1, 1, 0, 0, 1, 1, 1, 0, 1, 1, 0, 0, 1, 1, 1, 0, 1, 1, 0, 0],
   [1, 1, 1, 0, 1, 1, 1, 0, 1, 1, 1, 0, 1, 1, 0, 0, 1, 1, 1, 0, 1, 1, 0, 0, 1, 1, 1, 0, 1, 1, 0, 0],
   [1, 1, 1, 0, 1, 1, 1, 0, 1, 1, 1, 0, 1, 1, 0, 0, 1, 1, 1, 0, 1, 1, 1, 0, 1, 1, 1, 0, 1, 1, 0, 0],
   [1, 1, 1, 0, 1, 1, 1, 0, 1, 1, 1, 0, 1, 1, 1, 0, 1, 1, 1, 0, 1, 1, 1, 0, 1, 1, 1, 0, 1, 1, 0, 0],
   [1, 1, 1, 0, 1, 1, 1, 0, 1, 1, 1, 0, 1, 1, 1, 0, 1, 1, 1, 0, 1, 1, 1, 0, 1, 1, 1, 0, 1, 1, 1, 0],
   [1, 1, 1, 1, 1, 1, 1, 0, 1, 1, 1, 0, 1, 1, 1, 0, 1, 1, 1, 0, 1, 1, 1, 0, 1, 1, 1, 0, 1, 1, 1, 0],
   [1, 1, 1, 1, 1, 1, 1, 0, 1, 1, 1, 0, 1, 1, 1, 0, 1, 1, 1, 1, 1, 1, 1, 0, 1, 1, 1, 0, 1, 1, 1, 0],
   [1, 1, 1, 1, 1, 1, 1, 0, 1, 1, 1, 1, 1, 1, 1, 0, 1, 1, 1, 1, 1, 1, 1, 0, 1, 1, 1, 0, 1, 1, 1, 0],
   [1, 1, 1, 1, 1, 1, 1, 0, 1, 1, 1, 1, 1, 1, 1, 0, 1, 1, 1, 1, 1, 1, 1, 0, 1, 1, 1, 1, 1, 1, 1, 0],
   [1, 1, 1, 1, 1, 1, 1, 1, 1, 1, 1, 1, 1, 1, 1, 0, 1, 1, 1, 1, 1, 1, 1, 0, 1, 1, 1, 1, 1, 1, 1, 0],
   [1, 1, 1, 1, 1, 1, 1, 1, 1, 1, 1, 1, 1, 1, 1, 0, 1, 1, 1, 1, 1, 1, 1, 1, 1, 1, 1, 1, 1, 1, 1, 0],
   [1, 1, 1, 1, 1, 1, 1, 1, 1, 1, 1, 1, 1, 1, 1, 1, 1, 1, 1, 1, 1, 1, 1, 1, 1, 1, 1, 1, 1, 1, 1, 0],
   [1, 1, 1, 1, 1, 1, 1, 1, 1, 1, 1, 1, 1, 1, 1, 1, 1, 1, 1, 1, 1, 1, 1, 1, 1, 1, 1, 1, 1, 1, 1, 1]]

def piTail : List ℕ := [1, 1, 0, 0, 1, 1, 0, 0, 1, 1, 0, 0, 1, 1, 0, 0, 1, 1, 0, 0, 1, 1, 0, 0]

/-- The bit rate, the protection level, the lengths of the segments and their vectors. -/
def uepProfiles : List (ℕ × ℕ × List ℕ × List ℕ) :=
  [(32, 5, [3, 4, 17, 0], [5, 3, 2, 0]), (32, 4, [3, 3, 18, 0], [11, 6, 5, 0]),
   (32, 3, [3, 4, 14, 3], [15, 9, 6, 8]), (32, 2, [3, 4, 14, 3], [22, 13, 8, 13]),
   (32, 1, [3, 5, 13, 3], [24, 17, 12, 17]), (48, 5, [4, 3, 26, 3], [5, 4, 2, 3]),
   (48, 4, [3, 4, 26, 3], [9, 6, 4, 6]), (48, 3, [3, 4, 26, 3], [15, 10, 6, 9]),
   (48, 2, [3, 4, 26, 3], [24, 14, 8, 15]), (48, 1, [3, 5, 25, 3], [24, 18, 13, 18]),
   (56, 5, [6, 10, 23, 3], [5, 4, 2, 3]), (56, 4, [6, 10, 23, 3], [9, 6, 4, 5]),
   (56, 3, [6, 12, 21, 3], [16, 7, 6, 9]), (56, 2, [6, 10, 23, 3], [23, 13, 8, 13]),
   (64, 5, [6, 9, 31, 2], [5, 3, 2, 3]), (64, 4, [6, 9, 33, 0], [11, 6, 5, 0]),
   (64, 3, [6, 12, 27, 3], [16, 8, 6, 9]), (64, 2, [6, 10, 29, 3], [23, 13, 8, 13]),
   (64, 1, [6, 11, 28, 3], [24, 18, 12, 18]), (80, 5, [6, 10, 41, 3], [6, 3, 2, 3]),
   (80, 4, [6, 10, 41, 3], [11, 6, 5, 6]), (80, 3, [6, 11, 40, 3], [16, 8, 6, 7]),
   (80, 2, [6, 10, 41, 3], [23, 13, 8, 13]), (80, 1, [6, 10, 41, 3], [24, 7, 12, 18]),
   (96, 5, [7, 9, 53, 3], [5, 4, 2, 4]), (96, 4, [7, 10, 52, 3], [9, 6, 4, 6]),
   (96, 3, [6, 12, 51, 3], [16, 9, 6, 10]), (96, 2, [6, 10, 53, 3], [22, 12, 9, 12]),
   (96, 1, [6, 13, 50, 3], [24, 18, 13, 19]), (112, 5, [14, 17, 50, 3], [5, 4, 2, 5]),
   (112, 4, [11, 21, 49, 3], [9, 6, 4, 8]), (112, 3, [11, 23, 47, 3], [16, 8, 6, 9]),
   (112, 2, [11, 21, 49, 3], [23, 12, 9, 14]), (128, 5, [12, 19, 62, 3], [5, 3, 2, 4]),
   (128, 4, [11, 21, 61, 3], [11, 6, 5, 7]), (128, 3, [11, 22, 60, 3], [16, 9, 6, 10]),
   (128, 2, [11, 21, 61, 3], [22, 12, 9, 14]), (128, 1, [11, 20, 62, 3], [24, 17, 13, 19]),
   (160, 5, [11, 19, 87, 3], [5, 4, 2, 4]), (160, 4, [11, 23, 83, 3], [11, 6, 5, 9]),
   (160, 3, [11, 24, 82, 3], [16, 8, 6, 11]), (160, 2, [11, 21, 85, 3], [22, 11, 9, 13]),
   (160, 1, [11, 22, 84, 3], [24, 18, 12, 19]), (192, 5, [11, 20, 110, 3], [6, 4, 2, 5]),
   (192, 4, [11, 22, 108, 3], [10, 6, 4, 9]), (192, 3, [11, 24, 106, 3], [16, 10, 6, 11]),
   (192, 2, [11, 20, 110, 3], [22, 13, 9, 13]), (192, 1, [11, 21, 109, 3], [24, 20, 13, 24]),
   (224, 5, [12, 22, 131, 3], [8, 6, 2, 6]), (224, 4, [12, 26, 127, 3], [12, 8, 4, 11]),
   (224, 3, [11, 20, 134, 3], [16, 10, 7, 9]), (224, 2, [11, 22, 132, 3], [24, 16, 10, 15]),
   (224, 1, [11, 24, 130, 3], [24, 20, 12, 20]), (256, 5, [11, 24, 154, 3], [6, 5, 2, 5]),
   (256, 4, [11, 24, 154, 3], [12, 9, 5, 10]), (256, 3, [11, 27, 151, 3], [16, 10, 7, 10]),
   (256, 2, [11, 22, 156, 3], [24, 14, 10, 13]), (256, 1, [11, 26, 152, 3], [24, 19, 14, 18]),
   (320, 5, [11, 26, 200, 3], [8, 5, 2, 6]), (320, 4, [11, 25, 201, 3], [13, 9, 5, 10]),
   (320, 2, [11, 26, 200, 3], [24, 17, 9, 17]), (384, 5, [11, 27, 247, 3], [8, 6, 2, 7]),
   (384, 3, [11, 24, 250, 3], [16, 9, 7, 10]), (384, 1, [12, 28, 245, 3], [24, 20, 14, 23])]

/-- The size in capacity units, the protection level and the bit rate in kbit/s. -/
def uepTable : List (ℕ × ℕ × ℕ) :=
  [(16, 5, 32), (21, 4, 32), (24, 3, 32), (29, 2, 32), (35, 1, 32), (24, 5, 48),
   (29, 4, 48), (35, 3, 48), (42, 2, 48), (52, 1, 48), (29, 5, 56), (35, 4, 56),
   (42, 3, 56), (52, 2, 56), (32, 5, 64), (42, 4, 64), (48, 3, 64), (58, 2, 64),
   (70, 1, 64), (40, 5, 80), (52, 4, 80), (58, 3, 80), (70, 2, 80), (84, 1, 80),
   (48, 5, 96), (58, 4, 96), (70, 3, 96), (84, 2, 96), (104, 1, 96), (58, 5, 112),
   (70, 4, 112), (84, 3, 112), (104, 2, 112), (64, 5, 128), (84, 4, 128), (96, 3, 128),
   (116, 2, 128), (140, 1, 128), (80, 5, 160), (104, 4, 160), (116, 3, 160), (140, 2, 160),
   (168, 1, 160), (96, 5, 192), (116, 4, 192), (140, 3, 192), (168, 2, 192), (208, 1, 192),
   (116, 5, 224), (140, 4, 224), (168, 3, 224), (208, 2, 224), (232, 1, 224), (128, 5, 256),
   (168, 4, 256), (192, 3, 256), (232, 2, 256), (280, 1, 256), (160, 5, 320), (208, 4, 320),
   (280, 2, 320), (192, 5, 384), (280, 3, 384), (416, 1, 384)]

inductive Eep
  | a
  | b
deriving DecidableEq

structure Protection where
  segments : List (ℕ × ℕ)
  frameBits : ℕ
  codedBits : ℕ
deriving DecidableEq

def eepA (bitrate level : ℕ) : Option (ℕ × ℕ × ℕ × ℕ) :=
  match level with
  | 1 => some (6 * bitrate / 8 - 3, 24, 3, 23)
  | 2 =>
    if bitrate = 8 then some (5, 13, 1, 12)
    else some (2 * bitrate / 8 - 3, 14, 4 * bitrate / 8 + 3, 13)
  | 3 => some (6 * bitrate / 8 - 3, 8, 3, 7)
  | 4 => some (4 * bitrate / 8 - 3, 3, 2 * bitrate / 8 + 3, 2)
  | _ => none

def eepB (bitrate level : ℕ) : Option (ℕ × ℕ × ℕ × ℕ) :=
  let blocks := 24 * bitrate / 32
  if blocks < 3 then none
  else match level with
    | 1 => some (blocks - 3, 10, 3, 9)
    | 2 => some (blocks - 3, 6, 3, 5)
    | 3 => some (blocks - 3, 4, 3, 3)
    | 4 => some (blocks - 3, 2, 3, 1)
    | _ => none

def kept (index : ℕ) : ℕ := ((pi.getD (index - 1) []).filter (· = 1)).length

namespace Protection

def build (frameBits : ℕ) (segments : List (ℕ × ℕ)) : Option Protection :=
  if (segments.map Prod.fst).sum * cycle ≠ frameBits then none
  else
    let codedBits := (segments.map fun (count, index) ↦ count * block / cycle * kept index).sum +
      (piTail.filter (· = 1)).length
    some { segments, frameBits, codedBits }

def eep (bitrateKbps : ℕ) (profile : Eep) (level : ℕ) : Option Protection := do
  let (l1, pi1, l2, pi2) ← match profile with
    | .a => eepA bitrateKbps level
    | .b => eepB bitrateKbps level
  build (24 * bitrateKbps) [(l1, pi1), (l2, pi2)]

def uep (tableIndex : ℕ) : Option Protection := do
  let (_, level, bitrate) ← uepTable[tableIndex]?
  let (_, _, lengths, indices) ← uepProfiles.find? fun (rate, protection, _) ↦
    rate = bitrate ∧ protection = level
  build (24 * bitrate) ((lengths.zip indices).filter fun (count, index) ↦ count > 0 ∧ index > 0)

/-- Where the mother code is sent. -/
def mask (protection : Protection) : List Bool :=
  (protection.segments.flatMap fun (count, index) ↦
    (List.range (count * block)).map fun position ↦ (pi.getD (index - 1) []).getD (position % cycle) 0 == 1) ++
  piTail.map (· == 1)

end Protection

def uepBitrateKbps (tableIndex : ℕ) : Option ℕ := uepTable[tableIndex]?.map fun (_, _, bitrate) ↦ bitrate

def uepSizeCu (tableIndex : ℕ) : Option ℕ := uepTable[tableIndex]?.map fun (size, _, _) ↦ size

/-- The bit rate is cut to 16 bits. -/
def eepBitrateKbps (sizeCu : ℕ) (profile : Eep) (level : ℕ) : Option ℕ :=
  let bitrate := match profile, level with
    | .a, 1 => some (sizeCu / 12 * 8)
    | .a, 2 => some (sizeCu / 8 * 8)
    | .a, 3 => some (sizeCu / 6 * 8)
    | .a, 4 => some (sizeCu / 4 * 8)
    | .b, 1 => some (sizeCu / 27 * 32)
    | .b, 2 => some (sizeCu / 21 * 32)
    | .b, 3 => some (sizeCu / 18 * 32)
    | .b, 4 => some (sizeCu / 15 * 32)
    | _, _ => none
  bitrate.bind fun bitrate ↦ if bitrate > 0 then some (bitrate % 2 ^ 16) else none

/-! ## Sizes -/

def cuBits : ℕ := 64

/-- The capacity units of one bit-rate step of an equal-error profile. -/
def eepUnit : Eep → ℕ → ℕ
  | .a, 1 => 12
  | .a, 2 => 8
  | .a, 3 => 6
  | .a, 4 => 4
  | .b, 1 => 27
  | .b, 2 => 21
  | .b, 3 => 18
  | .b, 4 => 15
  | _, _ => 0

/-- The bit rate of that step. -/
def eepStep : Eep → ℕ
  | .a => 8
  | .b => 32

theorem eepBitrateKbps_unit (profile : Eep) {level count : ℕ} (hlevel : 1 ≤ level) (hmost : level ≤ 4)
    (hcount : 0 < count) (hsize : eepUnit profile level * count < 1024) :
    eepBitrateKbps (eepUnit profile level * count) profile level = some (eepStep profile * count) := by
  have hstep : ∀ unit step : ℕ, 0 < unit → unit * count < 1024 → step < 64 → 0 < step →
      ((some (unit * count / unit * step) : Option ℕ).bind fun bitrate ↦
        if bitrate > 0 then some (bitrate % 2 ^ 16) else none) = some (step * count) := by
    intro unit step hunit hlt hsmall hpositive
    have hcountLt : count < 1024 := lt_of_le_of_lt (Nat.le_mul_of_pos_left count hunit) hlt
    have hbitrate : count * step < 2 ^ 16 := by nlinarith
    rw [Nat.mul_div_cancel_left count hunit, Option.bind_some, if_pos (Nat.mul_pos hcount hpositive),
      Nat.mod_eq_of_lt hbitrate, Nat.mul_comm]
  interval_cases level
  all_goals cases profile
  all_goals exact hstep _ _ (by decide) hsize (by decide) (by decide)

theorem build_pair {frameBits l1 pi1 l2 pi2 size : ℕ} (hframe : (l1 + l2) * cycle = frameBits)
    (hsize : 4 * l1 * kept pi1 + 4 * l2 * kept pi2 + 12 = size) :
    ∃ protection, Protection.build frameBits [(l1, pi1), (l2, pi2)] = some protection ∧
      protection.codedBits = size := by
  have hblocks : ∀ count, count * block / cycle = 4 * count := by
    intro count
    unfold block cycle
    omega
  have hsum : (([(l1, pi1), (l2, pi2)] : List (ℕ × ℕ)).map Prod.fst).sum * cycle = frameBits := by
    rw [← hframe]
    rfl
  unfold Protection.build
  rw [if_neg (not_not.mpr hsum)]
  refine ⟨_, rfl, ?_⟩
  rw [← hsize, ← hblocks, ← hblocks]
  rfl

/-- An equal-error sub-channel of whole units is coded to its capacity. -/
theorem eep_unit (profile : Eep) {level count : ℕ} (hlevel : 1 ≤ level) (hmost : level ≤ 4)
    (hcount : 0 < count) :
    ∃ protection, Protection.eep (eepStep profile * count) profile level = some protection ∧
      protection.codedBits = eepUnit profile level * count * cuBits := by
  have hkept : kept 24 = 32 ∧ kept 23 = 31 ∧ kept 14 = 22 ∧ kept 13 = 21 ∧ kept 12 = 20 ∧ kept 10 = 18 ∧
      kept 9 = 17 ∧ kept 8 = 16 ∧ kept 7 = 15 ∧ kept 6 = 14 ∧ kept 5 = 13 ∧ kept 4 = 12 ∧ kept 3 = 11 ∧
      kept 2 = 10 ∧ kept 1 = 9 := by decide
  obtain ⟨h24, h23, h14, h13, h12, h10, h9, h8, h7, h6, h5, h4, h3, h2, h1⟩ := hkept
  cases profile with
  | a =>
    have heep : ∀ {l1 pi1 l2 pi2}, eepA (8 * count) level = some (l1, pi1, l2, pi2) →
        Protection.eep (8 * count) .a level =
          Protection.build (24 * (8 * count)) [(l1, pi1), (l2, pi2)] := by
      intro l1 pi1 l2 pi2 hsegments
      unfold Protection.eep
      rw [hsegments]
      rfl
    interval_cases level
    all_goals simp only [eepStep, eepUnit, cuBits]
    · rw [heep rfl]
      apply build_pair
      · unfold cycle
        omega
      · rw [h24, h23]
        omega
    · by_cases hone : count = 1
      · subst hone
        rw [heep rfl]
        apply build_pair rfl
        rw [h13, h12]
      · have hbitrate : 8 * count ≠ 8 := by omega
        rw [heep (if_neg hbitrate)]
        apply build_pair
        · unfold cycle
          omega
        · rw [h14, h13]
          omega
    · rw [heep rfl]
      apply build_pair
      · unfold cycle
        omega
      · rw [h8, h7]
        omega
    · rw [heep rfl]
      apply build_pair
      · unfold cycle
        omega
      · rw [h3, h2]
        omega
  | b =>
    have hblocks : ¬24 * (32 * count) / 32 < 3 := by omega
    have heep : ∀ {l1 pi1 l2 pi2}, eepB (32 * count) level = some (l1, pi1, l2, pi2) →
        Protection.eep (32 * count) .b level =
          Protection.build (24 * (32 * count)) [(l1, pi1), (l2, pi2)] := by
      intro l1 pi1 l2 pi2 hsegments
      unfold Protection.eep
      rw [hsegments]
      rfl
    have hframe : (24 * (32 * count) / 32 - 3 + 3) * cycle = 24 * (32 * count) := by
      unfold cycle
      omega
    interval_cases level
    all_goals simp only [eepStep, eepUnit, cuBits]
    all_goals rw [heep (if_neg hblocks)]
    all_goals apply build_pair hframe
    · rw [h10, h9]
      omega
    · rw [h6, h5]
      omega
    · rw [h4, h3]
      omega
    · rw [h2, h1]
      omega

/-- The table indices of the unequal-error profiles that do not fill their capacity. -/
def uepShort : List ℕ :=
  [4, 7, 13, 17, 18, 22, 23, 26, 32, 35, 37, 46, 48, 52, 54, 56, 57, 58, 59, 62, 63]

theorem uep_codedBits : ∀ index < 64, ∃ size bitrate protection, uepSizeCu index = some size ∧
    uepBitrateKbps index = some bitrate ∧ Protection.uep index = some protection ∧
    (protection.codedBits = size * cuBits ↔ index ∉ uepShort) := by
  have hall : ∀ index < 64, (uepSizeCu index).isSome ∧ (uepBitrateKbps index).isSome ∧
      ((Protection.uep index).map Protection.codedBits = (uepSizeCu index).map (· * cuBits) ↔
        index ∉ uepShort) ∧ (Protection.uep index).isSome := by
    decide
  intro index hindex
  obtain ⟨hsize, hbitrate, hcoded, hprotection⟩ := hall index hindex
  obtain ⟨size, hsize⟩ := Option.isSome_iff_exists.mp hsize
  obtain ⟨bitrate, hbitrate⟩ := Option.isSome_iff_exists.mp hbitrate
  obtain ⟨protection, hprotection⟩ := Option.isSome_iff_exists.mp hprotection
  rw [hsize, hprotection, Option.map_some, Option.map_some, Option.some_inj] at hcoded
  exact ⟨size, bitrate, protection, hsize, hbitrate, hprotection, hcoded⟩

end Sdrmm.Dab
