import Sdrmm.Channels.DmrLink
import Sdrmm.Cps.Bits
import Sdrmm.Lib.Numerals

/-!
# Talker aliases on the air

The link controls that carry an alias: a header with its format, its length and its first bits, and up to three
blocks with the rest.
-/

namespace Sdrmm.Dmr

/-! ## Bits -/

/-- A number in so many bits, the highest first. -/
def msb (width value : ℕ) : List Bool := (List.range width).map fun i ↦ value.testBit (width - 1 - i)

theorem length_msb (width value : ℕ) : (msb width value).length = width := by
  rw [msb, List.length_map, List.length_range]

theorem msb_succ (width value : ℕ) : msb (width + 1) value = msb width (value / 2) ++ [value.testBit 0] := by
  rw [msb, List.range_succ, List.map_append, List.map_singleton, Nat.add_sub_cancel, Nat.sub_self]
  apply congrArg (· ++ [value.testBit 0])
  apply List.map_congr_left
  intro i hi
  have hlt := List.mem_range.mp hi
  rw [Nat.testBit_div_two]
  congr 1
  omega

theorem foldl_msb (width value : ℕ) :
    (msb width value).foldl (fun acc bit ↦ acc <<< 1 ||| bit.toNat) 0 = value % 2 ^ width := by
  induction width generalizing value with
  | zero => exact (Nat.mod_one value).symm
  | succ width ih =>
    rw [msb_succ, List.foldl_append, ih, List.foldl_cons, List.foldl_nil, ← Nat.shiftLeft_add_eq_or_of_lt
      (show (value.testBit 0).toNat < 2 ^ 1 from Bool.toNat_lt _), Nat.shiftLeft_eq, Nat.testBit_zero,
      Nat.pow_succ' (n := width), Nat.mod_mul]
    have hbit : (decide (value % 2 = 1)).toNat = value % 2 := by
      rcases Nat.mod_two_eq_zero_or_one value with hzero | hone
      · rw [hzero]
        rfl
      · rw [hone]
        rfl
    rw [hbit]
    omega

/-- A field of some bits. -/
theorem bitsToU32_field {before after : List Bool} {offset : ℕ} (hoffset : before.length = offset) {width value : ℕ}
    (hvalue : value < 2 ^ width) : bitsToU32 (before ++ (msb width value ++ after)) offset width = value := by
  rw [bitsToU32, ← hoffset, List.drop_left]
  have htake : (msb width value ++ after).take width = msb width value := List.take_left' (length_msb width value)
  rw [htake, foldl_msb, Nat.mod_eq_of_lt hvalue]

theorem length_flatMap_msb (width : ℕ) (units : List ℕ) :
    (units.flatMap (msb width)).length = units.length * width := by
  induction units with
  | nil => exact (Nat.zero_mul _).symm
  | cons unit units ih =>
    rw [List.flatMap_cons, List.length_append, length_msb, ih, List.length_cons, Nat.succ_mul, Nat.add_comm]

theorem asChunks_flatMap {width : ℕ} (hwidth : 0 < width) (units : List ℕ) :
    asChunks width (units.flatMap (msb width)) = units.map (msb width) := by
  induction units with
  | nil =>
    rw [asChunks, List.flatMap_nil, List.length_nil, Nat.zero_div]
    rfl
  | cons unit units ih =>
    have hcount : ((unit :: units).flatMap (msb width)).length / width = units.length + 1 := by
      rw [length_flatMap_msb, List.length_cons, Nat.mul_div_cancel _ hwidth]
    have hcounts : (units.flatMap (msb width)).length / width = units.length := by
      rw [length_flatMap_msb, Nat.mul_div_cancel _ hwidth]
    rw [asChunks, hcounts] at ih
    rw [asChunks, hcount, List.range_succ_eq_map, List.map_cons, List.map_map, List.map_cons, ← ih, Nat.mul_zero,
      List.drop_zero, List.flatMap_cons]
    apply congrArg₂ List.cons
    · exact List.take_left' (length_msb width unit)
    · apply List.map_congr_left
      intro i _
      rw [Function.comp_apply, Nat.mul_succ, Nat.add_comm, ← List.drop_drop]
      exact congrArg (fun rest ↦ (List.drop (width * i) rest).take width) (List.drop_left' (length_msb width unit))

theorem chunk_value {width value : ℕ} (hvalue : value < 2 ^ width) : bitsToU32 (msb width value) 0 width = value := by
  have hfield := @bitsToU32_field [] [] 0 rfl width value hvalue
  rwa [List.nil_append, List.append_nil] at hfield

/-! ## The formats -/

def unitWidth : Fin 4 → ℕ
  | 0 => 7
  | 1 => 8
  | 2 => 8
  | 3 => 16

def unitsOf : Fin 4 → List Char → List ℕ
  | 0, text => text.map Char.toNat
  | 1, text => text.map Char.toNat
  | 2, text => (Text.bytes text).map UInt8.toNat
  | 3, text => Cps.encodeUtf16 (String.ofList text)

/-- The characters a format has. -/
def Writes (format : Fin 4) (text : List Char) : Prop :=
  (format = 0 → ∀ c ∈ text, c.toNat < 128) ∧ (format = 1 → ∀ c ∈ text, c.toNat < 256)

theorem char_valid (c : Char) : c.toNat < 0xd800 ∨ 0xdfff < c.toNat ∧ c.toNat < 0x110000 := c.valid

theorem utf16_lt (text : List Char) : ∀ unit ∈ Cps.encodeUtf16 (String.ofList text), unit < 2 ^ 16 := by
  intro unit hunit
  rw [Cps.encodeUtf16, String.toList_ofList] at hunit
  obtain ⟨c, -, hunit⟩ := List.mem_flatMap.mp hunit
  have hvalid := char_valid c
  split at hunit
  · rename_i hsmall
    rw [List.mem_singleton.mp hunit]
    exact hsmall
  · rcases List.mem_cons.mp hunit with rfl | hlow
    · omega
    · rw [List.mem_singleton.mp hlow]
      omega

theorem decodeUtf16_unit {unit : ℕ} (hunit : unit < 0xd800 ∨ 0xe000 ≤ unit) (rest : List ℕ) :
    Mot.decodeUtf16 (unit :: rest) = (Char.ofNat unit :: ·) <$> Mot.decodeUtf16 rest := by
  rw [Mot.decodeUtf16.eq_def]
  exact if_pos hunit

theorem decodeUtf16_pair {high low : ℕ} (hhigh : ¬(high < 0xd800 ∨ 0xe000 ≤ high))
    (hpair : high < 0xdc00 ∧ 0xdc00 ≤ low ∧ low < 0xe000) (rest : List ℕ) :
    Mot.decodeUtf16 (high :: low :: rest) =
      (Char.ofNat (0x10000 + (high - 0xd800) * 0x400 + (low - 0xdc00)) :: ·) <$> Mot.decodeUtf16 rest := by
  rw [Mot.decodeUtf16.eq_def]
  exact (if_neg hhigh).trans (if_pos hpair)

theorem decodeUtf16_encode (text : List Char) :
    Mot.decodeUtf16 (Cps.encodeUtf16 (String.ofList text)) = some text := by
  rw [Cps.encodeUtf16, String.toList_ofList]
  induction text with
  | nil => rfl
  | cons c text ih =>
    have hvalid := char_valid c
    rw [List.flatMap_cons]
    by_cases hsmall : c.toNat < 0x10000
    · rw [if_pos hsmall, List.singleton_append, decodeUtf16_unit (by omega), ih, Char.ofNat_toNat]
      rfl
    · have hcode : 0x10000 + (0xd800 + (c.toNat - 0x10000) / 0x400 - 0xd800) * 0x400 +
          (0xdc00 + (c.toNat - 0x10000) % 0x400 - 0xdc00) = c.toNat := by
        omega
      rw [if_neg hsmall, List.cons_append, List.singleton_append, decodeUtf16_pair (by omega) (by omega), ih, hcode,
        Char.ofNat_toNat]
      rfl

theorem units_lt {format : Fin 4} {text : List Char} (hwrites : Writes format text) :
    ∀ unit ∈ unitsOf format text, unit < 2 ^ unitWidth format := by
  match format with
  | 0 =>
    intro unit hunit
    obtain ⟨c, hc, rfl⟩ := List.mem_map.mp hunit
    exact hwrites.1 rfl c hc
  | 1 =>
    intro unit hunit
    obtain ⟨c, hc, rfl⟩ := List.mem_map.mp hunit
    exact hwrites.2 rfl c hc
  | 2 =>
    intro unit hunit
    obtain ⟨byte, -, rfl⟩ := List.mem_map.mp hunit
    exact byte.toNat_lt
  | 3 => exact utf16_lt text

theorem unitWidth_pos : ∀ format, 0 < unitWidth format := by
  decide

/-- The text of the bits that are sent of it. -/
theorem textOf_units {format : Fin 4} {text : List Char} (hwrites : Writes format text) :
    TalkerAlias.textOf format.val ((unitsOf format text).flatMap (msb (unitWidth format))) = some text := by
  have hlt := units_lt hwrites
  have hvalues : ∀ {T : Type} (f : ℕ → T), ((asChunks (unitWidth format)
      ((unitsOf format text).flatMap (msb (unitWidth format)))).map fun bits ↦
        f (bitsToU32 bits 0 (unitWidth format))) = (unitsOf format text).map f := by
    intro T f
    rw [asChunks_flatMap (unitWidth_pos format), List.map_map]
    apply List.map_congr_left
    intro unit hunit
    rw [Function.comp_apply, chunk_value (hlt unit hunit)]
  match format with
  | 0 =>
    apply congrArg some
    apply (hvalues fun value ↦ Char.ofNat (value % 256)).trans
    rw [unitsOf, List.map_map]
    apply (List.map_congr_left _).trans (List.map_id text)
    intro c hc
    have hsmall := hwrites.1 rfl c hc
    rw [Function.comp_apply, Nat.mod_eq_of_lt (by omega), Char.ofNat_toNat]
    rfl
  | 1 =>
    apply congrArg some
    apply (hvalues fun value ↦ Char.ofNat (value % 256)).trans
    rw [unitsOf, List.map_map]
    apply (List.map_congr_left _).trans (List.map_id text)
    intro c hc
    rw [Function.comp_apply, Nat.mod_eq_of_lt (hwrites.2 rfl c hc), Char.ofNat_toNat]
    rfl
  | 2 =>
    apply (congrArg (fun bytes ↦ (Mot.fromUtf8 bytes).map String.toList) (hvalues UInt8.ofNat)).trans
    have hbytes : UInt8.ofNat ∘ UInt8.toNat = id := funext fun _ ↦ UInt8.ofNat_toNat
    rw [unitsOf, List.map_map, hbytes, List.map_id, Mot.fromUtf8_bytes, Option.map_some, String.toList_ofList]
  | 3 =>
    apply (congrArg Mot.decodeUtf16 (hvalues (· % 2 ^ 16))).trans
    have hunits : (Cps.encodeUtf16 (String.ofList text)).map (· % 2 ^ 16) = Cps.encodeUtf16 (String.ofList text) :=
      (List.map_congr_left fun unit hunit ↦ Nat.mod_eq_of_lt (utf16_lt text unit hunit)).trans (List.map_id _)
    rw [unitsOf, hunits, decodeUtf16_encode]

/-! ## The link controls of an alias -/

/-- The bits of an alias that its header carries. -/
def headBits (format : Fin 4) : ℕ := if format = 0 then 49 else 48

def talkerBits (format : Fin 4) (text : List Char) : List Bool :=
  (unitsOf format text).flatMap (msb (unitWidth format))

/-- An alias in one of the formats that fits a header and three blocks. -/
structure Talker where
  format : Fin 4
  text : List Char
  writes : Writes format text
  fits : (talkerBits format text).length ≤ headBits format + 168

/-- The manufacturer whose link controls carry the alias. -/
inductive Service where
  | standard | hytera | motorola
deriving DecidableEq

namespace Service

def fid : Service → ℕ
  | .standard => 0
  | .hytera => 0x68
  | .motorola => 0x10

def flco : Service → ℕ → ℕ
  | .standard, block => 4 + block
  | .hytera, block => 4 + block
  | .motorola, block => 0x14 + block

end Service

namespace Talker

def bits (talker : Talker) : List Bool := talkerBits talker.format talker.text

def padded (talker : Talker) : List Bool :=
  talker.bits ++ List.replicate (headBits talker.format + 168 - talker.bits.length) false

/-- The number of blocks after the header. -/
def blocks (talker : Talker) : ℕ := (talker.bits.length - headBits talker.format + 55) / 56

def payload (talker : Talker) : ℕ → List Bool
  | 0 =>
    msb 2 talker.format.val ++ (msb 5 (unitsOf talker.format talker.text).length ++
      ((if talker.format = 0 then [] else [false]) ++ talker.padded.take (headBits talker.format)))
  | block + 1 => (talker.padded.drop (headBits talker.format + 56 * block)).take 56

/-- The header for block zero, and the blocks after it. -/
def lc (talker : Talker) (service : Service) (block : ℕ) : List Bool :=
  [false, false] ++ (msb 6 (service.flco block) ++ (msb 8 service.fid ++ talker.payload block))

/-- What is held of an alias with its header and so many of its blocks. -/
def held (talker : Talker) (blocks : ℕ) : TalkerAlias where
  format := talker.format.val
  length := (unitsOf talker.format talker.text).length
  bits := talker.padded.take (headBits talker.format + 56 * blocks)
  nextBlock := 5 + blocks

/-- One block more. -/
def appended (before : TalkerAlias) (bits : List Bool) : TalkerAlias where
  format := before.format
  length := before.length
  bits := before.bits ++ bits
  nextBlock := before.nextBlock + 1

variable (talker : Talker) (service : Service)

theorem length_padded : talker.padded.length = headBits talker.format + 168 := by
  have hfits : talker.bits.length ≤ headBits talker.format + 168 := talker.fits
  rw [padded, List.length_append, List.length_replicate]
  omega

theorem length_bits : talker.bits.length = (unitsOf talker.format talker.text).length * unitWidth talker.format :=
  length_flatMap_msb _ _

theorem units_short : (unitsOf talker.format talker.text).length < 32 := by
  have hfits : talker.bits.length ≤ headBits talker.format + 168 := talker.fits
  rw [length_bits] at hfits
  have hall : ∀ format : Fin 4, ∀ count, count * unitWidth format ≤ headBits format + 168 → count < 32 := by
    intro format count hcount
    match format with
    | 0 =>
      change count * 7 ≤ 217 at hcount
      omega
    | 1 =>
      change count * 8 ≤ 216 at hcount
      omega
    | 2 =>
      change count * 8 ≤ 216 at hcount
      omega
    | 3 =>
      change count * 16 ≤ 216 at hcount
      omega
  exact hall talker.format _ hfits

/-! ## What the receiver reads of them -/

theorem flco_lt {block : ℕ} (hblock : block ≤ 3) : service.flco block < 2 ^ 6 := by
  have hlt : 0x14 + block < 2 ^ 6 := by omega
  cases service with
  | standard => exact lt_trans (Nat.add_lt_add_right (by decide) block) hlt
  | hytera => exact lt_trans (Nat.add_lt_add_right (by decide) block) hlt
  | motorola => exact hlt

theorem fid_lt : service.fid < 2 ^ 8 := by
  cases service
  all_goals decide

theorem flco_lc {block : ℕ} (hblock : block ≤ 3) : bitsToU32 (talker.lc service block) 2 6 = service.flco block :=
  bitsToU32_field rfl (flco_lt service hblock)

theorem fid_lc (block : ℕ) : bitsToU32 (talker.lc service block) 8 8 = service.fid := by
  rw [lc, ← List.append_assoc]
  apply bitsToU32_field _ (fid_lt service)
  rw [List.length_append, length_msb]
  rfl

theorem drop_lc (block : ℕ) : (talker.lc service block).drop 16 = talker.payload block := by
  rw [lc, ← List.append_assoc, ← List.append_assoc]
  apply List.drop_left'
  rw [List.length_append, List.length_append, length_msb, length_msb]
  rfl

theorem length_payload {block : ℕ} (hblock : block ≤ 3) : (talker.payload block).length = 56 := by
  have hpadded := talker.length_padded
  cases block with
  | zero =>
    rw [payload, List.length_append, List.length_append, List.length_append, length_msb, length_msb, List.length_take,
      hpadded]
    unfold headBits
    split
    · rfl
    · rfl
  | succ block =>
    rw [payload, List.length_take, List.length_drop, hpadded]
    omega

theorem length_lc {block : ℕ} (hblock : block ≤ 3) : (talker.lc service block).length = 72 := by
  rw [lc, List.length_append, List.length_append, List.length_append, length_msb, length_msb,
    talker.length_payload hblock]
  rfl

/-- The header begins a new alias. -/
theorem update_header (before : TalkerAlias) :
    before.update 4 (talker.lc service 0) = (talker.held 0, (talker.held 0).decode) := by
  have hformat : bitsToU32 (talker.lc service 0) 16 2 = talker.format.val := by
    rw [lc, ← List.append_assoc, ← List.append_assoc, payload]
    apply bitsToU32_field _ talker.format.isLt
    rw [List.length_append, List.length_append, length_msb, length_msb]
    rfl
  have hlength : bitsToU32 (talker.lc service 0) 18 5 = (unitsOf talker.format talker.text).length := by
    rw [lc, ← List.append_assoc, ← List.append_assoc, payload, ← List.append_assoc]
    apply bitsToU32_field _ talker.units_short
    simp only [List.length_append, length_msb]
    rfl
  have hbits : ((talker.lc service 0).take 72).drop (if talker.format.val = 0 then 23 else 24) =
      talker.padded.take (headBits talker.format) := by
    rw [List.take_of_length_le (talker.length_lc service (Nat.zero_le 3)).le]
    have hsplit : (talker.lc service 0).drop (if talker.format.val = 0 then 23 else 24) =
        (talker.payload 0).drop (if talker.format.val = 0 then 7 else 8) := by
      rw [← talker.drop_lc service 0, List.drop_drop]
      split
      · rfl
      · rfl
    rw [hsplit, payload, ← List.append_assoc, ← List.append_assoc]
    apply List.drop_left'
    rw [List.length_append, List.length_append, length_msb, length_msb]
    have hzero : talker.format.val = 0 ↔ talker.format = 0 := Fin.val_eq_zero_iff
    by_cases hformat : talker.format = 0
    · rw [if_pos hformat, if_pos (hzero.mpr hformat)]
      rfl
    · rw [if_neg hformat, if_neg (hzero.not.mpr hformat)]
      rfl
  unfold TalkerAlias.update
  rw [if_pos rfl, hformat, hlength]
  dsimp only
  rw [hbits]
  rfl

/-- The next block goes behind what is held, and another one is not taken. -/
theorem update_block (before : TalkerAlias) {block : ℕ} (hblock : block < 3) :
    before.update (5 + block) (talker.lc service (block + 1)) =
      if 5 + block = before.nextBlock then
        (appended before (talker.payload (block + 1)), (appended before (talker.payload (block + 1))).decode)
      else (before, none) := by
  have hbits : ((talker.lc service (block + 1)).take 72).drop 16 = talker.payload (block + 1) := by
    rw [List.take_of_length_le (talker.length_lc service hblock).le, drop_lc]
  unfold TalkerAlias.update
  rw [if_neg (by omega), hbits]
  rfl

/-- A block behind what is held of its own alias. -/
theorem held_append (block : ℕ) :
    appended (talker.held block) (talker.payload (block + 1)) = talker.held (block + 1) := by
  unfold appended held payload
  rw [TalkerAlias.mk.injEq]
  refine ⟨rfl, rfl, ?_, rfl⟩
  exact List.take_add.symm

theorem needed_held (blocks : ℕ) : (talker.held blocks).needed = some talker.bits.length := by
  rw [length_bits]
  unfold held TalkerAlias.needed
  match talker.format with
  | 0 => rfl
  | 1 => rfl
  | 2 => rfl
  | 3 => rfl

/-- What is held is the alias once it is long enough. -/
theorem decode_held {blocks : ℕ} {shown : List Char} (hshown : (talker.held blocks).decode = some shown) :
    shown = trimEndNul talker.text := by
  have hpadded := talker.length_padded
  unfold TalkerAlias.decode at hshown
  obtain ⟨needed, hneeded, hshown⟩ := Option.bind_eq_some_iff.mp hshown
  rw [needed_held] at hneeded
  obtain rfl := Option.some_inj.mp hneeded
  split at hshown
  · exact nomatch hshown
  · rename_i hlong
    have hbits : (talker.held blocks).bits.take talker.bits.length = talker.bits := by
      have hlength : (talker.held blocks).bits.length ≤ headBits talker.format + 56 * blocks :=
        List.length_take_le ..
      change (talker.padded.take _).take _ = _
      rw [List.take_take, Nat.min_eq_left (by omega), padded, List.take_left]
    have htext : TalkerAlias.textOf talker.format.val talker.bits = some talker.text := textOf_units talker.writes
    rw [hbits] at hshown
    change (TalkerAlias.textOf talker.format.val talker.bits).bind _ = _ at hshown
    rw [htext] at hshown
    exact (Option.some_inj.mp hshown).symm

end Talker

end Sdrmm.Dmr
