import Mathlib.Tactic

/-!
# Fields of a record

Reading and writing numbers, bit fields and texts in the bytes of a record, after `cps/src/bits.rs`.
Reading past the end gives zeros and writing past it does nothing.
-/

namespace Sdrmm.Cps

/-! ## Numbers -/

def getU8 (data : List UInt8) (offset : ℕ) : ℕ := (data.getD offset 0).toNat

def setU8 (data : List UInt8) (offset value : ℕ) : List UInt8 := data.set offset (UInt8.ofNat value)

def getU16Le (data : List UInt8) (offset : ℕ) : ℕ :=
  getU8 data offset + 256 * getU8 data (offset + 1)

def setU16Le (data : List UInt8) (offset value : ℕ) : List UInt8 :=
  setU8 (setU8 data offset value) (offset + 1) (value / 256)

def getU32Le (data : List UInt8) (offset : ℕ) : ℕ :=
  getU16Le data offset + 65536 * getU16Le data (offset + 2)

def setU32Le (data : List UInt8) (offset value : ℕ) : List UInt8 :=
  setU16Le (setU16Le data offset value) (offset + 2) (value / 65536)

def getU32Be (data : List UInt8) (offset : ℕ) : ℕ :=
  getU8 data (offset + 3) + 256 * (getU8 data (offset + 2) +
    256 * (getU8 data (offset + 1) + 256 * getU8 data offset))

def setU32Be (data : List UInt8) (offset value : ℕ) : List UInt8 :=
  setU8 (setU8 (setU8 (setU8 data offset (value / 16777216)) (offset + 1) (value / 65536))
    (offset + 2) (value / 256)) (offset + 3) value

/-! ## Bit fields -/

def getBits (data : List UInt8) (offset bit width : ℕ) : ℕ :=
  getU8 data offset >>> bit &&& (1 <<< width - 1)

def setBits (data : List UInt8) (offset bit width value : ℕ) : List UInt8 :=
  let mask := (1 <<< width - 1) <<< bit
  setU8 data offset (getU8 data offset &&& (mask ^^^ 255) ||| value <<< bit &&& mask)

def getBit (data : List UInt8) (offset bit : ℕ) : Bool := getBits data offset bit 1 != 0

def setBit (data : List UInt8) (offset bit : ℕ) (value : Bool) : List UInt8 :=
  setBits data offset bit 1 value.toNat

/-! ## Packed decimals -/

/-- The number in the lowest decimal digits of `raw`, four bits a digit. -/
def fromBcd : ℕ → ℕ → ℕ
  | 0, _ => 0
  | digits + 1, raw => raw % 16 + 10 * fromBcd digits (raw / 16)

def toBcd : ℕ → ℕ → ℕ
  | 0, _ => 0
  | digits + 1, value => value % 10 + 16 * toBcd digits (value / 10)

def getBcd8Be (data : List UInt8) (offset : ℕ) : ℕ := fromBcd 8 (getU32Be data offset)

def setBcd8Be (data : List UInt8) (offset value : ℕ) : List UInt8 :=
  setU32Be data offset (toBcd 8 value)

def getBcd8Le (data : List UInt8) (offset : ℕ) : ℕ := fromBcd 8 (getU32Le data offset)

def setBcd8Le (data : List UInt8) (offset value : ℕ) : List UInt8 :=
  setU32Le data offset (toBcd 8 value)

/-! ## Texts -/

/-- `char::is_whitespace`. -/
def isWhitespace (c : Char) : Bool :=
  let code := c.toNat
  (9 ≤ code && code ≤ 13) || code == 0x20 || code == 0x85 || code == 0xa0 || code == 0x1680 ||
    (0x2000 ≤ code && code ≤ 0x200a) || code == 0x2028 || code == 0x2029 || code == 0x202f ||
    code == 0x205f || code == 0x3000

/-- `str::trim`. -/
def trim (text : List Char) : List Char :=
  ((text.dropWhile isWhitespace).reverse.dropWhile isWhitespace).reverse

/-- `String::from_utf16_lossy`: surrogates that are not paired become U+FFFD. -/
def fromUtf16Lossy : List ℕ → List Char
  | [] => []
  | [unit] =>
      [if 0xd800 ≤ unit ∧ unit ≤ 0xdfff then Char.ofNat 0xfffd else Char.ofNat unit]
  | unit :: next :: rest =>
      if unit < 0xd800 ∨ 0xdfff < unit then Char.ofNat unit :: fromUtf16Lossy (next :: rest)
      else if unit < 0xdc00 ∧ 0xdc00 ≤ next ∧ next ≤ 0xdfff then
        Char.ofNat (0x10000 + (unit - 0xd800) * 0x400 + (next - 0xdc00)) :: fromUtf16Lossy rest
      else Char.ofNat 0xfffd :: fromUtf16Lossy (next :: rest)

/-- `str::encode_utf16`. -/
def encodeUtf16 (text : String) : List ℕ :=
  text.toList.flatMap fun c ↦
    if c.toNat < 0x10000 then [c.toNat]
    else [0xd800 + (c.toNat - 0x10000) / 0x400, 0xdc00 + (c.toNat - 0x10000) % 0x400]

/-- The units of a text of at most `maxUnits`, `stride` bytes apart. -/
def readUnits (data : List UInt8) (offset stride maxUnits : ℕ) : List ℕ :=
  ((List.range maxUnits).map fun index ↦ getU16Le data (offset + index * stride)).takeWhile
    fun unit ↦ unit != 0 && unit != 0xffff

def readUtf16 (data : List UInt8) (offset maxUnits : ℕ) : String :=
  String.ofList (trim (fromUtf16Lossy (readUnits data offset 2 maxUnits)))

def writeUnits (data : List UInt8) (offset : ℕ) : List ℕ → List UInt8
  | [] => data
  | unit :: units => writeUnits (setU16Le data offset unit) (offset + 2) units

def writeUtf16 (data : List UInt8) (offset : ℕ) (text : String) (maxUnits : ℕ) : List UInt8 :=
  let units := (encodeUtf16 text).take maxUnits
  let written := writeUnits data offset units
  if units.length < maxUnits then setU16Le written (offset + units.length * 2) 0 else written

def readAscii (data : List UInt8) (offset maxLen eos : ℕ) : String :=
  String.ofList (trim ((((List.range maxLen).map fun index ↦ getU8 data (offset + index)).takeWhile
    fun byte ↦ byte != 0 && byte != eos).map Char.ofNat))

def writeBytes (data : List UInt8) (offset : ℕ) : List ℕ → List UInt8
  | [] => data
  | byte :: bytes => writeBytes (setU8 data offset byte) (offset + 1) bytes

def writeAscii (data : List UInt8) (offset : ℕ) (text : String) (maxLen eos : ℕ) : List UInt8 :=
  let bytes := ((text.toList.map Char.toNat).filter fun code ↦ code < 256 && 0x20 ≤ code).take maxLen
  let written := writeBytes data offset bytes
  if bytes.length < maxLen then setU8 written (offset + bytes.length) eos else written

/-! ## Unused records -/

def isErased (data : List UInt8) : Bool := data.all (· == 0xff) || data.all (· == 0)

def isBlank (data : List UInt8) : Bool := data.all fun byte ↦ byte == 0 || byte == 0xff

end Sdrmm.Cps
