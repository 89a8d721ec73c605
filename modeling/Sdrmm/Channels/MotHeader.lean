import Sdrmm.Lib.BigEndian
import Sdrmm.Lib.Text

/-!
# The header of a MOT object

`Header::parse` of `dab/pad/mot/header.rs` with the parameters of the header extension and the character
sets of `dab/pad/label/charset.rs` and `dab/fig/ebu.rs` that names are written in.
-/

namespace Sdrmm.Mot

/-! ## Texts -/

/-- A position that is not displayed is the character zero. -/
def ebuLatin : List Char := String.toList <|
  "\x00ĘĮŲĂĖĎȘȚĊ\x00\x00ĠĹŻŃ" ++
  "ąęįųăėďșțċŇĚġĺż\x00" ++
  " !\"#ł%&'()*+,-./" ++
  "0123456789:;<=>?" ++
  "@ABCDEFGHIJKLMNO" ++
  "PQRSTUVWXYZ[Ů]Ł_" ++
  "Ąabcdefghijklmno" ++
  "pqrstuvwxyz«ů»ĽĦ" ++
  "áàéèíìóòúùÑÇŞß¡Ÿ" ++
  "âäêëîïôöûüñçşğıÿ" ++
  "ĶŅ©ĢĞěňőŐ€£$ĀĒĪŪ" ++
  "ķņĻģļİńűŰ¿ľ°āēīū" ++
  "ÁÀÉÈÍÌÓÒÚÙŘČŠŽÐĿ" ++
  "ÂÄÊËÎÏÔÖÛÜřčšžđŀ" ++
  "ÃÅÆŒŷÝÕØÞŊŔĆŚŹŤð" ++
  "ãåæœŵýõøþŋŕćśźťħ"

def ebuText (bytes : List UInt8) : List Char :=
  (bytes.map fun byte ↦ ebuLatin.getD byte.toNat (Char.ofNat 0)).filter (· ≠ Char.ofNat 0)

/-- A line break and the end of a headline are read as spaces. -/
def ebuLatinText (bytes : List UInt8) : List Char :=
  ebuText (bytes.map fun byte ↦ if byte = 0x0a ∨ byte = 0x0b then 0x20 else byte)

def decodeUtf16 : List ℕ → Option (List Char)
  | [] => some []
  | unit :: rest =>
      if unit < 0xd800 ∨ 0xe000 ≤ unit then (Char.ofNat unit :: ·) <$> decodeUtf16 rest
      else
        match rest with
        | low :: rest =>
            if unit < 0xdc00 ∧ 0xdc00 ≤ low ∧ low < 0xe000 then
              (Char.ofNat (0x10000 + (unit - 0xd800) * 0x400 + (low - 0xdc00)) :: ·) <$>
                decodeUtf16 rest
            else none
        | [] => none

def utf16Units : List UInt8 → Except String (List ℕ)
  | [] => .ok []
  | [_] => .error "Odd-length UTF-16 DAB text"
  | high :: low :: rest => (be16 high low :: ·) <$> utf16Units rest

def utf16Be (bytes : List UInt8) : Except String (List Char) := do
  match decodeUtf16 (← utf16Units bytes) with
  | some text => return text
  | none => throw "Invalid UTF-16 DAB text"

def isControl (character : Char) : Bool :=
  character.toNat < 0x20 || (0x7f ≤ character.toNat && character.toNat < 0xa0)

def presentable (text : List Char) : String :=
  String.ofList <| text.filterMap fun character ↦
    if character = '\n' ∨ character = Char.ofNat 0x0b then some ' '
    else if isControl character then none
    else some character

def fromUtf8 (bytes : List UInt8) : Option String := String.fromUTF8? ⟨bytes.toArray⟩

theorem fromUtf8_bytes (text : List Char) : fromUtf8 (Text.bytes text) = some (String.ofList text) := by
  have hbytes : (⟨(Text.bytes text).toArray⟩ : ByteArray) = text.utf8Encode :=
    ByteArray.ext List.data_toByteArray.symm
  have hvalid : ByteArray.IsValidUTF8 ⟨(Text.bytes text).toArray⟩ := ⟨text, hbytes⟩
  rw [fromUtf8, String.fromUTF8?, dif_pos hvalid]
  exact congrArg some (String.toByteArray_inj.mp hbytes)

def text (bytes : List UInt8) (charset : UInt8) : Except String String := do
  let decoded ←
    if charset = 0 then .ok (ebuLatinText bytes)
    else if charset = 4 then .ok (bytes.map fun byte ↦ Char.ofNat byte.toNat)
    else if charset = 6 then utf16Be bytes
    else if charset = 15 then
      match fromUtf8 bytes with
      | some text => .ok text.toList
      | none => .error "Invalid UTF-8 DAB text"
    else .error "Unsupported DAB character set"
  return presentable decoded

/-! ## Parameters -/

inductive Parameter
  | contentName (data : List UInt8)
  | mimeType (data : List UInt8)
  | compressionType
  | caInfo
  | other

namespace Parameter

def new (id : UInt8) (data : List UInt8) : Parameter :=
  if id = 0x0c then .contentName data
  else if id = 0x10 then .mimeType data
  else if id = 0x11 then .compressionType
  else if id = 0x23 then .caInfo
  else .other

def dataFieldLength : List UInt8 → Except String (ℕ × List UInt8)
  | [] => .error "Truncated MOT DataFieldLength indicator"
  | high :: rest =>
      if high &&& 0x80 = 0 then .ok (high.toNat, rest)
      else
        match rest with
        | low :: rest => .ok (be16 (high &&& 0x7f) low, rest)
        | [] => .error "Truncated MOT DataFieldLength indicator"

/-- The length of a parameter's data and what follows its indication. -/
def lengthField (first : UInt8) (rest : List UInt8) : Except String (ℕ × List UInt8) :=
  if first >>> 6 = 0 then .ok (0, rest)
  else if first >>> 6 = 1 then .ok (1, rest)
  else if first >>> 6 = 2 then .ok (4, rest)
  else dataFieldLength rest

/-- The first parameter of an extension and what follows it. -/
def read : List UInt8 → Except String (Parameter × List UInt8)
  | [] => .error "Empty MOT header parameter"
  | first :: rest =>
      match lengthField first rest with
      | .error error => .error error
      | .ok (length, rest) =>
          if length ≤ rest.length then
            .ok (new (first &&& 0x3f) (rest.take length), rest.drop length)
          else .error "Truncated MOT header parameter"

theorem dataFieldLength_shorter {bytes rest : List UInt8} {length : ℕ}
    (hlength : dataFieldLength bytes = .ok (length, rest)) : rest.length < bytes.length := by
  unfold dataFieldLength at hlength
  split at hlength
  · cases hlength
  · split_ifs at hlength
    · cases hlength
      exact Nat.lt_succ_self _
    · split at hlength
      · cases hlength
        simp only [List.length_cons]
        omega
      · cases hlength

theorem lengthField_le {first : UInt8} {bytes rest : List UInt8} {length : ℕ}
    (hlength : lengthField first bytes = .ok (length, rest)) : rest.length ≤ bytes.length := by
  unfold lengthField at hlength
  split_ifs at hlength
  · cases hlength
    exact le_rfl
  · cases hlength
    exact le_rfl
  · cases hlength
    exact le_rfl
  · exact (dataFieldLength_shorter hlength).le

/-- A parameter takes a byte at least. -/
theorem read_shorter {bytes rest : List UInt8} {parameter : Parameter}
    (hread : read bytes = .ok (parameter, rest)) : rest.length < bytes.length := by
  unfold read at hread
  split at hread
  · cases hread
  · split at hread
    · cases hread
    · rename_i first bytes length tail hlength
      have htail := lengthField_le hlength
      split_ifs at hread
      · cases hread
        rw [List.length_drop, List.length_cons]
        omega

end Parameter

/-! ## The header -/

inductive Category
  | generalData | text | image | audio | video | motTransport | system | application | proprietary
  | reserved
  deriving DecidableEq

def Category.fromCode (code : ℕ) : Category :=
  match code with
  | 0 => .generalData
  | 1 => .text
  | 2 => .image
  | 3 => .audio
  | 4 => .video
  | 5 => .motTransport
  | 6 => .system
  | 7 => .application
  | 63 => .proprietary
  | _ => .reserved

structure ContentType where
  category : Category := .generalData
  subtype : ℕ := 0

def ContentType.mediaType (content : ContentType) : String :=
  match content.category, content.subtype with
  | .text, 0 => "text/plain"
  | .text, 1 => "text/plain; charset=iso-8859-1"
  | .text, 2 => "text/html"
  | .text, 3 => "application/pdf"
  | .image, 1 => "image/jpeg"
  | .image, 3 => "image/png"
  | .audio, 1 | .audio, 4 => "audio/mpeg"
  | .audio, 10 => "audio/mp4"
  | .video, 2 => "video/mp4"
  | _, _ => "application/octet-stream"

structure Header where
  bodySize : ℕ := 0
  contentType : ContentType := {}
  contentName : Option String := none
  mimeType : Option String := none
  compressed : Bool := false
  scrambled : Bool := false

namespace Header

def contentNameOf : List UInt8 → Except String String
  | [] => .error "Empty MOT ContentName"
  | indicator :: name => text name (indicator >>> 4)

def mimeTypeOf (data : List UInt8) : Except String String :=
  match fromUtf8 data with
  | some mime => if data.all (· < 0x80) then .ok mime else .error "Invalid MOT MimeType"
  | none => .error "Invalid MOT MimeType"

def apply (header : Header) : Parameter → Except String Header
  | .contentName data => do return { header with contentName := some (← contentNameOf data) }
  | .mimeType data => do return { header with mimeType := some (← mimeTypeOf data) }
  | .compressionType => .ok { header with compressed := true }
  | .caInfo => .ok { header with scrambled := true }
  | .other => .ok header

/-- All the parameters of an extension, up to the first error. -/
def applyAll (header : Header) (extension : List UInt8) : Except String Header :=
  if extension = [] then .ok header
  else
    match _hread : Parameter.read extension with
    | .error error => .error error
    | .ok (parameter, rest) =>
        match header.apply parameter with
        | .error error => .error error
        | .ok header => applyAll header rest
termination_by extension.length
decreasing_by exact Parameter.read_shorter (by assumption)

theorem applyAll_nil (header : Header) : header.applyAll [] = .ok header := by
  rw [applyAll, if_pos rfl]

theorem applyAll_read {header next : Header} {extension rest : List UInt8} {parameter : Parameter}
    (hread : Parameter.read extension = .ok (parameter, rest))
    (happly : header.apply parameter = .ok next) :
    header.applyAll extension = next.applyAll rest := by
  have hne : extension ≠ [] := by
    rintro rfl
    cases hread
  rw [applyAll, if_neg hne]
  split
  · rename_i error herror
    rw [hread] at herror
    cases herror
  · rename_i found tail hfound
    rw [hread] at hfound
    cases hfound
    simp only [happly]

/-- The bits of a word from `shift` on. -/
def field (word shift width : ℕ) : ℕ := (word >>> shift) % 2 ^ width

def parse (bytes : List UInt8) : Except String Header :=
  if bytes.length < 7 then .error "Truncated MOT header core"
  else
    let core := (bytes.take 7).foldl (fun word byte ↦ word * 256 + byte.toNat) 0
    let extension := bytes.drop 7
    if field core 15 13 ≠ bytes.length then .error "MOT header size mismatch"
    else
      applyAll
        { bodySize := field core 28 28
          contentType := ⟨Category.fromCode (field core 9 6), field core 0 9⟩ }
        extension

def mediaType (header : Header) : String :=
  header.mimeType.getD header.contentType.mediaType

end Header

end Sdrmm.Mot
