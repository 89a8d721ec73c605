import Sdrmm.Channels.FtxMessage

/-!
# Packing FT8 messages

`pack` of `channels/src/weak_signal/ftx/message/pack.rs` makes a message of a text: two calls and what
follows them, a call that does not fit with the hash of another one, or thirteen characters of any kind.

The first that fits is taken.
-/

namespace Sdrmm.Ftx

open Sdrmm.Text

structure Writer where
  bits : ℕ
  used : ℕ

namespace Writer

def default : Writer := ⟨0, 0⟩

def put (writer : Writer) (value count : ℕ) : Writer :=
  ⟨writer.bits * 2 ^ count ||| value % 2 ^ count, writer.used + count⟩

def finish (writer : Writer) : Option ℕ := if writer.used = 77 then some writer.bits else none

end Writer

/-! ## Calls and what follows them -/

def packGrid4 (grid : List Char) : ℕ :=
  let codes := bytes grid
  let field (index : ℕ) := (codes.getD index 0).toNat - 65
  let digit (index : ℕ) := (codes.getD index 0).toNat - 48
  ((field 0 * 18 + field 1) * 10 + digit 2) * 10 + digit 3

def packSingleExtra (word : List Char) : Option (Bool × ℕ) :=
  if word = "RRR".toList then some (false, maxGrid4 + 2)
  else if word = "RR73".toList then some (false, maxGrid4 + 3)
  else if word = "73".toList then some (false, maxGrid4 + 4)
  else if isGrid4 word then some (false, packGrid4 word)
  else
    let (roger, report) :=
      match stripPrefix ['R'] word with
      | some report => (true, report)
      | none => (false, word)
    if report.head? = some '+' ∨ report.head? = some '-' then
      (parseI32 report).bind fun snr ↦
        if -30 ≤ snr ∧ snr ≤ 50 then some (roger, maxGrid4 + (snr + 35).toNat)
        else if -50 ≤ snr ∧ snr ≤ -31 then some (roger, maxGrid4 + (snr + 136).toNat)
        else none
    else none

def packExtra : List (List Char) → Option (Bool × ℕ)
  | [] => some (false, maxGrid4 + 1)
  | [word] => packSingleExtra word
  | [roger, grid] => if roger = ['R'] ∧ isGrid4 grid then some (true, packGrid4 grid) else none
  | _ => none

def cqModifier (word : List Char) : Option ℕ :=
  let codes := bytes word
  if codes.length = 3 ∧ codes.all isAsciiDigit then some (3 + Nat.ofDigitChars 10 word 0)
  else if (1 ≤ codes.length ∧ codes.length ≤ 4) ∧ codes.all isAsciiUppercase then
    some (1003 + codes.foldl (fun acc code ↦ acc * 27 + (code.toNat - 65 + 1)) 0)
  else none

def pack28Token (word : List Char) : Option ℕ :=
  if word = "DE".toList then some 0
  else if word = "QRZ".toList then some 1
  else if word = "CQ".toList then some 2
  else (stripPrefix "CQ ".toList word).bind cqModifier

/-- A call with the prefixes that are too long made short. -/
def shortened (original : List Char) : Option (List Char) :=
  match stripPrefix "3DA0".toList original with
  | some rest => some ("3D0".toList ++ rest)
  | none =>
      if "3X".toList.isPrefixOf original then
        ((bytes original)[2]?).map fun code ↦
          if isAsciiUppercase code then 'Q' :: original.drop 2 else original
      else some original

/-- A call with the digit of its area at the third place. -/
def alignedCall (call : List Char) : Option (List Char) :=
  let codes := bytes call
  if 3 ≤ codes.length ∧ codes[2]?.any isAsciiDigit ∧ codes.length ≤ 6 then
    some (List.rightpad 6 ' ' call)
  else if 2 ≤ codes.length ∧ codes[1]?.any isAsciiDigit ∧ codes.length ≤ 5 then
    some (' ' :: List.rightpad 5 ' ' call)
  else none

/-- The number of a call, if it stands for just that call. -/
def packBasecall (original : List Char) : Option ℕ := do
  let call ← shortened original
  let aligned ← alignedCall call
  match bytes aligned with
  | c0 :: c1 :: c2 :: rest =>
      let value ← a37.index c0
      let value := value * 36 + (← a36.index c1)
      let value := value * 10 + (← digits.index c2)
      let value ← rest.foldlM (fun value code ↦ (a27.index code).map (value * 27 + ·)) value
      if standardCall value = some original then some value else none
  | _ => none

def pack28 (word : List Char) : Option ℕ :=
  match pack28Token word with
  | some token => some token
  | none =>
      match (stripPrefix ['<'] word).bind (stripSuffix ['>']) with
      | some inner => (hash22 inner).map (ntokens + ·)
      | none =>
          let base := ((stripSuffix "/R".toList word).or (stripSuffix "/P".toList word)).getD word
          (packBasecall base).map (ntokens + max22 + ·)

/-! ## The kinds of messages -/

/-- The first field of a message, with the words after it. -/
def packFirst : List (List Char) → Option (ℕ × List (List Char))
  | [] => none
  | [first] => (pack28 first).map (·, [])
  | first :: modifier :: rest =>
      if first = "CQ".toList ∧ (cqModifier modifier).isSome ∧ rest ≠ [] then
        (pack28Token ("CQ ".toList ++ modifier)).map (·, rest)
      else (pack28 first).map (·, modifier :: rest)

def hasSuffix (word : List Char) : Bool :=
  "/R".toList.isSuffixOf word || "/P".toList.isSuffixOf word

def packStandard (words : List (List Char)) : Option ℕ := do
  let (first, rest) ← packFirst words
  match rest with
  | [] => none
  | secondWord :: extra =>
      let second ← pack28 secondWord
      if isToken secondWord then none
      else
        let (roger, g15) ← packExtra extra
        let slashP := words.any ("/P".toList.isSuffixOf ·)
        let slashR := words.any ("/R".toList.isSuffixOf ·)
        if slashP && slashR then none
        else
          let firstWord ← words.head?
          (((((((Writer.default.put first 28).put (hasSuffix firstWord).toNat 1).put second 28).put
            (hasSuffix secondWord).toNat 1).put roger.toNat 1).put g15 15).put
            (if slashP then 2 else 1) 3).finish

def stripBrackets (word : List Char) : Option (List Char) :=
  (stripPrefix ['<'] word).bind (stripSuffix ['>'])

/-- What a message with a call in full is made of. -/
structure Nonstandard where
  hashed : List Char
  plain : List Char
  flip : Bool
  reply : ℕ
  cq : Bool
  deriving DecidableEq

/-- The number of what is replied. -/
def replyCode (rest : List (List Char)) : Option ℕ :=
  if rest = [] then some 0
  else if rest = ["RRR".toList] then some 1
  else if rest = ["RR73".toList] then some 2
  else if rest = ["73".toList] then some 3
  else none

def nonstandardParts : List (List Char) → Option Nonstandard
  | first :: second :: rest =>
      if first = "CQ".toList ∧ rest = [] then some ⟨[], second, false, 0, true⟩
      else
        (replyCode rest).bind fun reply ↦
          match stripBrackets first, stripBrackets second with
          | some hashed, none => some ⟨hashed, second, false, reply, false⟩
          | none, some hashed => some ⟨hashed, first, true, reply, false⟩
          | _, _ => none
  | _ => none

/-- The hash of the other call; there is none in a message to everyone. -/
def otherHash (parts : Nonstandard) : Option ℕ :=
  if parts.cq then some 0 else (hash22 parts.hashed).map (· / 2 ^ 10)

def packNonstandard (words : List (List Char)) : Option ℕ := do
  let parts ← nonstandardParts words
  let n12 ← otherHash parts
  let codes := bytes parts.plain
  if 11 < codes.length ∨ codes.length < 3 then none
  else
    let n58 ← Alphabet.read (List.replicate 11 a38) (List.leftpad 11 32 codes) 0
    ((((((Writer.default.put n12 12).put n58 58).put parts.flip.toNat 1).put parts.reply 2).put
      parts.cq.toNat 1).put 4 3).finish

def packFreeText (text : List Char) : Option ℕ :=
  let text := trim text
  if 13 < (bytes text).length then none
  else
    (Alphabet.read (List.replicate 13 a42) (bytes (List.leftpad 13 ' ' text)) 0).bind fun value ↦
      (((Writer.default.put (value / 2 ^ 64 % 2 ^ 64) 7).put (value % 2 ^ 64) 64).put 0 6).finish

def pack (text : List Char) : Option ℕ :=
  let words := splitWhitespace text
  ((packStandard words).or (packNonstandard words)).or (packFreeText text)

end Sdrmm.Ftx
