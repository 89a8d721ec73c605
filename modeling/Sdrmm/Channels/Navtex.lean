import Sdrmm.Lib.Checked
import Sdrmm.Lib.Text
import Mathlib.Data.Rat.Defs

/-!
# NAVTEX

The decoder of `channels/src/navtex.rs` behind the bit synchronizer: phasing, the two copies of each
character, the letter and figure rows of `rtty.rs`, and the messages between a start group and an end
group.  Soft bits are rational numbers.  A length that would fall below zero is a panic.

The state of the decoder stands in two parts: `Reception` is what turns bits into characters, and `Page`
what turns characters into messages.  The characters of both rows take one byte each, so that the length of
a text is its number of characters.
-/

namespace Sdrmm.Navtex

open Lib.Checked

def charBits : ℕ := 7
def fecSlots : ℕ := 5
def history : ℕ := (fecSlots + 1) * charBits
def rxBase : ℕ := fecSlots * charBits
def dxBase : ℕ := 0
def prevBase : ℕ := rxBase - charBits
def alpha : UInt8 := 0x0F
def beta : UInt8 := 0x33
def rep : UInt8 := 0x66
def char32 : UInt8 := 0x6A
def maxErrorRun : ℕ := 6
def idleFlushBits : ℕ := 300
def maxBodyChars : ℕ := 10000
def phasingPeriod : ℕ := 2 * charBits
def usizeMax : ℕ := 2 ^ 64 - 1
def u32Max : ℕ := 2 ^ 32 - 1

/-! ## Codes -/

def ccir476 : List (UInt8 × UInt8) := [
  (0x17, 0x0B), (0x1B, 0x0D), (0x1D, 0x0E), (0x1E, 0x0F), (0x27, 0x13), (0x2B, 0x15), (0x2D, 0x16),
  (0x2E, 0x17), (0x35, 0x1A), (0x36, 0x1B), (0x39, 0x1C), (0x3A, 0x1D), (0x3C, 0x1E), (0x47, 0x03),
  (0x4B, 0x05), (0x4D, 0x06), (0x4E, 0x07), (0x53, 0x09), (0x55, 0x0A), (0x56, 0x01), (0x59, 0x0C),
  (0x5A, 0x1F), (0x5C, 0x04), (0x63, 0x11), (0x65, 0x12), (0x69, 0x14), (0x6C, 0x02), (0x71, 0x18),
  (0x72, 0x19), (0x74, 0x10), (0x78, 0x08)]

def ita2For (code : UInt8) : Option UInt8 :=
  ccir476.findSome? fun (ccir, ita2) ↦ if ccir = code then some ita2 else none

def letters : List Char := [
  '\x00', 'E', '\n', 'A', ' ', 'S', 'I', 'U', '\r', 'D', 'R', 'J', 'N', 'F', 'C', 'K', 'T', 'Z',
  'L', 'W', 'H', 'Y', 'P', 'Q', 'O', 'B', 'G', '\x00', 'M', 'X', 'V', '\x00']

def figures : List Char := [
  '\x00', '3', '\n', '-', ' ', '\x00', '8', '7', '\r', '$', '4', '\'', ',', '!', ':', '(', '5', '"',
  ')', '2', '#', '6', '0', '1', '9', '?', '&', '\x00', '.', '/', ';', '\x00']

def figsCode : UInt8 := 0x1B
def ltrsCode : UInt8 := 0x1F

/-- The number of bits of a code that are set. -/
def countOnes (code : UInt8) : ℕ := (List.range 8).countP fun i ↦ code.toNat.testBit i

def valid (code : UInt8) : Bool := countOnes code == 4

/-- The code of the bits for which `positive` holds, the first one lowest. -/
def codeOf (positive : ℕ → Bool) : UInt8 :=
  (List.range charBits).foldl (fun code i ↦ if positive i then code ||| (1 <<< UInt8.ofNat i) else code) 0

def codeAt (bits : List ℚ) (base : ℕ) : UInt8 := codeOf fun i ↦ decide (0 < bits.getD (base + i) 0)

/-! ## Messages -/

structure NavtexMessage where
  station : Option Char
  subject : Option Char
  subjectName : Option String
  serial : Option ℕ
  text : List Char
  errorsCorrected : ℕ
  complete : Bool
  deriving DecidableEq

def subjectName (subject : Char) : Option String :=
  match subject.toUpper with
  | 'A' => some "Navigational warning"
  | 'B' => some "Meteorological warning"
  | 'C' => some "Ice report"
  | 'D' => some "Search and rescue / piracy"
  | 'E' => some "Meteorological forecast"
  | 'F' => some "Pilot service"
  | 'G' => some "AIS"
  | 'H' => some "LORAN"
  | 'J' => some "SATNAV"
  | 'K' => some "Other electronic navaid"
  | 'L' => some "Navigational warning (additional)"
  | 'T' => some "Test transmission"
  | 'V' => some "Notice to fishermen"
  | 'W' => some "Environmental"
  | 'X' => some "Special service"
  | 'Y' => some "Special service"
  | 'Z' => some "No message on hand"
  | _ => none

def toDigit (c : Char) : Option ℕ := if c.isDigit then some (c.toNat - '0'.toNat) else none

/-- The station, the subject and the serial number of a message, and its text. -/
def splitHeader (body : List Char) : Option (Char × Char × ℕ) × List Char :=
  let trimmed := Text.trimStart body
  match trimmed with
  | station :: subject :: tens :: units :: rest =>
      if ¬station.isAlpha ∨ ¬subject.isAlpha then (none, trimmed)
      else
        match toDigit tens, toDigit units with
        | some tens, some units => (some (station, subject, tens * 10 + units), rest)
        | _, _ => (none, trimmed)
  | _ => (none, trimmed)

/-- The message of a body. -/
def messageOf (body : List Char) (errorsCorrected : ℕ) (complete : Bool) : NavtexMessage :=
  let (header, text) := splitHeader body
  { station := header.map (·.1)
    subject := header.map (·.2.1)
    subjectName := header.bind fun h ↦ subjectName h.2.1
    serial := header.map (·.2.2)
    text := Text.trim text
    errorsCorrected := errorsCorrected
    complete := complete }

/-! ## The decoder -/

inductive State
  | phasing (sinceHit : ℕ)
  | reading (sinceSlot : ℕ) (nextIsRx : Bool)

structure Reception where
  bits : List ℚ := List.replicate history 0
  state : State := .phasing usizeMax
  figs : Bool := false
  errorRun : ℕ := 0
  sinceChar : ℕ := 0

structure Page where
  body : List Char := []
  collecting : Bool := false
  newline : Bool := false
  tail : List Char := List.replicate 4 '\x00'
  errorsCorrected : ℕ := 0

structure Decoder extends Reception, Page

def startGroup : List Char := ['Z', 'C', 'Z', 'C']

def endGroup : List Char := ['N', 'N', 'N', 'N']

def Page.emitMessage (page : Page) (complete : Bool) : Page × List NavtexMessage :=
  let emptied : Page :=
    { page with body := [], errorsCorrected := 0, collecting := false, tail := List.replicate 4 '\x00' }
  if !complete && Text.trim page.body = [] then (emptied, [])
  else (emptied, [messageOf page.body page.errorsCorrected complete])

def Page.pushText (page : Page) (ch : Char) : Except Halt (Page × List NavtexMessage) :=
  if page.tail = startGroup then
    if page.collecting then do
      let length ← sub page.body.length 3
      let (page, out) := { page with body := page.body.take length }.emitMessage false
      pure ({ page with body := [], errorsCorrected := 0, collecting := true }, out)
    else pure ({ page with body := [], errorsCorrected := 0, collecting := true }, [])
  else if !page.collecting then pure (page, [])
  else if page.tail = endGroup then do
    let length ← sub page.body.length 3
    pure ({ page with body := page.body.take length }.emitMessage true)
  else
    let page := { page with body := page.body ++ [ch] }
    if maxBodyChars ≤ page.body.length then pure (page.emitMessage false) else pure (page, [])

/-- What `emitChar` does with a character that it found. -/
def Page.write (page : Page) (ch : Char) : Except Halt (Page × List NavtexMessage) :=
  if ch = '\x00' then pure (page, [])
  else if ch = '\r' ∨ ch = '\n' then
    let body := if !page.newline && page.collecting then page.body ++ ['\n'] else page.body
    pure ({ page with body := body, newline := true, tail := List.replicate 4 '\x00' }, [])
  else { page with newline := false, tail := page.tail.drop 1 ++ [ch] }.pushText ch

namespace Decoder

def new : Decoder := {}

/-- The decoder with another page. -/
def turn (decoder : Decoder) : Page × List NavtexMessage → Decoder × List NavtexMessage
  | (page, out) => ({ decoder with toPage := page }, out)

def emitMessage (decoder : Decoder) (complete : Bool) : Decoder × List NavtexMessage :=
  decoder.turn (decoder.toPage.emitMessage complete)

def emitChar (decoder : Decoder) (code : UInt8) : Except Halt (Decoder × List NavtexMessage) :=
  if code = alpha ∨ code = beta ∨ code = rep ∨ code = char32 then pure (decoder, [])
  else
    match ita2For code with
    | none => pure (decoder, [])
    | some ita2 =>
        let decoder := { decoder with sinceChar := 0 }
        if ita2 = figsCode then pure ({ decoder with figs := true }, [])
        else if ita2 = ltrsCode then pure ({ decoder with figs := false }, [])
        else do
          let ch := (if decoder.figs then figures else letters).getD ita2.toNat '\x00'
          let written ← decoder.toPage.write ch
          pure (decoder.turn written)

/-- The code that the two copies of a character give, and whether it had to be repaired. -/
def decided (bits : List ℚ) : Option (UInt8 × Bool) :=
  let rx := codeAt bits rxBase
  let dx := codeAt bits dxBase
  if valid rx then some (rx, false)
  else if valid dx then some (dx, true)
  else
    let combined := codeOf fun i ↦ decide (0 < bits.getD (dxBase + i) 0 + bits.getD (rxBase + i) 0)
    if valid combined then some (combined, true) else none

def decodeSlot (decoder : Decoder) : Except Halt (Decoder × List NavtexMessage) :=
  match decided decoder.bits with
  | some (code, repaired) =>
      let errorsCorrected :=
        if repaired then min (decoder.errorsCorrected + 1) u32Max else decoder.errorsCorrected
      { decoder with errorsCorrected := errorsCorrected, errorRun := decoder.errorRun - 1 }.emitChar code
  | none =>
      let decoder := { decoder with errorRun := decoder.errorRun + 2 }
      if maxErrorRun < decoder.errorRun then
        let (decoder, out) := decoder.emitMessage false
        pure ({ decoder with state := .phasing usizeMax, figs := false }, out)
      else pure (decoder, [])

/-- The decoder with one more bit, after it has given up a message on a long pause. -/
def listen (decoder : Decoder) (soft : ℚ) : Decoder × List NavtexMessage :=
  let decoder := { decoder with
    bits := decoder.bits.drop 1 ++ [soft]
    sinceChar := min (decoder.sinceChar + 1) usizeMax }
  if decoder.sinceChar = idleFlushBits then decoder.emitMessage false else (decoder, [])

def feed (decoder : Decoder) (soft : ℚ) : Except Halt (Decoder × List NavtexMessage) :=
  let (decoder, idle) := decoder.listen soft
  match decoder.state with
  | .phasing sinceHit =>
      let hit := codeAt decoder.bits rxBase = alpha ∧ codeAt decoder.bits prevBase = rep
      let sinceHit := min (sinceHit + 1) usizeMax
      if hit then
        if sinceHit = phasingPeriod then
          pure ({ decoder with state := .reading 0 false, errorRun := 0 }, idle)
        else pure ({ decoder with state := .phasing 0 }, idle)
      else pure ({ decoder with state := .phasing sinceHit }, idle)
  | .reading sinceSlot nextIsRx =>
      if sinceSlot + 1 < charBits then
        pure ({ decoder with state := .reading (sinceSlot + 1) nextIsRx }, idle)
      else if nextIsRx then do
        let (decoder, out) ← { decoder with state := .reading 0 (!nextIsRx) }.decodeSlot
        pure (decoder, idle ++ out)
      else pure ({ decoder with state := .reading 0 (!nextIsRx) }, idle)

/-- The soft bits one after the other, with the messages of all. -/
def run (decoder : Decoder) : List ℚ → Except Halt (Decoder × List NavtexMessage)
  | [] => pure (decoder, [])
  | soft :: rest => do
      let (next, out) ← decoder.feed soft
      let (last, more) ← next.run rest
      pure (last, out ++ more)

end Decoder

end Sdrmm.Navtex
