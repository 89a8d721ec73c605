import Sdrmm.Lib.Alphabet
import Sdrmm.Lib.SortedMap
import Sdrmm.Lib.Text

/-!
# FT8 messages

The text of the 77 bits of an FT8 message, from `channels/src/weak_signal/ftx/message.rs`.  Calls that do
not fit are sent as hashes, which a book of the calls heard before gives back.  The book is kept also by a
message that is refused.
-/

namespace Sdrmm.Ftx

open Sdrmm.Text

def ntokens : ℕ := 2063592
def max22 : ℕ := 4194304
def maxGrid4 : ℕ := 32400
def cqLettersEnd : ℕ := 1003 + 27 * 27 * 27 * 27
def hashPrime : ℕ := 47055833459
def bookLimit : ℕ := 4096

def a37 : Alphabet UInt8 :=
  ⟨bytes " 0123456789ABCDEFGHIJKLMNOPQRSTUVWXYZ".toList, by decide, by decide⟩

def a36 : Alphabet UInt8 :=
  ⟨bytes "0123456789ABCDEFGHIJKLMNOPQRSTUVWXYZ".toList, by decide, by decide⟩

def a27 : Alphabet UInt8 := ⟨bytes " ABCDEFGHIJKLMNOPQRSTUVWXYZ".toList, by decide, by decide⟩

def a38 : Alphabet UInt8 :=
  ⟨bytes " 0123456789ABCDEFGHIJKLMNOPQRSTUVWXYZ/".toList, by decide, by decide⟩

def a42 : Alphabet UInt8 :=
  ⟨bytes " 0123456789ABCDEFGHIJKLMNOPQRSTUVWXYZ+-./?".toList, by decide, by decide⟩

/-- The digits and letters that are reckoned from `b'0'` and `b'A'`. -/
def digits : Alphabet UInt8 := ⟨bytes "0123456789".toList, by decide, by decide⟩

def fields : Alphabet UInt8 := ⟨bytes "ABCDEFGHIJKLMNOPQR".toList, by decide, by decide⟩

def squares : Alphabet UInt8 := ⟨bytes "ABCDEFGHIJKLMNOPQRSTUVWX".toList, by decide, by decide⟩

def sections : List String :=
  ["AB", "AK", "AL", "AR", "AZ", "BC", "CO", "CT", "DE", "EB", "EMA", "ENY", "EPA", "EWA", "GA",
    "GTA", "IA", "ID", "IL", "IN", "KS", "KY", "LA", "LAX", "MAR", "MB", "MDC", "ME", "MI", "MN",
    "MO", "MS", "MT", "NC", "ND", "NE", "NFL", "NH", "NL", "NLI", "NM", "NNJ", "NNY", "NT", "NTX",
    "NV", "OH", "OK", "ONE", "ONN", "ONS", "OR", "ORG", "PAC", "PR", "QC", "RI", "SB", "SC", "SCV",
    "SD", "SDG", "SF", "SFL", "SJV", "SK", "SNJ", "STX", "SV", "TN", "UT", "VA", "VI", "VT", "WCF",
    "WI", "WMA", "WNY", "WPA", "WTX", "WV", "WWA", "WY", "DX"]

def states : List String :=
  ["AL", "AK", "AZ", "AR", "CA", "CO", "CT", "DE", "FL", "GA", "HI", "ID", "IL", "IN", "IA", "KS",
    "KY", "LA", "ME", "MD", "MA", "MI", "MN", "MS", "MO", "MT", "NE", "NV", "NH", "NJ", "NM", "NY",
    "NC", "ND", "OH", "OK", "OR", "PA", "RI", "SC", "SD", "TN", "TX", "UT", "VT", "VA", "WA", "WV",
    "WI", "WY", "NB", "NS", "QC", "ON", "MB", "SK", "AB", "BC", "NWT", "NF", "LB", "NU", "YT",
    "PEI", "DC"]

/-! ## The calls heard before -/

/-- The hash of a call of at most eleven characters. -/
def hash22 (call : List Char) : Option ℕ :=
  if 11 < (bytes call).length then none
  else
    (Alphabet.read (List.replicate 11 a38) (List.rightpad 11 32 (bytes call)) 0).map fun n ↦
      hashPrime * n % 2 ^ 64 / 2 ^ 42

structure CallBook where
  by22 : SortedMap ℕ (List Char)
  by12 : SortedMap ℕ (List Char)
  by10 : SortedMap ℕ (List Char)

namespace CallBook

def empty : CallBook := ⟨SortedMap.empty, SortedMap.empty, SortedMap.empty⟩

def remember (book : CallBook) (call : List Char) : CallBook :=
  match hash22 call with
  | none => book
  | some n22 =>
      let book := if bookLimit ≤ book.by22.entries.length then empty else book
      ⟨book.by22.insert n22 call, book.by12.insert (n22 / 2 ^ 10) call,
        book.by10.insert (n22 / 2 ^ 12) call⟩

def bracketed : Option (List Char) → List Char
  | none => "<...>".toList
  | some call => '<' :: (call ++ ['>'])

def lookup22 (book : CallBook) (n22 : ℕ) : List Char := bracketed (book.by22.get? n22)

def lookup12 (book : CallBook) (n12 : ℕ) : List Char := bracketed (book.by12.get? n12)

def lookup10 (book : CallBook) (n10 : ℕ) : List Char := bracketed (book.by10.get? n10)

end CallBook

/-! ## Reading bits -/

structure Reader where
  bits : ℕ
  left : ℕ

namespace Reader

def new (bits : ℕ) : Reader := ⟨bits, 77⟩

def take (reader : Reader) (count : ℕ) : ℕ × Reader :=
  let left := reader.left - count
  (reader.bits / 2 ^ left % 2 ^ count, { reader with left := left })

end Reader

/-! ## Calls, grids and reports -/

def isToken (field : List Char) : Bool :=
  field = "CQ".toList || field = "QRZ".toList || field = "DE".toList ||
    "CQ ".toList.isPrefixOf field

def isGrid4 (field : List Char) : Bool :=
  match bytes field with
  | [b0, b1, b2, b3] =>
      (65 ≤ b0 && b0 ≤ 82) && (65 ≤ b1 && b1 ≤ 82) && isAsciiDigit b2 && isAsciiDigit b3
  | _ => false

def grid4 (value : ℕ) : List Char :=
  ofAscii (Alphabet.spell [fields, fields, digits, digits] value).1

def grid6 (value : ℕ) : Option (List Char) :=
  let (grid, rest) := Alphabet.spell [fields, fields, digits, digits, squares, squares] value
  if rest = 0 then some (ofAscii grid) else none

def cqLetters (value : ℕ) : Option (List Char) :=
  let text := trimStart (ofAscii (Alphabet.spell (List.replicate 4 a27) value).1)
  if (bytes text).all isAsciiUppercase then some ("CQ ".toList ++ text) else none

/-- The call of a number, with the prefixes of Swaziland and Guinea as they are written.  A call that
starts with a letter has more than that letter. -/
def standardCall (value : ℕ) : Option (List Char) := do
  let (letters, rest) := Alphabet.spell [a36, digits, a27, a27, a27] value
  let first ← a37.letters[rest]?
  let text := ofAscii (first :: letters)
  let area := trimEnd (text.drop 3)
  if ' ' ∈ area ∨ area = [] then none
  else
    let start := trimStart (text.take 2)
    if (bytes start).any isAsciiUppercase then
      let call := trim text
      match stripPrefix "3D0".toList call with
      | some rest => some ("3DA0".toList ++ rest)
      | none =>
          if call.head? = some 'Q' ∧ (bytes call)[1]?.any isAsciiUppercase then
            some ("3X".toList ++ call.drop 1)
          else some call
    else none

/-- A call that is not put together from an area: its parts around slashes are not empty, and it has a
digit and a letter. -/
def wellFormed (text : List Char) : Bool :=
  3 ≤ (bytes text).length && !text.contains ' ' && (text.splitOn '/').all (· ≠ []) &&
    (bytes text).any isAsciiDigit && (bytes text).any isAsciiUppercase

def call58 (value : ℕ) : Option (List Char) :=
  let (letters, rest) := Alphabet.spell (List.replicate 11 a38) value
  if rest ≠ 0 then none
  else
    let text := trim (ofAscii letters)
    if wellFormed text then some text else none

def extraField (value : ℕ) (roger : Bool) : Option (List Char) :=
  if value < maxGrid4 then some (if roger then "R ".toList ++ grid4 value else grid4 value)
  else
    let report := value - maxGrid4
    let text : Option (List Char) :=
      if report = 1 then some []
      else if report = 2 then some "RRR".toList
      else if report = 3 then some "RR73".toList
      else if report = 4 then some "73".toList
      else if 5 ≤ report ∧ report ≤ 105 then
        let snr : ℤ := report - 35
        some (signed (if 50 < snr then snr - 101 else snr))
      else none
    text.bind fun text ↦
      if roger = true ∧ 5 ≤ report then some ('R' :: text)
      else if roger then none
      else some text

/-! ## Unpacking -/

/-- A result or none, with the book as it is then. -/
abbrev Unpack := OptionT (StateM CallBook)

def orRefuse {α : Type} (value : Option α) : Unpack α := OptionT.mk (pure value)

def lookup (f : CallBook → List Char) : Unpack (List Char) := do
  let book ← getThe CallBook
  pure (f book)

def remember (call : List Char) : Unpack Unit := modifyThe CallBook fun book ↦ book.remember call

def call28 (value : ℕ) : Unpack (List Char) :=
  if value = 0 then pure "DE".toList
  else if value = 1 then pure "QRZ".toList
  else if value = 2 then pure "CQ".toList
  else if value ≤ 1002 then pure ("CQ ".toList ++ padded 3 (value - 3))
  else if value < cqLettersEnd then orRefuse (cqLetters (value - 1003))
  else if value < ntokens then orRefuse none
  else if value - ntokens < max22 then lookup fun book ↦ book.lookup22 (value - ntokens)
  else do
    let call ← orRefuse (standardCall (value - ntokens - max22))
    remember call
    pure call

def withSuffix (call : List Char) (flagged : Bool) (suffix : List Char) : Unpack (List Char) :=
  if flagged = false ∨ call.head? = some '<' ∨ isToken call then pure call
  else do
    remember (call ++ suffix)
    pure (call ++ suffix)

def freeText (bits : ℕ) : Option (List Char) :=
  let (letters, rest) := Alphabet.spell (List.replicate 13 a42) (bits / 2 ^ 6)
  if rest ≠ 0 then none
  else
    let text := trim (ofAscii letters)
    if text = [] then none else some text

def telemetry (bits : ℕ) : Option (List Char) :=
  let value := bits / 2 ^ 6
  if value = 0 then none else some ((Nat.toDigits 16 value).map Char.toUpper)

def dxpedition (bits : ℕ) : Unpack (List Char) := do
  let (first, reader) := (Reader.new bits).take 28
  let first ← call28 first
  let (second, reader) := reader.take 28
  let second ← call28 second
  let (hash, reader) := reader.take 10
  let hashed ← lookup fun book ↦ book.lookup10 hash
  let (report, _) := reader.take 5
  let report : ℤ := 2 * report - 30
  pure (first ++ " RR73; ".toList ++ second ++ ' ' :: hashed ++ ' ' :: signed report)

def fieldDay (bits : ℕ) : Unpack (List Char) := do
  let (first, reader) := (Reader.new bits).take 28
  let first ← call28 first
  let (second, reader) := reader.take 28
  let second ← call28 second
  let (roger, reader) := reader.take 1
  let roger := if roger = 1 then "R ".toList else []
  let (transmitters, reader) := reader.take 4
  let (letter, reader) := reader.take 3
  let (place, reader) := reader.take 7
  let region ← orRefuse (if place = 0 then none else sections[place - 1]?)
  let (more, _) := reader.take 3
  let transmitters := transmitters + 1 + if more = 4 then 16 else 0
  pure (first ++ ' ' :: second ++ ' ' :: roger ++ decimal transmitters ++
    Char.ofNat (65 + letter) :: ' ' :: region.toList)

def rttyRoundup (bits : ℕ) : Unpack (List Char) := do
  let (thanks, reader) := (Reader.new bits).take 1
  let thanks := if thanks = 1 then "TU; ".toList else []
  let (first, reader) := reader.take 28
  let first ← call28 first
  let (second, reader) := reader.take 28
  let second ← call28 second
  let (roger, reader) := reader.take 1
  let roger := if roger = 1 then "R ".toList else []
  let (report, reader) := reader.take 3
  let (exchange, _) := reader.take 13
  let exchange ← orRefuse (
    if exchange < 8000 then some (padded 4 exchange)
    else if exchange < 8001 then none
    else (states[exchange - 8001]?).map String.toList)
  pure (thanks ++ first ++ ' ' :: second ++ ' ' :: roger ++ '5' :: decimal (report + 2 : ℕ) ++
    '9' :: ' ' :: exchange)

def nonstandard (bits : ℕ) : Unpack (List Char) := do
  let (hash, reader) := (Reader.new bits).take 12
  let (plain, reader) := reader.take 58
  let plain ← orRefuse (call58 plain)
  let (flip, reader) := reader.take 1
  let (reply, reader) := reader.take 2
  let (cq, _) := reader.take 1
  remember plain
  if cq = 1 then orRefuse (if reply = 0 then some ("CQ ".toList ++ plain) else none)
  else
    let hashed ← lookup fun book ↦ book.lookup12 hash
    let (first, second) := if flip = 1 then (plain, hashed) else (hashed, plain)
    let ending :=
      if reply = 1 then " RRR".toList
      else if reply = 2 then " RR73".toList
      else if reply = 3 then " 73".toList
      else []
    pure (first ++ ' ' :: second ++ ending)

def euVhf (bits : ℕ) : Unpack (List Char) := do
  let (n12, reader) := (Reader.new bits).take 12
  let first ← lookup fun book ↦ book.lookup12 n12
  let (n22, reader) := reader.take 22
  let second ← lookup fun book ↦ book.lookup22 n22
  let (roger, reader) := reader.take 1
  let roger := if roger = 1 then "R ".toList else []
  let (report, reader) := reader.take 3
  let (serial, reader) := reader.take 11
  let (grid, _) := reader.take 25
  let grid ← orRefuse (grid6 grid)
  pure (first ++ ' ' :: second ++ ' ' :: roger ++ decimal (52 + report : ℕ) ++ padded 4 serial ++
    ' ' :: grid)

/-- The text of two calls and what follows them.  What follows a token is nothing or a grid. -/
def standardText (first second : List Char) (extra : ℕ) (roger : Bool) : Option (List Char) :=
  if isToken second then none
  else
    (extraField extra roger).bind fun extra ↦
      if isToken first ∧ (roger ∨ ¬(extra = [] ∨ isGrid4 extra)) then none
      else if extra = [] then some (first ++ ' ' :: second)
      else some (first ++ ' ' :: second ++ ' ' :: extra)

def standard (bits : ℕ) : Unpack (List Char) := do
  let (first, reader) := (Reader.new bits).take 28
  let (firstSuffix, reader) := reader.take 1
  let (second, reader) := reader.take 28
  let (secondSuffix, reader) := reader.take 1
  let (roger, reader) := reader.take 1
  let (extra, reader) := reader.take 15
  let (kind, _) := reader.take 3
  let suffix := if kind = 1 then "/R".toList else "/P".toList
  let first ← call28 first
  let first ← withSuffix first (firstSuffix = 1) suffix
  let second ← call28 second
  let second ← withSuffix second (secondSuffix = 1) suffix
  orRefuse (standardText first second extra (roger = 1))

def unpack (bits : ℕ) : Unpack (List Char) :=
  let i3 := bits % 8
  let n3 := bits / 8 % 8
  if i3 = 0 then
    if n3 = 0 then orRefuse (freeText bits)
    else if n3 = 1 then dxpedition bits
    else if n3 = 3 ∨ n3 = 4 then fieldDay bits
    else if n3 = 5 then orRefuse (telemetry bits)
    else orRefuse none
  else if i3 = 1 ∨ i3 = 2 then standard bits
  else if i3 = 3 then rttyRoundup bits
  else if i3 = 4 then nonstandard bits
  else if i3 = 5 then euVhf bits
  else orRefuse none

end Sdrmm.Ftx
