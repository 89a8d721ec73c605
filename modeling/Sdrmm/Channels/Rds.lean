import Sdrmm.Lib.Numerals
import Sdrmm.Lib.Text

/-!
# Radio data system

`TextField` and `Station` of `channels/src/rds.rs`, and the radio text groups of `channels/src/synth/rds.rs` with
the A/B flag that the tests of the receiver send.
-/

namespace Sdrmm.Rds

def psLen : ℕ := 8
def rtLen : ℕ := 64
def rtTerminator : UInt8 := 0x0D

def afCountBase : UInt8 := 224
def afCountTop : UInt8 := 249
def afMaxCode : UInt8 := 204

def firstGlyph : ℕ := 0x20

def ebuLatin : List Char :=
  [' ', '!', '\x22', '#', '¤', '%', '&', '\x27', '(', ')', '*', '+', ',', '-', '.', '/',
   '0', '1', '2', '3', '4', '5', '6', '7', '8', '9', ':', ';', '<', '=', '>', '?',
   '@', 'A', 'B', 'C', 'D', 'E', 'F', 'G', 'H', 'I', 'J', 'K', 'L', 'M', 'N', 'O',
   'P', 'Q', 'R', 'S', 'T', 'U', 'V', 'W', 'X', 'Y', 'Z', '[', '\x5c', ']', '―', '_',
   '‖', 'a', 'b', 'c', 'd', 'e', 'f', 'g', 'h', 'i', 'j', 'k', 'l', 'm', 'n', 'o',
   'p', 'q', 'r', 's', 't', 'u', 'v', 'w', 'x', 'y', 'z', '\x7b', '|', '\x7d', '¯', '«',
   'á', 'à', 'é', 'è', 'í', 'ì', 'ó', 'ò', 'ú', 'ù', 'Ñ', 'Ç', 'Ş', 'ß', '¡', 'Ĳ',
   'â', 'ä', 'ê', 'ë', 'î', 'ï', 'ô', 'ö', 'û', 'ü', 'ñ', 'ç', 'ş', 'ğ', 'ı', 'ĳ',
   'ª', 'α', '©', '‰', 'Ğ', 'ě', 'ň', 'ő', 'π', '€', '£', '$', '←', '↑', '→', '↓',
   'º', '¹', '²', '³', '±', 'İ', 'ń', 'ű', 'µ', '¿', '÷', '°', '¼', '½', '¾', '§',
   'Á', 'À', 'É', 'È', 'Í', 'Ì', 'Ó', 'Ò', 'Ú', 'Ù', 'Ř', 'Č', 'Š', 'Ž', 'Ð', 'Ŀ',
   'Â', 'Ä', 'Ê', 'Ë', 'Î', 'Ï', 'Ô', 'Ö', 'Û', 'Ü', 'ř', 'č', 'š', 'ž', 'đ', 'ŀ',
   'Ã', 'Å', 'Æ', 'Œ', 'ŷ', 'Ý', 'Õ', 'Ø', 'Þ', 'Ŋ', 'Ŕ', 'Ć', 'Ś', 'Ź', 'Ŧ', 'ð',
   'ã', 'å', 'æ', 'œ', 'ŵ', 'ý', 'õ', 'ø', 'þ', 'ŋ', 'ŕ', 'ć', 'ś', 'ź', 'ŧ', 'ť']

def text (raw : List UInt8) : List Char :=
  Text.trimEnd (raw.map fun c ↦
    if firstGlyph ≤ c.toNat then (ebuLatin[c.toNat - firstGlyph]?).getD '?' else '?')

structure Block where
  data : UInt16
  trusted : Bool

/-- The blocks of a group, in the order A to D. -/
abbrev Group := Vector (Option Block) 4

/-- A new value for a slot, and whether it is another one. -/
def set {T : Type} [DecidableEq T] (slot : Option T) (value : T) : Bool × Option T :=
  (slot ≠ some value, some value)

def publish (slot value : Option (List Char)) : Bool × Option (List Char) :=
  match value with
  | some text => if slot ≠ some text then (true, some text) else (false, slot)
  | none => (false, slot)

def lowMask (bits : ℕ) : ℕ := if bits ≥ 64 then 2 ^ 64 - 1 else 1 <<< bits - 1

structure TextField where
  chars : List UInt8
  seen : ℕ
  staged : List UInt8
  stagedSeen : ℕ
  len : ℕ
  terminated : Bool
  text : Option (List Char)

namespace TextField

def new (len : ℕ) (terminated : Bool) : TextField where
  chars := List.replicate rtLen 0
  seen := 0
  staged := List.replicate rtLen 0
  stagedSeen := 0
  len := len
  terminated := terminated
  text := none

def clear (field : TextField) : TextField := { field with chars := List.replicate rtLen 0, seen := 0 }

/-- A character that was heard, trusted or not. -/
def stage (field : TextField) (place : ℕ) (byte : UInt8) : TextField :=
  { field with staged := field.staged.set place byte, stagedSeen := field.stagedSeen ||| 1 <<< place }

def put (field : TextField) (place : ℕ) (byte : UInt8) : TextField :=
  { field with chars := field.chars.set place byte, seen := field.seen ||| 1 <<< place }

def writeByte (field : TextField) (place : ℕ) (byte : UInt8) (trusted : Bool) : TextField :=
  if place ≥ field.len then field
  else
    let corroborated := field.stagedSeen.testBit place && field.staged[place]? == some byte
    let field := field.stage place byte
    if !trusted && !corroborated then field
    else if field.seen.testBit place then
      if field.chars[place]? = some byte then field else field.clear.put place byte
    else field.put place byte

/-- Where the text ends. -/
def ending (field : TextField) : ℕ :=
  if field.terminated then
    ((List.range field.len).find? fun i ↦ field.seen.testBit i && field.chars[i]? == some rtTerminator).getD field.len
  else field.len

def complete (field : TextField) : Option (List Char) :=
  let needed := lowMask field.ending
  if field.seen &&& needed = needed then some (Rds.text (field.chars.take field.ending)) else none

/-- Both characters of a block, the high one first. -/
def writePair (field : TextField) (index : ℕ) (chars : UInt16) (trusted : Bool) : TextField :=
  (field.writeByte index (chars >>> 8).toUInt8 trusted).writeByte (index + 1) chars.toUInt8 trusted

def write (field : TextField) (index : ℕ) (chars : UInt16) (trusted : Bool) : Bool × TextField :=
  let field := field.writePair index chars trusted
  let (changed, text) := publish field.text field.complete
  (changed, { field with text })

end TextField

structure Station where
  pi : Option UInt16
  pty : Option UInt8
  tp : Option Bool
  ta : Option Bool
  music : Option Bool
  ps : TextField
  rt : TextField
  rtFlag : Option Bool
  af : List UInt8
  afExpected : ℕ

namespace Station

def default : Station where
  pi := none
  pty := none
  tp := none
  ta := none
  music := none
  ps := .new psLen false
  rt := .new rtLen true
  rtFlag := none
  af := []
  afExpected := 0

def pushAf (station : Station) (code : UInt8) : Bool × Station :=
  if afCountBase ≤ code ∧ code ≤ afCountTop then
    let count := (code - afCountBase).toNat
    if count = station.afExpected then (false, station)
    else (!station.af.isEmpty, { station with afExpected := count, af := [] })
  else if 1 ≤ code ∧ code ≤ afMaxCode then
    if station.af.length ≥ station.afExpected ∨ code ∈ station.af then (false, station)
    else (true, { station with af := station.af ++ [code] })
  else (false, station)

def writePs (station : Station) (index : ℕ) (carried : Option (UInt16 × Bool)) : Bool × Station :=
  match carried with
  | some (chars, trusted) =>
    let (changed, ps) := station.ps.write index chars trusted
    (changed, { station with ps })
  | none => (false, station)

def writeRt (station : Station) (index : ℕ) (carried : Option (UInt16 × Bool)) : Bool × Station :=
  match carried with
  | some (chars, trusted) =>
    let (changed, rt) := station.rt.write index chars trusted
    (changed, { station with rt })
  | none => (false, station)

def applyProgram (station : Station) (header : UInt16) (trusted : Bool) : Bool × Station :=
  if trusted then
    let (tpChanged, tp) := set station.tp (header &&& 0x0400 != 0)
    let (ptyChanged, pty) := set station.pty (header >>> 5 &&& 0x1F).toUInt8
    (tpChanged || ptyChanged, { station with tp, pty })
  else (false, station)

def applySwitches (station : Station) (header : UInt16) (trusted : Bool) : Bool × Station :=
  if trusted then
    let (taChanged, ta) := set station.ta (header &&& 0x0010 != 0)
    let (musicChanged, music) := set station.music (header &&& 0x0008 != 0)
    (taChanged || musicChanged, { station with ta, music })
  else (false, station)

/-- A group of type 0. -/
def applyBasic (station : Station) (header : UInt16) (trusted : Bool)
    (carries : Fin 4 → Option (UInt16 × Bool)) : Bool × Station :=
  let (switched, station) := station.applySwitches header trusted
  let (named, station) := station.writePs (2 * (header &&& 0x0003).toNat) (carries 3)
  match carries 2 with
  | some (c, true) =>
    if header &&& 0x0800 != 0 then (switched || named, station)
    else
      let (first, station) := station.pushAf (c >>> 8).toUInt8
      let (second, station) := station.pushAf c.toUInt8
      (switched || named || first || second, station)
  | _ => (switched || named, station)

def applyFlag (station : Station) (header : UInt16) (trusted : Bool) : Station :=
  if trusted then
    let flag := header &&& 0x0010 != 0
    let rt := if station.rtFlag.any (· ≠ flag) then station.rt.clear else station.rt
    { station with rt, rtFlag := some flag }
  else station

/-- A group of type 2. -/
def applyRadioText (station : Station) (header : UInt16) (trusted : Bool)
    (carries : Fin 4 → Option (UInt16 × Bool)) : Bool × Station :=
  let station := station.applyFlag header trusted
  let segment := (header &&& 0x000F).toNat
  if header &&& 0x0800 != 0 then station.writeRt (2 * segment) (carries 3)
  else
    let (first, station) := station.writeRt (4 * segment) (carries 2)
    let (second, station) := station.writeRt (4 * segment + 2) (carries 3)
    (first || second, station)

def applyPi (station : Station) (block : Option Block) : Bool × Station :=
  match block with
  | some a =>
    if a.trusted then
      let (changed, pi) := set station.pi a.data
      (changed, { station with pi })
    else (false, station)
  | none => (false, station)

def apply (station : Station) (blocks : Group) : Bool × Station :=
  match blocks[1] with
  | none => (false, station)
  | some b =>
    let carries (slot : Fin 4) := blocks[slot].map fun x ↦ (x.data, b.trusted && x.trusted)
    let (identified, station) := station.applyPi blocks[0]
    let (described, station) := station.applyProgram b.data b.trusted
    if b.data >>> 12 = 0 then
      let (changed, station) := station.applyBasic b.data b.trusted carries
      (identified || described || changed, station)
    else if b.data >>> 12 = 2 then
      let (changed, station) := station.applyRadioText b.data b.trusted carries
      (identified || described || changed, station)
    else (identified || described, station)

/-- The station after some groups. -/
def after (groups : List Group) : Station := groups.foldl (fun station group ↦ (station.apply group).2) default

end Station

/-! ## The sender -/

/-- A message as the radio text of a program, sent over and over with one state of the A/B flag. -/
structure Cast where
  message : List UInt8
  nonempty : message ≠ []
  short : message.length ≤ rtLen
  plain : rtTerminator ∉ message
  pi : UInt16
  tp : Bool
  pty : UInt8
  flag : Bool
  cycles : ℕ
  sent : 0 < cycles

namespace Cast

def rtBytes (message : List UInt8) : List UInt8 :=
  let bytes := if message.length < rtLen then message ++ [rtTerminator] else message
  bytes ++ List.replicate ((4 - bytes.length % 4) % 4) 0x20

def pairAt (bytes : List UInt8) (index : ℕ) : UInt16 :=
  (bytes.getD index 0x20).toUInt16 <<< 8 ||| (bytes.getD (index + 1) 0x20).toUInt16

/-- The second block. -/
def header (cast : Cast) (segment : ℕ) : UInt16 :=
  (2 : UInt16) <<< 12 ||| (cast.tp.toUInt16 <<< 10 ||| (cast.pty &&& 0x1F).toUInt16 <<< 5) |||
    cast.flag.toUInt16 <<< 4 ||| UInt16.ofNat segment

def group (cast : Cast) (segment : ℕ) : Group :=
  #v[some ⟨cast.pi, true⟩, some ⟨cast.header segment, true⟩,
    some ⟨pairAt (rtBytes cast.message) (4 * segment), true⟩,
    some ⟨pairAt (rtBytes cast.message) (4 * segment + 2), true⟩]

def segments (cast : Cast) : ℕ := (rtBytes cast.message).length / 4

/-- One full cycle. -/
def cycle (cast : Cast) : List Group := (List.range cast.segments).map cast.group

def groups (cast : Cast) : List Group := (List.replicate cast.cycles cast.cycle).flatten

end Cast

/-- All groups of some messages, each sent as often as it is. -/
def stream (casts : List Cast) : List Group := casts.flatMap Cast.groups

end Sdrmm.Rds
