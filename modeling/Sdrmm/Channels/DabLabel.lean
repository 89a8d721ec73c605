import Sdrmm.Channels.Mot
import Sdrmm.Lib.Text

/-!
# Dynamic labels

The receiver of `channels/src/dab/pad/label.rs`, which joins the bytes of a data group whose length stands in
its first two bytes, and `label/message.rs`, which joins the segments of a message in whatever order they come.
Over it stand the labels that a sender cuts into segments, and the ways it may send one segment.
-/

namespace Sdrmm.DabLabel

/-! ## Prefixes -/

def prefixLength : ℕ := 2
def crcLength : ℕ := 2
def CLEAR_DISPLAY : UInt8 := 0b0001
def DL_PLUS : UInt8 := 0b0010

inductive Command
  | clearDisplay
  | dlPlus (length : ℕ)
  | reserved
deriving DecidableEq

inductive Control
  | characters (length : ℕ) (field2 : UInt8)
  | command (command : Command)
deriving DecidableEq

structure Prefix where
  toggle : Bool
  first : Bool
  last : Bool
  control : Control
deriving DecidableEq

namespace Prefix

def read (high low : UInt8) : Prefix where
  toggle := high &&& 0x80 != 0
  first := high &&& 0x40 != 0
  last := high &&& 0x20 != 0
  control :=
    if high &&& 0x10 = 0 then .characters ((high &&& 0x0f).toNat + 1) (low >>> 4)
    else if high &&& 0x0f = CLEAR_DISPLAY then .command .clearDisplay
    else if high &&& 0x0f = DL_PLUS then .command (.dlPlus ((low &&& 0x0f).toNat + 1))
    else .command .reserved

def dataLength (header : Prefix) : Option ℕ :=
  match header.control with
  | .characters length _ => some length
  | .command (.dlPlus length) => some length
  | .command .clearDisplay => some 0
  | .command .reserved => none

end Prefix

/-! ## Messages -/

def maxSegments : ℕ := 8
def SEGMENT_NUMBER_MASK : UInt8 := 0x07

structure Message where
  toggle : Option Bool := none
  charset : UInt8 := 0
  segments : Fin maxSegments → Option (List UInt8) := fun _ ↦ none
  last : Option (Fin maxSegments) := none

theorem segmentNumber_lt : ∀ field : UInt8, (field &&& SEGMENT_NUMBER_MASK).toNat < maxSegments := by
  intro field
  rw [UInt8.toNat_and]
  exact Nat.and_lt_two_pow (n := 3) _ (by decide)

def segmentIndex (first : Bool) (field2 : UInt8) : Except String (Fin maxSegments) :=
  if first then .ok ⟨0, by decide⟩
  else if field2 &&& SEGMENT_NUMBER_MASK = 0 then .error "Reserved dynamic-label segment number"
  else .ok ⟨(field2 &&& SEGMENT_NUMBER_MASK).toNat, segmentNumber_lt field2⟩

namespace Message

def conflicts (message : Message) (index : Fin maxSegments) (data : List UInt8) : Bool :=
  (message.segments index).any fun stored ↦ stored != data

/-- The bytes up to the last segment, when they are all there. -/
def complete (message : Message) : Option (List UInt8) := do
  let last ← message.last
  let parts ← ((List.finRange maxSegments).take (last + 1)).mapM message.segments
  return parts.flatten

/-- A segment taken in by the message that it belongs to. -/
def accept (message : Message) (header : Prefix) (field2 : UInt8) (index : Fin maxSegments) (data : List UInt8) :
    Message where
  toggle := message.toggle
  charset := if header.first then field2 else message.charset
  segments := Function.update message.segments index (some data)
  last := if header.last then some index else message.last

/-- Another message starts with another toggle, or with a segment that contradicts what is held. -/
def insert (message : Message) (header : Prefix) (field2 : UInt8) (data : List UInt8) :
    Message × Except String (Option (List UInt8 × UInt8)) :=
  match segmentIndex header.first field2 with
  | .error error => (message, .error error)
  | .ok index =>
    let message :=
      if message.toggle ≠ some header.toggle ∨ message.conflicts index data then { toggle := some header.toggle }
      else message
    let message := message.accept header field2 index data
    (message, .ok (message.complete.map fun bytes ↦ (bytes, message.charset)))

end Message

/-! ## The receiver -/

structure Label where
  group : List UInt8 := []
  collecting : Bool := false
  message : Message := {}
  shown : Option String := none

namespace Label

def displayed (label : Label) (text : String) : Label × Option String :=
  if label.shown = some text then (label, none) else ({ label with shown := some text }, some text)

def segment (label : Label) (header : Prefix) (data : List UInt8) : Label × Except String (Option String) :=
  match header.control with
  | .characters _ field2 =>
    let (message, inserted) := label.message.insert header field2 data
    let label := { label with message }
    match inserted with
    | .error error => (label, .error error)
    | .ok none => (label, .ok none)
    | .ok (some (bytes, charset)) =>
      match Mot.text bytes charset with
      | .error error => (label, .error error)
      | .ok text =>
        let (label, shown) := label.displayed text
        (label, .ok shown)
  | .command .clearDisplay =>
    let (label, shown) := label.displayed ""
    (label, .ok shown)
  | .command (.dlPlus _) | .command .reserved => (label, .ok none)

/-- The group as far as it has come. -/
def collect (label : Label) : Label × Except String (Option String) :=
  match label.group with
  | high :: low :: _ =>
    let header := Prefix.read high low
    match header.dataLength with
    | none => ({ label with collecting := false }, .error "Reserved dynamic-label command")
    | some dataLength =>
      let total := prefixLength + dataLength + crcLength
      if label.group.length < total then (label, .ok none)
      else
        let label := { label with collecting := false, group := label.group.take total }
        if Mot.crcOk label.group then label.segment header ((label.group.drop prefixLength).take dataLength)
        else (label, .error "DAB dynamic-label CRC failure")
  | _ => (label, .ok none)

def push (label : Label) (start : Bool) (bytes : List UInt8) : Label × Except String (Option String) :=
  let label := if start then { label with group := [], collecting := true } else label
  if label.collecting then { label with group := label.group ++ bytes }.collect else (label, .ok none)

/-- The results of a sequence of pushes. -/
def run (label : Label) (pushes : List (Bool × List UInt8)) : Label × List (Except String (Option String)) :=
  Mealy.run (fun label input ↦ ((label.push input.1 input.2).1, some (label.push input.1 input.2).2)) label pushes

end Label

/-! ## What a sender writes -/

/-- A text in UTF-8, cut into segments. -/
structure Cut where
  text : List Char
  parts : List (List UInt8)
  parts_ne : parts ≠ []
  parts_le : parts.length ≤ maxSegments
  part_pos : ∀ part ∈ parts, 1 ≤ part.length
  part_le : ∀ part ∈ parts, part.length ≤ 16
  joined : parts.flatten = Text.bytes text

namespace Cut

def high (toggle first last : Bool) (length : ℕ) : UInt8 :=
  UInt8.ofNat (toggle.toNat * 128 + first.toNat * 64 + last.toNat * 32 + length)

/-- The character set is in the first segment, the number of the segment in the others. -/
def field2 (index : ℕ) (unused : Bool) : ℕ := if index = 0 then 15 else unused.toNat * 8 + index

def low (index : ℕ) (unused : Bool) (reserved : Fin 16) : UInt8 := UInt8.ofNat (field2 index unused * 16 + reserved)

/-- The group of a segment before its check. -/
def fields (cut : Cut) (toggle : Bool) (index : ℕ) (part : List UInt8) (unused : Bool) (reserved : Fin 16) :
    List UInt8 :=
  high toggle (decide (index = 0)) (decide (index + 1 = cut.parts.length)) (part.length - 1) ::
    low index unused reserved :: part

end Cut

/-- A segment on the air: which one it is, the bits that the receiver skips, what comes behind its group, and the
subfields that the two are cut into. -/
structure Sent (cut : Cut) (toggle : Bool) where
  index : Fin maxSegments
  part : List UInt8
  index_part : cut.parts[index.val]? = some part
  unused : Bool
  reserved : Fin 16
  padding : List UInt8
  first : List UInt8
  others : List (List UInt8)

namespace Sent

variable {cut : Cut} {toggle : Bool} (sent : Sent cut toggle)

def fields : List UInt8 := cut.fields toggle sent.index sent.part sent.unused sent.reserved

def group : List UInt8 := sent.fields ++ toBe16 (~~~Dsp.crc16Msb 0x1021 0xffff sent.fields).toNat

/-- The subfields carry the group and then the padding. -/
def Whole : Prop := sent.first ++ sent.others.flatten = sent.group ++ sent.padding

def pushes : List (Bool × List UInt8) := (true, sent.first) :: sent.others.map fun subfield ↦ (false, subfield)

end Sent

/-- A label on the air: its segments, each of them at least once, under one toggle. -/
structure Aired where
  cut : Cut
  toggle : Bool
  sent : List (Sent cut toggle)
  whole : ∀ segment ∈ sent, segment.Whole
  all : ∀ index : Fin maxSegments, index < cut.parts.length → ∃ segment ∈ sent, segment.index = index

namespace Aired

def pushes (aired : Aired) : List (Bool × List UInt8) := aired.sent.flatMap Sent.pushes

/-- What a receiver shows of the label. -/
def presented (aired : Aired) : String := Mot.presentable aired.cut.text

end Aired

end Sdrmm.DabLabel
