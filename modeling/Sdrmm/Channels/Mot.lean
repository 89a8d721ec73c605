import Sdrmm.Channels.MotHeader
import Sdrmm.Dsp.Crc
import Sdrmm.Lib.Mealy
import Sdrmm.Lib.Numerals
import Sdrmm.Lib.SortedMap

/-!
# Assembly of MOT objects

The data groups of `dab/pad/mot/group.rs`, the two entities of an object of `dab/pad/mot/entity.rs` and the
receiver of `dab/pad/mot.rs`, which joins segments in whatever order they come.  Over it stand the data
groups that a sender may write for a segment, with every optional field of theirs.
-/

namespace Sdrmm.Mot

open Sdrmm.Dsp

/-! ## Data groups -/

inductive Kind
  | header | body | unsupported
  deriving DecidableEq

def Kind.ofCode (value : UInt8) : Kind :=
  if value = 3 then .header else if value = 4 then .body else .unsupported

structure SegmentNumber where
  number : ℕ
  last : Bool

structure DataGroup where
  kind : Kind
  segment : Option SegmentNumber
  transportId : Option ℕ
  data : List UInt8

def crcOk (bytes : List UInt8) : Bool :=
  match bytes.drop (bytes.length - 2) with
  | [high, low] =>
      (~~~crc16Msb 0x1021 0xffff (bytes.take (bytes.length - 2))).toNat == be16 high low
  | _ => false

namespace DataGroup

def checkedFields (bytes : List UInt8) (hasCrc : Bool) : Except String (List UInt8) :=
  if !hasCrc then .ok bytes
  else if !crcOk bytes then .error "MOT data-group CRC failure"
  else .ok (bytes.take (bytes.length - 2))

def skipExtension (bytes : List UInt8) (present : Bool) : Except String (List UInt8) :=
  if !present then .ok bytes
  else if bytes.length < 2 then .error "Truncated MOT data group extension field"
  else .ok (bytes.drop 2)

def segmentField (bytes : List UInt8) (present : Bool) :
    Except String (Option SegmentNumber × List UInt8) :=
  if !present then .ok (none, bytes)
  else
    match bytes with
    | high :: low :: rest =>
        .ok (some ⟨be16 high low % 0x8000, decide (0x8000 ≤ be16 high low)⟩, rest)
    | _ => .error "Truncated MOT session header"

def userAccess (bytes : List UInt8) (present : Bool) : Except String (Option ℕ × List UInt8) :=
  if !present then .ok (none, bytes)
  else
    match bytes with
    | [] => .error "Truncated MOT user access field"
    | access :: rest =>
        let length := (access &&& 0x0f).toNat
        if rest.length < length then .error "Truncated MOT user access field"
        else if access &&& 0x10 = 0 then .ok (none, rest.drop length)
        else
          match rest.take length with
          | high :: low :: _ => .ok (some (be16 high low), rest.drop length)
          | _ => .error "MOT TransportId longer than its user access field"

def parse (bytes : List UInt8) : Except String DataGroup :=
  match bytes with
  | [] => .error "Empty MOT data group"
  | flags :: _ => do
      let fields ← checkedFields bytes (flags &&& 0x40 != 0)
      if fields.length < 2 then throw "Truncated MOT data group header"
      let rest ← skipExtension (fields.drop 2) (flags &&& 0x80 != 0)
      let (segment, rest) ← segmentField rest (flags &&& 0x20 != 0)
      let (transportId, data) ← userAccess rest (flags &&& 0x10 != 0)
      return ⟨Kind.ofCode (flags &&& 0x0f), segment, transportId, data⟩

end DataGroup

def segmentPayload : List UInt8 → Except String (List UInt8)
  | high :: low :: payload =>
      if be16 high low % 0x2000 ≠ payload.length then .error "MOT segment size mismatch"
      else .ok payload
  | _ => .error "Truncated MOT segmentation header"

/-! ## Entities -/

/-- One of the two parts of an object. -/
structure Entity where
  segments : SortedMap ℕ (List UInt8) := .empty
  last : Option ℕ := none

namespace Entity

def contradicts (entity : Entity) (segment : SegmentNumber) (data : List UInt8) : Bool :=
  let misplacedEnd :=
    match entity.last with
    | some last => if segment.last then last != segment.number else decide (last < segment.number)
    | none => segment.last &&
        entity.segments.entries.getLast?.any fun highest ↦ decide (segment.number < highest.1)
  let changed := (entity.segments.get? segment.number).any fun stored ↦ stored != data
  misplacedEnd || changed

/-- No result is a conflict. -/
def store (entity : Entity) (segment : SegmentNumber) (data : List UInt8) : Option Entity :=
  if entity.contradicts segment data then none
  else
    some {
      segments :=
        if entity.segments.contains segment.number then entity.segments
        else entity.segments.insert segment.number data
      last := if segment.last then some segment.number else entity.last }

def assembled (entity : Entity) : Option (List UInt8) := do
  let last ← entity.last
  if (entity.segments.entries.filter fun entry ↦ entry.1 ≤ last).length ≠ last + 1 then none
  else (List.flatten ·) <$> (List.range (last + 1)).mapM entity.segments.get?

end Entity

/-! ## The receiver -/

structure BroadcastData where
  protocol : Option ℕ
  label : List UInt8
  serviceId : Option ℕ
  name : String
  mediaType : String
  bytes : List UInt8

def object (header body : List UInt8) : Except String BroadcastData := do
  let header ← Header.parse header
  if header.bodySize ≠ body.length then throw "MOT body size mismatch"
  if header.compressed then throw "Compressed MOT object not supported"
  if header.scrambled then throw "Scrambled MOT object not supported"
  match header.contentName with
  | none => throw "MOT header without ContentName"
  | some name => return ⟨none, [], none, name, header.mediaType, body⟩

structure Transfer where
  transportId : ℕ
  header : Entity := {}
  body : Entity := {}
  finished : Bool := false

namespace Transfer

def entity (transfer : Transfer) (kind : Kind) : Entity :=
  match kind with
  | .header => transfer.header
  | .body | .unsupported => transfer.body

def setEntity (transfer : Transfer) (kind : Kind) (entity : Entity) : Transfer :=
  match kind with
  | .header => { transfer with header := entity }
  | .body | .unsupported => { transfer with body := entity }

def conflict : String := "MOT segment differs from its earlier copy"

/-- A conflicting segment is the first one of a transfer that starts anew. -/
def receive (transfer : Transfer) (kind : Kind) (segment : SegmentNumber) (payload : List UInt8) :
    Transfer × Except String (Option BroadcastData) :=
  match (transfer.entity kind).store segment payload with
  | none =>
      let fresh : Transfer := { transportId := transfer.transportId }
      (fresh.setEntity kind (((fresh.entity kind).store segment payload).getD (fresh.entity kind)),
        .error conflict)
  | some entity =>
      let transfer := transfer.setEntity kind entity
      if transfer.finished then (transfer, .ok none)
      else
        match transfer.header.assembled, transfer.body.assembled with
        | some header, some body => ({ transfer with finished := true }, some <$> object header body)
        | _, _ => (transfer, .ok none)

end Transfer

/-- A segment as `push` reads it off a data group. -/
structure Segment where
  kind : Kind
  segment : SegmentNumber
  transportId : ℕ
  payload : List UInt8

/-- Groups of another kind carry no segment. -/
def Segment.read (bytes : List UInt8) : Except String (Option Segment) := do
  let group ← DataGroup.parse bytes
  if group.kind = .unsupported then return none
  else
    match group.segment, group.transportId with
    | none, _ => throw "MOT data group without segment number"
    | some _, none => throw "MOT data group without TransportId"
    | some segment, some transportId =>
        return some ⟨group.kind, segment, transportId, ← segmentPayload group.data⟩

structure Receiver where
  transfer : Option Transfer := none

namespace Receiver

/-- Whether an unfinished transfer of another object was given up. -/
def retireOther (mot : Receiver) (transportId : ℕ) : Option Transfer × Bool :=
  match mot.transfer with
  | some transfer =>
      if transfer.transportId = transportId then (some transfer, false)
      else (none, !transfer.finished)
  | none => (none, false)

/-- `push` for a segment that was read. -/
def receive (mot : Receiver) (segment : Segment) :
    Receiver × Except String (Option BroadcastData) :=
  let (transfer, abandoned) := mot.retireOther segment.transportId
  let transfer := transfer.getD { transportId := segment.transportId }
  let (transfer, result) := transfer.receive segment.kind segment.segment segment.payload
  ({ transfer := some transfer },
    match result with
    | .ok none => if abandoned then .error "Incomplete MOT object replaced" else .ok none
    | result => result)

def push (mot : Receiver) (bytes : List UInt8) :
    Receiver × Except String (Option BroadcastData) :=
  match Segment.read bytes with
  | .error error => (mot, .error error)
  | .ok none => (mot, .ok none)
  | .ok (some segment) => mot.receive segment

/-- The results of a sequence of pushes. -/
def run (mot : Receiver) (inputs : List (List UInt8)) :
    Receiver × List (Except String (Option BroadcastData)) :=
  Mealy.run (fun mot bytes ↦ ((push mot bytes).1, some (push mot bytes).2)) mot inputs

end Receiver

/-! ## What a sender writes -/

/-- A data group that carries a segment, with any choice of what the receiver skips: an extension field,
an end-user address behind the transport id, counters and reserved bits. -/
structure Group where
  kind : Kind
  supported : kind ≠ .unsupported
  number : ℕ
  number_lt : number < 0x8000
  last : Bool
  transportId : ℕ
  transportId_lt : transportId < 0x10000
  payload : List UInt8
  payload_le : payload.length ≤ 8191
  crc : Bool
  extension : Option (UInt8 × UInt8)
  indices : UInt8
  reserved : Fin 8
  address : List UInt8
  address_le : address.length ≤ 13
  repetition : Fin 8

namespace Group

/-- The fields that are there and the kind of the group; a segment number and a transport id always are. -/
def flags (extension crc header : Bool) : UInt8 :=
  (if extension then 0x80 else 0) + (if crc then 0x40 else 0) + 0x30 + if header then 3 else 4

/-- The length of the user access field with the flag of the transport id. -/
def access (reserved : Fin 8) (length : ℕ) : UInt8 := UInt8.ofNat (reserved * 32 + 16 + length)

def extensionField (group : Group) : List UInt8 :=
  match group.extension with
  | some (high, low) => [high, low]
  | none => []

/-- The user access field behind the segment number. -/
def accessField (group : Group) : List UInt8 :=
  access group.reserved (2 + group.address.length) :: (toBe16 group.transportId ++ group.address)

def segmentation (group : Group) : List UInt8 :=
  toBe16 (group.repetition * 8192 + group.payload.length) ++ group.payload

def fields (group : Group) : List UInt8 :=
  flags group.extension.isSome group.crc (group.kind = .header) :: group.indices :: (group.extensionField ++
    (toBe16 (group.number + if group.last then 0x8000 else 0) ++
      (group.accessField ++ group.segmentation)))

def encode (group : Group) : List UInt8 :=
  if group.crc then
    group.fields ++ toBe16 (~~~crc16Msb 0x1021 0xffff group.fields).toNat
  else group.fields

/-- What the group carries. -/
def carried (group : Group) : Segment :=
  ⟨group.kind, ⟨group.number, group.last⟩, group.transportId, group.payload⟩

end Group

/-- The segments of an entity: one at least, with numbers of fifteen bits and lengths of thirteen. -/
structure Cut where
  parts : List (List UInt8)
  parts_ne : parts ≠ []
  parts_le : parts.length ≤ 0x8000
  part_le : ∀ part ∈ parts, part.length ≤ 8191

def Cut.bytes (cut : Cut) : List UInt8 := cut.parts.flatten

/-- An object on the air. -/
structure Sent where
  header : Cut
  body : Cut
  transportId : ℕ

namespace Sent

def cut (sent : Sent) (kind : Kind) : Cut :=
  match kind with
  | .header => sent.header
  | .body | .unsupported => sent.body

/-- The group carries a segment of the object. -/
def Sends (sent : Sent) (group : Group) : Prop :=
  group.transportId = sent.transportId ∧
    (sent.cut group.kind).parts[group.number]? = some group.payload ∧
    group.last = decide (group.number + 1 = (sent.cut group.kind).parts.length)

/-- Every segment of the object is carried by one of the groups. -/
def Arrived (sent : Sent) (groups : List Group) : Prop :=
  ∀ kind, kind ≠ .unsupported → ∀ number < (sent.cut kind).parts.length,
    ∃ group ∈ groups, group.kind = kind ∧ group.number = number

end Sent

end Sdrmm.Mot
