import Sdrmm.Channels.MotHeader

/-!
# Link control of a DMR timeslot

`decode_lc` and `TalkerAlias` of `channels/src/dv/dmr.rs`, with what `burst` does with a decoded header and a decoded
terminator.  The state of a timeslot is what these read and write; its audio is left out.
-/

namespace Sdrmm.Dmr

/-- The number of some bits, the first one highest. -/
def bitsToU32 (bits : List Bool) (offset len : ℕ) : ℕ :=
  ((bits.drop offset).take len).foldl (fun acc bit ↦ acc <<< 1 ||| bit.toNat) 0

/-- Every nibble as a digit, the first bit highest. -/
def hexBits : List Bool → List Char
  | [] => []
  | bit :: bits =>
    (Nat.digitChar (((bit :: bits).take 4).foldl (fun acc bit ↦ acc <<< 1 ||| bit.toNat) 0)) :: hexBits (bits.drop 3)
termination_by bits => bits.length
decreasing_by
  rw [List.length_drop, List.length_cons]
  omega

inductive Vendor where
  | etsi | motorola | hytera | tait | jvcKenwood | emc | radioActivity | flydeMicro | prodEl | unknown
deriving DecidableEq

def Vendor.label : Vendor → String
  | .etsi => "ETSI"
  | .motorola => "Motorola"
  | .hytera => "Hytera"
  | .tait => "Tait"
  | .jvcKenwood => "JVCKENWOOD"
  | .emc => "EMC"
  | .radioActivity => "Radio Activity"
  | .flydeMicro => "Flyde Micro"
  | .prodEl => "PROD-EL"
  | .unknown => "unknown vendor"

def dmrVendor (fid : ℕ) : Vendor :=
  if fid = 0 then .etsi
  else if fid = 0x06 ∨ fid = 0x10 then .motorola
  else if fid = 0x04 then .flydeMicro
  else if fid = 0x05 then .prodEl
  else if fid = 0x08 ∨ fid = 0x68 ∨ fid = 0x88 then .hytera
  else if fid = 0x0D ∨ fid = 0x13 ∨ fid = 0x1C ∨ fid = 0x20 then .emc
  else if fid = 0x33 then .jvcKenwood
  else if fid = 0x3C then .radioActivity
  else if fid = 0x58 then .tait
  else .unknown

inductive DvFrameKind where
  | header | voice | terminator
deriving DecidableEq

inductive DvTrunkProtocol where
  | capacityPlus | hyteraXpt
deriving DecidableEq

/-- Longitude and latitude in degrees. -/
structure DvFrame where
  kind : DvFrameKind
  vendor : Option Vendor := none
  manufacturerId : Option ℕ := none
  groupCall : Option Bool := none
  destination : Option ℕ := none
  source : Option ℕ := none
  encrypted : Option Bool := none
  emergency : Option Bool := none
  opcode : Option String := none
  talkerAlias : Option (List Char) := none
  trunkProtocol : Option DvTrunkProtocol := none
  restChannel : Option ℕ := none
  channel : Option ℕ := none
  data : Option String := none
  lon : Option ℚ := none
  lat : Option ℚ := none
  positionErrorM : Option ℕ := none

def talkerAliasOpcode (flco : ℕ) : String :=
  if flco = 4 then "talker alias header"
  else if flco = 5 then "talker alias block 1"
  else if flco = 6 then "talker alias block 2"
  else "talker alias block 3"

structure TalkerAlias where
  format : ℕ
  length : ℕ
  bits : List Bool
  nextBlock : ℕ

/-- Whole pieces of so many bits. -/
def asChunks (size : ℕ) (bits : List Bool) : List (List Bool) :=
  (List.range (bits.length / size)).map fun i ↦ (bits.drop (size * i)).take size

def trimEndNul (text : List Char) : List Char := (text.reverse.dropWhile (· = Char.ofNat 0)).reverse

namespace TalkerAlias

def default : TalkerAlias := ⟨0, 0, [], 0⟩

def reset (held : TalkerAlias) : TalkerAlias := { held with bits := [], length := 0, nextBlock := 0 }

def needed (held : TalkerAlias) : Option ℕ :=
  match held.format with
  | 0 => some (held.length * 7)
  | 1 | 2 => some (held.length * 8)
  | 3 => some (held.length * 16)
  | _ => none

/-- The text of the bits that are needed. -/
def textOf (format : ℕ) (bits : List Bool) : Option (List Char) :=
  match format with
  | 0 => some ((asChunks 7 bits).map fun bits ↦ Char.ofNat (bitsToU32 bits 0 7 % 256))
  | 1 => some ((asChunks 8 bits).map fun bits ↦ Char.ofNat (bitsToU32 bits 0 8 % 256))
  | 2 => (Mot.fromUtf8 ((asChunks 8 bits).map fun bits ↦ UInt8.ofNat (bitsToU32 bits 0 8))).map String.toList
  | 3 => Mot.decodeUtf16 ((asChunks 16 bits).map fun bits ↦ bitsToU32 bits 0 16 % 2 ^ 16)
  | _ => none

def decode (held : TalkerAlias) : Option (List Char) := do
  let needed ← held.needed
  if held.bits.length < needed then none
  else return trimEndNul (← textOf held.format (held.bits.take needed))

def update (held : TalkerAlias) (flco : ℕ) (lc : List Bool) : TalkerAlias × Option (List Char) :=
  if flco = 4 then
    let format := bitsToU32 lc 16 2
    let start := if format = 0 then 23 else 24
    let held : TalkerAlias := ⟨format, bitsToU32 lc 18 5, (lc.take 72).drop start, 5⟩
    (held, held.decode)
  else if flco = held.nextBlock then
    let held := { held with bits := held.bits ++ (lc.take 72).drop 16, nextBlock := held.nextBlock + 1 }
    (held, held.decode)
  else (held, none)

end TalkerAlias

structure SlotState where
  encrypted : Option Bool
  talkerAlias : TalkerAlias

def signedBits (value width : ℕ) : ℤ := if value < 2 ^ (width - 1) then value else value - 2 ^ width

def decodeGpsInfo (frame : DvFrame) (lc : List Bool) : DvFrame :=
  { frame with
    lon := some (signedBits (bitsToU32 lc 23 25) 25 * 360 / 2 ^ 25)
    lat := some (signedBits (bitsToU32 lc 48 24) 24 * 180 / 2 ^ 24)
    positionErrorM :=
      match bitsToU32 lc 20 3 with
      | 0 => some 2
      | 1 => some 20
      | 2 => some 200
      | 3 => some 2000
      | 4 => some 20000
      | 5 => some 200000
      | _ => none }

/-- A frame that tells of an alias, and the alias when it is complete. -/
def SlotState.alias (slot : SlotState) (frame : DvFrame) (opcode : String) (flco : ℕ) (lc : List Bool) :
    SlotState × DvFrame :=
  let (talkerAlias, text) := slot.talkerAlias.update flco lc
  ({ slot with talkerAlias }, { frame with opcode := some opcode, talkerAlias := text })

def decodeLc (slot : SlotState) (lc : List Bool) : SlotState × DvFrame :=
  let flco := bitsToU32 lc 2 6
  let fid := bitsToU32 lc 8 8
  let frame : DvFrame := { kind := .header, vendor := some (dmrVendor fid), manufacturerId := some fid }
  if (fid = 0 ∧ (flco = 0 ∨ flco = 3)) ∨ (fid = 0x10 ∧ flco = 0) ∨ (fid = 0x06 ∧ (flco = 0 ∨ flco = 3)) then
    (slot, { frame with
      groupCall := some (flco = 0)
      destination := some (bitsToU32 lc 24 24)
      source := some (bitsToU32 lc 48 24)
      encrypted := some (lc.getD 17 false)
      emergency := some (lc.getD 16 false)
      opcode := if fid ≠ 0 then some ((dmrVendor fid).label ++ " voice channel user") else none })
  else if fid = 0 ∧ 4 ≤ flco ∧ flco ≤ 7 then slot.alias frame (talkerAliasOpcode flco) flco lc
  else if fid = 0x68 ∧ 4 ≤ flco ∧ flco ≤ 7 then
    slot.alias frame ("Hytera XPT " ++ talkerAliasOpcode flco) flco lc
  else if fid = 0x10 ∧ 0x14 ≤ flco ∧ flco ≤ 0x17 then
    slot.alias frame ("Motorola " ++ talkerAliasOpcode (flco - 0x10)) (flco - 0x10) lc
  else if fid = 0 ∧ flco = 8 then (slot, decodeGpsInfo { frame with opcode := some "GPS Info" } lc)
  else if fid = 0x10 ∧ (flco = 4 ∨ flco = 7) then
    (slot, { frame with
      opcode := some "Capacity Plus voice channel user"
      trunkProtocol := some .capacityPlus
      groupCall := some (flco = 4)
      destination := some (bitsToU32 lc 24 24)
      source := some (bitsToU32 lc 56 16)
      restChannel := some (bitsToU32 lc 52 4) })
  else if fid = 0x68 ∧ (flco = 0 ∨ flco = 3 ∨ flco = 9) then
    (slot, { frame with
      trunkProtocol := some .hyteraXpt
      opcode := some (if flco = 9 then "Hytera XPT call alert" else "Hytera XPT voice channel user")
      groupCall := some (lc.getD 1 false)
      destination := some (bitsToU32 lc 32 16)
      source := some (bitsToU32 lc 56 16)
      channel := some (bitsToU32 lc 16 4)
      data := if flco = 9 then
          some ("free LCN " ++ toString (bitsToU32 lc 24 4) ++ ", handshake " ++ toString (bitsToU32 lc 28 4))
        else none })
  else
    (slot, { frame with
      opcode := some ((dmrVendor fid).label ++ " FLCO " ++ toString flco ++ ", unparsed")
      data := some (String.ofList (hexBits ((lc.take 72).drop 16))) })

/-- A link control that was decoded and whose checksum came out: of a voice header, of a terminator, or embedded in
the voice bursts. -/
inductive Received where
  | header (lc : List Bool)
  | terminator (lc : List Bool)
  | embedded (lc : List Bool)

/-- What `burst` keeps of a decoded header or terminator, and what an embedded one tells. -/
def SlotState.receive (slot : SlotState) : Received → SlotState × DvFrame
  | .header lc =>
    let (slot, frame) := decodeLc slot lc
    ({ slot with encrypted := frame.encrypted.or slot.encrypted }, frame)
  | .terminator lc =>
    let (slot, frame) := decodeLc slot lc
    ({ slot with encrypted := none }, { frame with kind := .terminator })
  | .embedded lc =>
    let (slot, frame) := decodeLc slot lc
    (slot, { frame with kind := .voice })

def SlotState.default : SlotState := ⟨none, .default⟩

/-- The timeslot after what it received. -/
def SlotState.after (slot : SlotState) (received : List Received) : SlotState :=
  received.foldl (fun slot received ↦ (slot.receive received).1) slot

end Sdrmm.Dmr
