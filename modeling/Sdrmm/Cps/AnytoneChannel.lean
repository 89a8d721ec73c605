import Sdrmm.Cps.Bits
import Sdrmm.Cps.Catalog
import Sdrmm.Cps.Names
import Sdrmm.Cps.Tones

/-!
# Channel records of the D890UV

One channel as `cps/src/anytone/channel.rs` reads and writes it.  The record stores the transmit
frequency as an offset with a direction, and its references as indices.
-/

namespace Sdrmm.Cps.Anytone

def channelSize : ℕ := 0x80
def nameUnits : ℕ := 16

/-! ## Layout -/

@[simp] def rxFrequency : ℕ := 0x00
@[simp] def txOffset : ℕ := 0x04
@[simp] def modeFlags : ℕ := 0x08
@[simp] def signalingFlags : ℕ := 0x09
@[simp] def txCtcss : ℕ := 0x0a
@[simp] def rxCtcss : ℕ := 0x0b
@[simp] def txDcs : ℕ := 0x0c
@[simp] def rxDcs : ℕ := 0x0e
@[simp] def customCtcss : ℕ := 0x10
@[simp] def contactIndex : ℕ := 0x14
@[simp] def radioIdIndex : ℕ := 0x18
@[simp] def admitFlags : ℕ := 0x1a
@[simp] def scanListIndex : ℕ := 0x1b
@[simp] def groupListIndex : ℕ := 0x1c
@[simp] def colorCodeAt : ℕ := 0x20
@[simp] def dmrFlags : ℕ := 0x21
@[simp] def nameAt : ℕ := 0x44

@[simp] def modeBit : ℕ := 0
@[simp] def levelBit : ℕ := 2
@[simp] def bandwidthBit : ℕ := 4
@[simp] def repeaterBit : ℕ := 6
@[simp] def txSignalingBit : ℕ := 0
@[simp] def rxSignalingBit : ℕ := 2
@[simp] def admitBit : ℕ := 0
@[simp] def timeSlotBit : ℕ := 0

def signalingNone : ℕ := 0
def signalingCtcss : ℕ := 1
def signalingDcs : ℕ := 2
def customCtcssIndex : ℕ := 0x33
def noIndex : ℕ := 0xff

/-! ## Reading -/

def rxHz (data : List UInt8) : ℕ := getBcd8Be data rxFrequency * 10

def txHz (data : List UInt8) : ℕ :=
  let offset := getBcd8Be data txOffset * 10
  match getBits data modeFlags repeaterBit 2 with
  | 2 => rxHz data - offset
  | 1 => rxHz data + offset
  | _ => rxHz data

def isValid (data : List UInt8) : Bool :=
  !isErased data && !(readUtf16 data nameAt nameUnits).isEmpty && rxHz data != 0

def readTone (data : List UInt8) (signaling ctcssAt dcsAt : ℕ) : Option Tone :=
  if signaling = signalingCtcss then
    let index := getU8 data ctcssAt
    if index = customCtcssIndex then some (.ctcss (getU16Le data customCtcss))
    else (ctcssFromIndex index).map Tone.ctcss
  else if signaling = signalingDcs then
    let raw := getU16Le data dcsAt
    some (.dcs (dcsFromBinary (raw % 512)) (512 ≤ raw))
  else none

def powerFrom : ℕ → Power
  | 1 => .mid
  | 2 => .high
  | 3 => .max
  | _ => .low

def dmrAdmitFrom : ℕ → Admit
  | 1 => .channelFree
  | 2 => .differentColorCode
  | 3 => .colorCodeFree
  | _ => .always

def fmAdmitFrom : ℕ → Admit
  | 1 => .toneFree
  | 2 => .channelFree
  | _ => .always

def indexName (raw : ℕ) (list : NameList) : Option String :=
  if raw != noIndex then list.nameAt raw else none

def decodeMode (data : List UInt8) (catalog : Catalog) : ChannelMode :=
  if getBits data modeFlags modeBit 2 != 0 then
    .dmr
      { colorCode := min (getU8 data colorCodeAt) 15
        timeSlot := if getBit data dmrFlags timeSlotBit then .two else .one
        contact := catalog.contacts.nameAt (getU32Le data contactIndex)
        groupList := indexName (getU8 data groupListIndex) catalog.groupLists
        radioId :=
          if getU8 data radioIdIndex != 0 then catalog.radioIds.nameAt (getU8 data radioIdIndex)
          else none
        admitRule := dmrAdmitFrom (getBits data admitFlags admitBit 2) }
  else
    .fm
      { bandwidth := if getBit data modeFlags bandwidthBit then .wide else .narrow
        rxTone := readTone data (getBits data signalingFlags rxSignalingBit 2) rxCtcss rxDcs
        txTone := readTone data (getBits data signalingFlags txSignalingBit 2) txCtcss txDcs
        squelch := none
        admitRule := fmAdmitFrom (getBits data admitFlags admitBit 2) }

def decodeChannel (data : List UInt8) (catalog : Catalog) (names : UniqueNames) :
    Option (UniqueNames × Channel) :=
  if !isValid data then none
  else
    let claimed := names.claim (readUtf16 data nameAt nameUnits) "Channel"
    some (claimed.1,
      { name := claimed.2
        rxHz := rxHz data
        txHz := txHz data
        power := powerFrom (getBits data modeFlags levelBit 2)
        rxOnly := false
        timeoutS := none
        scanList := indexName (getU8 data scanListIndex) catalog.scanLists
        mode := decodeMode data catalog })

/-! ## Writing -/

def writeTone (data : List UInt8) (tone : Option Tone) (bit ctcssAt dcsAt : ℕ) : List UInt8 :=
  match tone with
  | none => setBits data signalingFlags bit 2 signalingNone
  | some (.ctcss decihertz) =>
      setU8 (setBits data signalingFlags bit 2 signalingCtcss) ctcssAt (nearestCtcssIndex decihertz)
  | some (.dcs code inverted) =>
      setU16Le (setBits data signalingFlags bit 2 signalingDcs) dcsAt
        (dcsToBinary code + if inverted then 512 else 0)

def powerTo : Power → ℕ
  | .min | .low => 0
  | .mid => 1
  | .high => 2
  | .max => 3

def dmrAdmitTo : Admit → ℕ
  | .always => 0
  | .channelFree | .toneFree => 1
  | .differentColorCode => 2
  | .colorCodeFree => 3

def fmAdmitTo : Admit → ℕ
  | .always => 0
  | .toneFree => 1
  | _ => 2

/-- An index that fits in a byte, `u8::try_from`. -/
def byteIndex (index : Option ℕ) : Option ℕ := index.filter fun found ↦ found < 256

def encodeFrequencies (data : List UInt8) (channel : Channel) : List UInt8 :=
  let data := setBcd8Be data rxFrequency (channel.rxHz / 10 % 2 ^ 32)
  let offset := absDiff channel.txHz channel.rxHz
  if offset ≠ 0 then
    setBits (setBcd8Be data txOffset (offset / 10 % 2 ^ 32)) modeFlags repeaterBit 2
      (if channel.rxHz < channel.txHz then 1 else 2)
  else if getBcd8Be data txOffset ≠ 0 then
    setBits (setBcd8Be data txOffset 0) modeFlags repeaterBit 2 0
  else data

def encodeFm (data : List UInt8) (fm : FmChannel) : List UInt8 :=
  let data := setBits data modeFlags modeBit 2 0
  let data := setBit data modeFlags bandwidthBit (fm.bandwidth = .wide)
  let data := writeTone data fm.rxTone rxSignalingBit rxCtcss rxDcs
  let data := writeTone data fm.txTone txSignalingBit txCtcss txDcs
  setBits data admitFlags admitBit 2 (fmAdmitTo fm.admitRule)

def encodeDmr (data : List UInt8) (dmr : DmrChannel) (catalog : Catalog) : List UInt8 :=
  let data := setBits data modeFlags modeBit 2 1
  let data := setBit data modeFlags bandwidthBit false
  let data := writeTone data none rxSignalingBit rxCtcss rxDcs
  let data := writeTone data none txSignalingBit txCtcss txDcs
  let data := setU8 data colorCodeAt (min dmr.colorCode 15)
  let data := setBit data dmrFlags timeSlotBit (dmr.timeSlot = .two)
  let data := setU32Le data contactIndex ((dmr.contact.bind catalog.contacts.indexOf).getD 0)
  let data := match byteIndex (dmr.groupList.bind catalog.groupLists.indexOf) with
    | some index => setU8 data groupListIndex index
    | none => data
  let data := setU8 data radioIdIndex
    ((byteIndex (dmr.radioId.bind catalog.radioIds.indexOf)).getD 0)
  setBits data admitFlags admitBit 2 (dmrAdmitTo dmr.admitRule)

def encodeChannel (data : List UInt8) (channel : Channel) (catalog : Catalog) : List UInt8 :=
  let data := encodeFrequencies data channel
  let data := setBits data modeFlags levelBit 2 (powerTo channel.power)
  let data := setU8 data scanListIndex noIndex
  let data := setU8 data groupListIndex noIndex
  let data := match byteIndex (channel.scanList.bind catalog.scanLists.indexOf) with
    | some index => setU8 data scanListIndex index
    | none => data
  let data := match channel.mode with
    | .fm fm => encodeFm data fm
    | .dmr dmr => encodeDmr data dmr catalog
  writeUtf16 data nameAt channel.name nameUnits

end Sdrmm.Cps.Anytone
