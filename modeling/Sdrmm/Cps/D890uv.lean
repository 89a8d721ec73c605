import Sdrmm.Cps.AnytoneChannel
import Sdrmm.Cps.Convert
import Sdrmm.Cps.Image

/-!
# The D890UV

The codeplug of an image and the image of a codeplug, after `cps/src/anytone/d890uv.rs`.  Each kind of
item has a table of slots in the image.  The name of the primary radio ID that is kept among the
free-form extensions is left out.
-/

namespace Sdrmm.Cps.Anytone

def modelId : String := "anytone-d890uv"

def channelBanks : ℕ := 0x01000000
def betweenChannelBanks : ℕ := 0x00080000
def channelsPerBank : ℕ := 128
def numChannels : ℕ := 4096

def zoneChannels : ℕ := 0x02000000
def betweenZones : ℕ := 0x200
def zoneNames : ℕ := 0x03600000
def betweenZoneNames : ℕ := 0x40
def numZones : ℕ := 250
def channelsPerZone : ℕ := 250

def scanLists : ℕ := 0x02100000
def betweenScanLists : ℕ := 0x200
def numScanLists : ℕ := 250
def scanListMembers : ℕ := 100
@[simp] def scanMembersAt : ℕ := 0x30
@[simp] def scanNameAt : ℕ := 0x0e
@[simp] def scanRevertAt : ℕ := 0xf8

def radioIds : ℕ := 0x03680000
def radioIdSize : ℕ := 0x40
def numRadioIds : ℕ := 250
def primaryRadioId : ℕ := 0x03684000

def groupLists : ℕ := 0x03780000
def betweenGroupLists : ℕ := 0x200
def numGroupLists : ℕ := 250
def groupListMembers : ℕ := 64
@[simp] def groupNameAt : ℕ := 0x100

def contactTable : ℕ := 0x03a00000
def contactSize : ℕ := 0xc8
def numContacts : ℕ := 10000

def noIndex16 : ℕ := 0xffff
def highestId : ℕ := 0x00ffffff
def erased : UInt8 := 0xff

def channelAddress (index : ℕ) : ℕ :=
  channelBanks + index / channelsPerBank * betweenChannelBanks +
    index % channelsPerBank * channelSize

def radioIdAddress (index : ℕ) : ℕ := radioIds + index * radioIdSize
def contactAddress (index : ℕ) : ℕ := contactTable + index * contactSize
def groupListAddress (index : ℕ) : ℕ := groupLists + index * betweenGroupLists
def zoneNameAddress (index : ℕ) : ℕ := zoneNames + index * betweenZoneNames
def zoneChannelAddress (index : ℕ) : ℕ := zoneChannels + index * betweenZones
def scanListAddress (index : ℕ) : ℕ := scanLists + index * betweenScanLists

def limits : RadioLimits where
  channels := numChannels
  contacts := numContacts
  groupLists := numGroupLists
  groupListMembers := groupListMembers
  zones := numZones
  zoneChannels := channelsPerZone
  scanLists := numScanLists
  scanListMembers := scanListMembers
  radioIds := numRadioIds
  channelNameLen := nameUnits
  contactNameLen := nameUnits
  groupListNameLen := nameUnits
  zoneNameLen := nameUnits
  scanListNameLen := nameUnits
  radioIdNameLen := nameUnits
  rxRanges := [⟨136000000, 174000000⟩, ⟨400000000, 480000000⟩]
  txRanges := [⟨136000000, 174000000⟩, ⟨400000000, 480000000⟩]
  powers := [.low, .mid, .high, .max]
  modes := [.fm, .dmr]
  frequencyStepHz := 10
  features :=
    { dualZoneLists := false
      perChannelRadioId := true
      scanLists := true
      groupLists := true
      dcsTones := true }

/-! ## Tables -/

/-- What a table loop does at a slot: `break`, `continue`, or push an item. -/
inductive SlotStep (α : Type)
  | stop
  | skip
  | push (names : UniqueNames) (item : α)

/-- The items that a loop over the slots of a table pushes, each with the slot it comes from. -/
def slotLoop {α : Type} (step : UniqueNames → ℕ → SlotStep α) :
    UniqueNames → ℕ → ℕ → UniqueNames × List (ℕ × α)
  | names, _, 0 => (names, [])
  | names, index, left + 1 =>
      match step names index with
      | .stop => (names, [])
      | .skip => slotLoop step names (index + 1) left
      | .push claimed item =>
          let rest := slotLoop step claimed (index + 1) left
          (rest.1, (index, item) :: rest.2)

/-- The stored indices of a record, without the unused ones. -/
def members (data : List UInt8) (offset stride count : ℕ) : List ℕ :=
  ((List.range count).map fun member ↦ getU16Le data (offset + member * stride)).filter
    (· != noIndex16)

/-! ## Decoding -/

/-- The number and the name of a record of the radio IDs. -/
def radioIdRecord (data : List UInt8) : Option RadioId :=
  if isErased data then none
  else
    let number := getBcd8Be data 0
    let name := readUtf16 data 0x04 nameUnits
    if number = 0 ∨ highestId < number ∨ name.isEmpty then none else some ⟨name, number⟩

def radioIdStep (image : Image) (names : UniqueNames) (index : ℕ) : SlotStep RadioId :=
  match image.get (radioIdAddress index) radioIdSize with
  | none => .stop
  | some data =>
      match radioIdRecord data with
      | none => .skip
      | some id =>
          let claimed := names.claim id.name "Radio ID"
          .push claimed.1 { id with name := claimed.2 }

def radioIdSlots (image : Image) : UniqueNames × List (ℕ × RadioId) :=
  slotLoop (radioIdStep image) .new 0 numRadioIds

/-- The primary radio ID is added if no other one has its number, and becomes the default. -/
def decodePrimary (image : Image) (names : UniqueNames) (ids : List RadioId) :
    List RadioId × Option String :=
  match image.get primaryRadioId radioIdSize with
  | none => (ids, none)
  | some data =>
      let number := getBcd8Be data 0
      if number = 0 ∨ highestId < number then (ids, none)
      else
        let ids :=
          if ids.any (fun id ↦ id.number = number) then ids
          else ids ++ [⟨(names.claim (readUtf16 data 0x04 nameUnits) "Radio ID").2, number⟩]
        (ids, (ids.find? fun id ↦ id.number = number).map (·.name))

def decodeRadioIds (image : Image) (codeplug : Codeplug) : Codeplug :=
  let slots := radioIdSlots image
  let decoded := decodePrimary image slots.1 (codeplug.radioIds ++ slots.2.map Prod.snd)
  { codeplug with
    radioIds := decoded.1
    settings := { codeplug.settings with defaultRadioId := decoded.2 } }

def contactKind : ℕ → ContactKind
  | 1 => .group
  | 2 => .all
  | _ => .privateCall

def contactRecord (data : List UInt8) : Option Contact :=
  if isErased data then none
  else
    let number := getBcd8Be data 0x02
    let name := readUtf16 data 0x06 nameUnits
    if 2 < getU8 data 0 ∨ number = 0 ∨ highestId < number ∨ name.isEmpty then none
    else some ⟨name, contactKind (getU8 data 0), number, getU8 data 0x01 == 2⟩

def contactStep (image : Image) (names : UniqueNames) (index : ℕ) : SlotStep Contact :=
  match image.get (contactAddress index) contactSize with
  | none => .stop
  | some data =>
      match contactRecord data with
      | none => .skip
      | some contact =>
          let claimed := names.claim contact.name "Contact"
          .push claimed.1 { contact with name := claimed.2 }

def contactSlots (image : Image) : List (ℕ × Contact) :=
  (slotLoop (contactStep image) .new 0 numContacts).2

def decodeContacts (image : Image) (codeplug : Codeplug) : Codeplug :=
  { codeplug with contacts := codeplug.contacts ++ (contactSlots image).map Prod.snd }

def groupListName (data : List UInt8) : String :=
  String.ofList (trim (fromUtf16Lossy (readUnits data groupNameAt 4 nameUnits)))

def groupMembers (data : List UInt8) : List ℕ := members data 0 4 groupListMembers

def groupListStep (image : Image) (catalog : Catalog) (names : UniqueNames) (index : ℕ) :
    SlotStep GroupList :=
  match image.get (groupListAddress index) betweenGroupLists with
  | none => .stop
  | some data =>
      if isErased data || (groupListName data).isEmpty then .skip
      else
        let claimed := names.claim (groupListName data) "Group list"
        .push claimed.1 ⟨claimed.2, (groupMembers data).filterMap catalog.contacts.nameAt⟩

def groupListSlots (image : Image) (catalog : Catalog) : List (ℕ × GroupList) :=
  (slotLoop (groupListStep image catalog) .new 0 numGroupLists).2

def decodeGroupLists (image : Image) (catalog : Catalog) (codeplug : Codeplug) : Codeplug :=
  { codeplug with
    groupLists := codeplug.groupLists ++ (groupListSlots image catalog).map Prod.snd }

def scanRevertFrom : ℕ → ScanRevert
  | 2 | 6 => .primary
  | 3 | 7 => .secondary
  | 4 => .lastCalled
  | 5 => .lastUsed
  | _ => .selected

/-- Whether a record of the scan lists is in use. -/
def scanListUsed (data : List UInt8) : Bool :=
  !(isErased data || (readUtf16 data scanNameAt nameUnits).isEmpty)

def scanListStep (image : Image) (names : UniqueNames) (index : ℕ) : SlotStep ScanList :=
  match image.get (scanListAddress index) betweenScanLists with
  | none => .stop
  | some data =>
      if !scanListUsed data then .skip
      else
        let claimed := names.claim (readUtf16 data scanNameAt nameUnits) "Scan list"
        .push claimed.1
          { name := claimed.2
            revert := scanRevertFrom (getU8 data scanRevertAt)
            dwellMs := some (getU16Le data 0x0c * 100)
            hangMs := some (getU16Le data 0x0a * 100) }

def decodeScanListNames (image : Image) (codeplug : Codeplug) : Codeplug :=
  { codeplug with
    scanLists := codeplug.scanLists ++
      (slotLoop (scanListStep image) .new 0 numScanLists).2.map Prod.snd }

def channelStep (image : Image) (catalog : Catalog) (names : UniqueNames) (index : ℕ) :
    SlotStep Channel :=
  match image.get (channelAddress index) channelSize with
  | none => .skip
  | some data =>
      match decodeChannel data catalog names with
      | none => .skip
      | some decoded => .push decoded.1 decoded.2

def channelSlots (image : Image) (catalog : Catalog) : List (ℕ × Channel) :=
  (slotLoop (channelStep image catalog) .new 0 numChannels).2

def decodeChannels (image : Image) (catalog : Catalog) (codeplug : Codeplug) : Codeplug :=
  { codeplug with channels := codeplug.channels ++ (channelSlots image catalog).map Prod.snd }

/-- The stored channels of a zone, none if the image does not hold them. -/
def zoneMembers (image : Image) (index : ℕ) : List ℕ :=
  match image.get (zoneChannelAddress index) betweenZones with
  | none => []
  | some data => members data 0 2 channelsPerZone

def zoneStep (image : Image) (catalog : Catalog) (names : UniqueNames) (index : ℕ) :
    SlotStep Zone :=
  match image.get (zoneNameAddress index) betweenZoneNames with
  | none => .stop
  | some data =>
      let name := readUtf16 data 0 nameUnits
      if name.isEmpty then .skip
      else
        let claimed := names.claim name "Zone"
        .push claimed.1 ⟨claimed.2, (zoneMembers image index).filterMap catalog.channels.nameAt, []⟩

def zoneSlots (image : Image) (catalog : Catalog) : List (ℕ × Zone) :=
  (slotLoop (zoneStep image catalog) .new 0 numZones).2

def decodeZones (image : Image) (catalog : Catalog) (codeplug : Codeplug) : Codeplug :=
  { codeplug with zones := codeplug.zones ++ (zoneSlots image catalog).map Prod.snd }

def scanTarget (raw : ℕ) (catalog : Catalog) : Option ScanTarget :=
  if raw = noIndex16 then none
  else if raw = 0 then some .selected
  else (catalog.channels.nameAt (raw - 1)).map ScanTarget.channel

def linkScanList (data : List UInt8) (catalog : Catalog) (list : ScanList) : ScanList :=
  let priority := getU8 data 0x01
  { list with
    channels := (members data scanMembersAt 2 scanListMembers).filterMap catalog.channels.nameAt
    primary :=
      if priority = 1 ∨ priority = 3 then scanTarget (getU16Le data 0x02) catalog else none
    secondary :=
      if priority = 2 ∨ priority = 3 then scanTarget (getU16Le data 0x04) catalog else none }

/-- The used slots once more, each for the next of the lists that were read from them. -/
def linkLoop (image : Image) (catalog : Catalog) : List ScanList → ℕ → ℕ → List ScanList
  | lists, _, 0 => lists
  | [], _, _ + 1 => []
  | list :: lists, index, left + 1 =>
      match image.get (scanListAddress index) betweenScanLists with
      | none => list :: lists
      | some data =>
          if !scanListUsed data then linkLoop image catalog (list :: lists) (index + 1) left
          else linkScanList data catalog list :: linkLoop image catalog lists (index + 1) left

def linkScanLists (image : Image) (catalog : Catalog) (codeplug : Codeplug) : Codeplug :=
  { codeplug with scanLists := linkLoop image catalog codeplug.scanLists 0 numScanLists }

def decode (image : Image) : Codeplug :=
  let codeplug := decodeRadioIds image { sourceModel := some modelId }
  let codeplug := decodeContacts image codeplug
  let codeplug := decodeGroupLists image (Catalog.of codeplug) codeplug
  let codeplug := decodeScanListNames image codeplug
  let codeplug := decodeChannels image (Catalog.of codeplug) codeplug
  let catalog := Catalog.of codeplug
  linkScanLists image catalog (decodeZones image catalog codeplug)

end Sdrmm.Cps.Anytone
