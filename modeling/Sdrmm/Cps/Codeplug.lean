import Mathlib.Tactic

/-!
# Codeplugs and radio limits

The data model of `wire/src/cps`: what a codeplug holds and what a radio can take of it.  Items refer to
each other by name.  The free-form `extensions` and the parts of `meta` that only describe a file are
left out.
-/

namespace Sdrmm.Cps

inductive Power
  | min | low | mid | high | max
  deriving DecidableEq, Inhabited

namespace Power

def rank : Power → ℕ
  | min => 0
  | low => 1
  | mid => 2
  | high => 3
  | max => 4

end Power

inductive Bandwidth
  | narrow | wide
  deriving DecidableEq

inductive TimeSlot
  | one | two
  deriving DecidableEq

inductive Tone
  | ctcss (decihertz : ℕ)
  | dcs (code : ℕ) (inverted : Bool)
  deriving DecidableEq

inductive Admit
  | always | channelFree | colorCodeFree | differentColorCode | toneFree
  deriving DecidableEq

inductive ChannelKind
  | fm | dmr
  deriving DecidableEq

structure FmChannel where
  bandwidth : Bandwidth := .narrow
  rxTone : Option Tone := none
  txTone : Option Tone := none
  squelch : Option ℕ := none
  admitRule : Admit := .always
  deriving DecidableEq

structure DmrChannel where
  colorCode : ℕ := 0
  timeSlot : TimeSlot := .one
  contact : Option String := none
  groupList : Option String := none
  radioId : Option String := none
  admitRule : Admit := .always
  deriving DecidableEq

inductive ChannelMode
  | fm (channel : FmChannel)
  | dmr (channel : DmrChannel)
  deriving DecidableEq

def ChannelMode.kind : ChannelMode → ChannelKind
  | fm _ => .fm
  | dmr _ => .dmr

structure Channel where
  name : String
  rxHz : ℕ
  txHz : ℕ
  power : Power := .mid
  rxOnly : Bool := false
  timeoutS : Option ℕ := none
  scanList : Option String := none
  mode : ChannelMode := .fm {}
  deriving DecidableEq

inductive ContactKind
  | privateCall | group | all
  deriving DecidableEq

structure Contact where
  name : String
  kind : ContactKind := .group
  number : ℕ
  ring : Bool := false
  deriving DecidableEq

structure GroupList where
  name : String
  contacts : List String := []
  deriving DecidableEq

structure Zone where
  name : String
  channelsA : List String := []
  channelsB : List String := []
  deriving DecidableEq

inductive ScanTarget
  | selected
  | channel (name : String)
  deriving DecidableEq

inductive ScanRevert
  | selected | lastCalled | lastUsed | primary | secondary
  deriving DecidableEq

structure ScanList where
  name : String
  channels : List String := []
  primary : Option ScanTarget := none
  secondary : Option ScanTarget := none
  revert : ScanRevert := .selected
  dwellMs : Option ℕ := none
  hangMs : Option ℕ := none
  deriving DecidableEq

structure RadioId where
  name : String
  number : ℕ
  deriving DecidableEq

structure GeneralSettings where
  radioName : Option String := none
  defaultRadioId : Option String := none
  introLine1 : Option String := none
  introLine2 : Option String := none
  squelch : Option ℕ := none
  vox : Option ℕ := none
  micGain : Option ℕ := none

def codeplugVersion : ℕ := 1

structure Codeplug where
  version : ℕ := codeplugVersion
  sourceModel : Option String := none
  settings : GeneralSettings := {}
  radioIds : List RadioId := []
  contacts : List Contact := []
  groupLists : List GroupList := []
  channels : List Channel := []
  zones : List Zone := []
  scanLists : List ScanList := []

structure CodeplugCounts where
  channels : ℕ
  contacts : ℕ
  groupLists : ℕ
  zones : ℕ
  scanLists : ℕ
  radioIds : ℕ

def Codeplug.counts (codeplug : Codeplug) : CodeplugCounts where
  channels := codeplug.channels.length
  contacts := codeplug.contacts.length
  groupLists := codeplug.groupLists.length
  zones := codeplug.zones.length
  scanLists := codeplug.scanLists.length
  radioIds := codeplug.radioIds.length

/-! ## Limits -/

structure FrequencyRange where
  lowerHz : ℕ
  upperHz : ℕ

def FrequencyRange.contains (range : FrequencyRange) (hz : ℕ) : Bool :=
  range.lowerHz ≤ hz ∧ hz ≤ range.upperHz

structure RadioFeatures where
  dualZoneLists : Bool
  perChannelRadioId : Bool
  scanLists : Bool
  groupLists : Bool
  dcsTones : Bool

structure RadioLimits where
  channels : ℕ
  contacts : ℕ
  groupLists : ℕ
  groupListMembers : ℕ
  zones : ℕ
  zoneChannels : ℕ
  scanLists : ℕ
  scanListMembers : ℕ
  radioIds : ℕ
  channelNameLen : ℕ
  contactNameLen : ℕ
  groupListNameLen : ℕ
  zoneNameLen : ℕ
  scanListNameLen : ℕ
  radioIdNameLen : ℕ
  rxRanges : List FrequencyRange
  txRanges : List FrequencyRange
  powers : List Power
  modes : List ChannelKind
  frequencyStepHz : ℕ
  features : RadioFeatures

def absDiff (a b : ℕ) : ℕ := a - b + (b - a)

namespace RadioLimits

def canReceive (limits : RadioLimits) (hz : ℕ) : Bool :=
  limits.rxRanges.any fun range ↦ range.contains hz

def canTransmit (limits : RadioLimits) (hz : ℕ) : Bool :=
  limits.txRanges.any fun range ↦ range.contains hz

def supports (limits : RadioLimits) (kind : ChannelKind) : Bool := limits.modes.contains kind

/-- The first of the offered powers nearest to the wanted one. -/
def nearestPower (limits : RadioLimits) (wanted : Power) : Power :=
  let distance := fun power : Power ↦ absDiff power.rank wanted.rank
  (limits.powers.foldl (fun best power ↦
    match best with
    | some found => some (if distance power < distance found then power else found)
    | none => some power) none).getD wanted

end RadioLimits

end Sdrmm.Cps
