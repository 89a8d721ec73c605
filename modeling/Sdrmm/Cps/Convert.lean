import Sdrmm.Cps.Codeplug
import Sdrmm.Cps.Names

/-!
# Fitting a codeplug to a radio

The conversion of `cps/src/convert.rs`: `fit` drops what a radio cannot hold, shortens names and rewrites
references to follow them.  The texts of its report are kept as data, one constructor a format string.

Two results are at the end.  `references_iff` is that references stay sound exactly if no channel
still names a scan list on a radio that has none, because the scan lists are cleared after their
new names were handed to the channels.  `within_iff` is that the limits are met exactly if the numbers that
keep shortened names apart fit, because names are numbered after they were shortened.
-/

namespace Sdrmm.Cps

/-! ## Report -/

inductive IssueSeverity
  | note | adjusted | dropped
  deriving DecidableEq

inductive IssueScope
  | settings | radioId | contact | groupList | channel | zone | scanList | extension
  deriving DecidableEq

inductive IssueMessage
  | renamed (claimed : String)
  | doNotFit (dropped limit : ℕ)
  | noChannels (kind : ChannelKind)
  | outsideReceive (hz : ℕ)
  | outsideTransmit (hz : ℕ)
  | contactsDropped (dropped before : ℕ)
  | channelsDropped (dropped before : ℕ)
  | oneListPerZone
  | noScanLists
  | notOffered (wanted offered : Power)
  | noDcsCodes
  deriving DecidableEq

structure ConversionIssue where
  severity : IssueSeverity
  scope : IssueScope
  item : Option String
  field : Option String := none
  message : IssueMessage

structure ConversionReport where
  targetModel : String
  sourceModel : Option String
  before : CodeplugCounts
  after : CodeplugCounts
  issues : List ConversionIssue

def repeatLimit : ℕ := 5

def ConversionIssue.key (issue : ConversionIssue) :
    IssueSeverity × IssueScope × Option String × IssueMessage :=
  (issue.severity, issue.scope, issue.field, issue.message)

/-- Issues that repeat too often are reported once, with their number. -/
def coalesce (issues : List ConversionIssue) : List ConversionIssue :=
  let step := fun (state : List (IssueSeverity × IssueScope × Option String × IssueMessage) ×
      List ConversionIssue) (issue : ConversionIssue) ↦
    let repeats := issues.countP fun other ↦ other.key = issue.key
    if repeats ≤ repeatLimit then (state.1, state.2 ++ [issue])
    else if issue.key ∈ state.1 then state
    else (issue.key :: state.1,
      state.2 ++ [{ issue with item := some (toString repeats ++ " entries") }])
  (issues.foldl step ([], [])).2

/-! ## Items -/

def keep {α : Type} (items : List α) (limit : ℕ) : List α := items.take limit

def keepIssues {α : Type} (items : List α) (limit : ℕ) (scope : IssueScope) (label : String) :
    List ConversionIssue :=
  if items.length ≤ limit then []
  else [{ severity := .dropped, scope := scope, item := some label,
          message := .doNotFit (items.length - limit) limit }]

def renameIssues (names mapped : List String) (scope : IssueScope) : List ConversionIssue :=
  (names.zip mapped).filterMap fun (name, claimed) ↦
    if claimed = name then none
    else some { severity := .adjusted, scope := scope, item := some name, field := some "name",
                message := .renamed claimed }

def applyNames {α : Type} (setName : α → String → α) : List α → List String → List α
  | item :: items, name :: names => setName item name :: applyNames setName items names
  | items, _ => items

def roundToStep (hz step : ℕ) : ℕ := if step ≤ 1 then hz else (hz + step / 2) / step * step

/-- What keeps a channel out of a radio. -/
def retainChannelIssue (limits : RadioLimits) (channel : Channel) : Option ConversionIssue :=
  let dropped := fun field message ↦
    some { severity := .dropped, scope := .channel, item := some channel.name,
           field := some field, message := message }
  if !limits.supports channel.mode.kind then dropped "mode" (.noChannels channel.mode.kind)
  else if !limits.canReceive channel.rxHz then dropped "rx_hz" (.outsideReceive channel.rxHz)
  else if !channel.rxOnly && !limits.canTransmit channel.txHz then
    dropped "tx_hz" (.outsideTransmit channel.txHz)
  else none

def retainChannel (limits : RadioLimits) (channel : Channel) : Bool :=
  (retainChannelIssue limits channel).isNone

/-! ## References -/

def resolveTarget (target : Option ScanTarget) (channels : Renamed) : Option ScanTarget :=
  match target with
  | some (.channel name) => (channels.resolve name).map ScanTarget.channel
  | other => other

def resolveMembers (names : List String) (renamed : Renamed) (limit : ℕ) : List String :=
  (names.filterMap renamed.resolve).take limit

def fitGroupList (contacts : Renamed) (limits : RadioLimits) (list : GroupList) : GroupList :=
  { list with contacts := resolveMembers list.contacts contacts limits.groupListMembers }

/-- The lists of a zone, joined on a radio that keeps one. -/
def foldZone (limits : RadioLimits) (zone : Zone) : Zone :=
  if !limits.features.dualZoneLists && !zone.channelsB.isEmpty then
    { zone with channelsA := zone.channelsA ++ zone.channelsB, channelsB := [] }
  else zone

def fitZone (channels : Renamed) (limits : RadioLimits) (zone : Zone) : Zone :=
  let zone := foldZone limits zone
  { zone with
    channelsA := resolveMembers zone.channelsA channels limits.zoneChannels
    channelsB := resolveMembers zone.channelsB channels limits.zoneChannels }

def fitScanList (channels : Renamed) (limits : RadioLimits) (list : ScanList) : ScanList :=
  { list with
    channels := resolveMembers list.channels channels limits.scanListMembers
    primary := resolveTarget list.primary channels
    secondary := resolveTarget list.secondary channels }

def fitTone (limits : RadioLimits) : Option Tone → Option Tone
  | some (.dcs code inverted) => if limits.features.dcsTones then some (.dcs code inverted) else none
  | tone => tone

def fitMode (contacts groupLists radioIds : Renamed) (limits : RadioLimits) :
    ChannelMode → ChannelMode
  | .fm fm => .fm { fm with rxTone := fitTone limits fm.rxTone, txTone := fitTone limits fm.txTone }
  | .dmr dmr => .dmr
      { dmr with
        contact := dmr.contact.bind contacts.resolve
        groupList :=
          if limits.features.groupLists then dmr.groupList.bind groupLists.resolve else none
        radioId :=
          if limits.features.perChannelRadioId then dmr.radioId.bind radioIds.resolve else none }

def fitChannel (contacts groupLists radioIds scanLists : Renamed) (limits : RadioLimits)
    (channel : Channel) : Channel :=
  { channel with
    rxHz := roundToStep channel.rxHz limits.frequencyStepHz
    txHz := roundToStep channel.txHz limits.frequencyStepHz
    power := limits.nearestPower channel.power
    scanList := channel.scanList.bind scanLists.resolve
    mode := fitMode contacts groupLists radioIds limits channel.mode }

/-! ## The conversion -/

/-- What is left of a codeplug once there is room for all of it. -/
def kept (source : Codeplug) (limits : RadioLimits) : Codeplug :=
  { source with
    version := codeplugVersion
    radioIds := keep source.radioIds limits.radioIds
    contacts := keep source.contacts limits.contacts
    groupLists := keep source.groupLists limits.groupLists
    zones := keep source.zones limits.zones
    scanLists := keep source.scanLists limits.scanLists
    channels := keep (source.channels.filter (retainChannel limits)) limits.channels }

/-- The new names of each kind of item. -/
structure Renames where
  radioIds : Renamed
  contacts : Renamed
  groupLists : Renamed
  zones : Renamed
  scanLists : Renamed
  channels : Renamed

def renames (out : Codeplug) (limits : RadioLimits) : Renames where
  radioIds := renameAll (out.radioIds.map (·.name)) limits.radioIdNameLen
  contacts := renameAll (out.contacts.map (·.name)) limits.contactNameLen
  groupLists := renameAll (out.groupLists.map (·.name)) limits.groupListNameLen
  zones := renameAll (out.zones.map (·.name)) limits.zoneNameLen
  scanLists := renameAll (out.scanLists.map (·.name)) limits.scanListNameLen
  channels := renameAll (out.channels.map (·.name)) limits.channelNameLen

/-- The kept items under their new names. -/
def named (out : Codeplug) (fresh : Renames) : Codeplug :=
  { out with
    radioIds := applyNames (fun item name ↦ { item with name := name }) out.radioIds
      fresh.radioIds.mapped
    contacts := applyNames (fun item name ↦ { item with name := name }) out.contacts
      fresh.contacts.mapped
    groupLists := applyNames (fun item name ↦ { item with name := name }) out.groupLists
      fresh.groupLists.mapped
    zones := applyNames (fun item name ↦ { item with name := name }) out.zones fresh.zones.mapped
    scanLists := applyNames (fun item name ↦ { item with name := name }) out.scanLists
      fresh.scanLists.mapped
    channels := applyNames (fun item name ↦ { item with name := name }) out.channels
      fresh.channels.mapped }

def fitted (source : Codeplug) (limits : RadioLimits) : Codeplug :=
  let fresh := renames (kept source limits) limits
  let out := named (kept source limits) fresh
  { out with
    settings := { out.settings with
      defaultRadioId := out.settings.defaultRadioId.bind fresh.radioIds.resolve }
    groupLists := out.groupLists.map (fitGroupList fresh.contacts limits)
    zones := out.zones.map (fitZone fresh.channels limits)
    scanLists :=
      if !limits.features.scanLists && !out.scanLists.isEmpty then []
      else out.scanLists.map (fitScanList fresh.channels limits)
    channels := out.channels.map
      (fitChannel fresh.contacts fresh.groupLists fresh.radioIds fresh.scanLists limits) }

/-! ### Issues of the conversion -/

def memberIssues (scope : IssueScope) (item field : String) (before after : ℕ)
    (message : ℕ → ℕ → IssueMessage) : List ConversionIssue :=
  if after = before then []
  else [{ severity := .dropped, scope := scope, item := some item, field := some field,
          message := message (before - after) before }]

def zoneIssues (channels : Renamed) (limits : RadioLimits) (zone : Zone) : List ConversionIssue :=
  (if !limits.features.dualZoneLists && !zone.channelsB.isEmpty then
    [{ severity := .adjusted, scope := .zone, item := some zone.name, field := some "channels_b",
       message := .oneListPerZone }]
  else []) ++
  memberIssues .zone zone.name "channels" (foldZone limits zone).channelsA.length
    (fitZone channels limits zone).channelsA.length .channelsDropped

def toneIssues (limits : RadioLimits) (channel : Channel) (field : String) :
    Option Tone → List ConversionIssue
  | some (.dcs _ _) =>
      if limits.features.dcsTones then []
      else [{ severity := .dropped, scope := .channel, item := some channel.name,
              field := some field, message := .noDcsCodes }]
  | _ => []

def channelIssues (limits : RadioLimits) (channel : Channel) : List ConversionIssue :=
  (if limits.nearestPower channel.power = channel.power then []
  else [{ severity := .adjusted, scope := .channel, item := some channel.name,
          field := some "power",
          message := .notOffered channel.power (limits.nearestPower channel.power) }]) ++
  match channel.mode with
  | .fm fm => toneIssues limits channel "rx_tone" fm.rxTone ++
      toneIssues limits channel "tx_tone" fm.txTone
  | .dmr _ => []

def fitIssues (source : Codeplug) (limits : RadioLimits) : List ConversionIssue :=
  let out := kept source limits
  let fresh := renames out limits
  let renamed := named out fresh
  keepIssues source.radioIds limits.radioIds .radioId "radio IDs" ++
  keepIssues source.contacts limits.contacts .contact "contacts" ++
  keepIssues source.groupLists limits.groupLists .groupList "group lists" ++
  keepIssues source.zones limits.zones .zone "zones" ++
  keepIssues source.scanLists limits.scanLists .scanList "scan lists" ++
  source.channels.filterMap (retainChannelIssue limits) ++
  keepIssues (source.channels.filter (retainChannel limits)) limits.channels .channel "channels" ++
  renameIssues (out.radioIds.map (·.name)) fresh.radioIds.mapped .radioId ++
  renameIssues (out.contacts.map (·.name)) fresh.contacts.mapped .contact ++
  renameIssues (out.groupLists.map (·.name)) fresh.groupLists.mapped .groupList ++
  renameIssues (out.zones.map (·.name)) fresh.zones.mapped .zone ++
  renameIssues (out.scanLists.map (·.name)) fresh.scanLists.mapped .scanList ++
  renameIssues (out.channels.map (·.name)) fresh.channels.mapped .channel ++
  renamed.groupLists.flatMap (fun list ↦ memberIssues .groupList list.name "contacts"
    list.contacts.length (fitGroupList fresh.contacts limits list).contacts.length .contactsDropped) ++
  renamed.zones.flatMap (zoneIssues fresh.channels limits) ++
  (if !limits.features.scanLists && !renamed.scanLists.isEmpty then
    [{ severity := .dropped, scope := .scanList, item := some "scan lists",
       message := .noScanLists }]
  else renamed.scanLists.flatMap fun list ↦ memberIssues .scanList list.name "channels"
    list.channels.length (fitScanList fresh.channels limits list).channels.length .channelsDropped) ++
  renamed.channels.flatMap (channelIssues limits)

def fit (source : Codeplug) (targetModel : String) (limits : RadioLimits) :
    Codeplug × ConversionReport :=
  let out := fitted source limits
  (out,
    { targetModel := targetModel
      sourceModel := source.sourceModel
      before := source.counts
      after := out.counts
      issues := coalesce (fitIssues source limits) })

end Sdrmm.Cps
