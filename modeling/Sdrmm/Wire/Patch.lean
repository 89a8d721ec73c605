import Mathlib.Tactic
import Sdrmm.Lib.Dfs

/-!
# Patch graphs

The patch graph of `wire/src/patch.rs` and the checks a graph passes before it is used: the nodes
and their ports (`patch/catalog.rs`, `patch/node_body.rs`), the wiring rules (`patch/wiring.rs`)
and `PatchGraph::check` with every refusal it makes.

A settings record whose own check lives elsewhere is represented by the answer of that check, and
an address by its text and by whether `valid_host_port` takes it.  A float is a rational, or
`none` where it is not finite.  The depth-first walk carries fuel; `none` is a check that did not
come to an end.
-/

namespace Sdrmm.Patch

inductive PortType
  | iq | baseband | audio | events | video | control | position | tx | array
  deriving DecidableEq, Repr

def PortType.asStr : PortType → String
  | .iq => "iq"
  | .baseband => "baseband"
  | .audio => "audio"
  | .events => "events"
  | .video => "video"
  | .control => "control"
  | .position => "position"
  | .tx => "tx"
  | .array => "array"

inductive PortDirection
  | input | output
  deriving DecidableEq, Repr

inductive PortCondition
  | always | channelHasAudio | channelHasEvents | channelHasVideo | channelNeedsPosition
  | deviceIsTxCapable
  deriving DecidableEq, Repr

inductive PortRepeat
  | once | perRxStream | perTxStream | perLane
  deriving DecidableEq, Repr

structure PortSpec where
  name : String
  portType : PortType
  direction : PortDirection
  multi : Bool
  condition : PortCondition
  repeats : PortRepeat
  deriving DecidableEq, Repr

namespace PortSpec

def new (portType : PortType) (direction : PortDirection) (multi : Bool)
    (condition : PortCondition) : PortSpec :=
  { name := portType.asStr, portType, direction, multi, condition, repeats := .once }

def named (name : String) (portType : PortType) (direction : PortDirection) (multi : Bool) :
    PortSpec :=
  { new portType direction multi .always with name }

def repeated (spec : PortSpec) (repeats : PortRepeat) : PortSpec := { spec with repeats }

end PortSpec

structure ChannelDescriptor where
  typeId : String
  hasAudio : Bool
  decoderKind : Option String
  hasVideo : Bool
  needsPosition : Bool

/-- `applies_to` with a channel behind the port, the only backing the checks ask about. -/
def PortSpec.appliesToChannel (spec : PortSpec) (channel : ChannelDescriptor) : Bool :=
  match spec.condition with
  | .always => true
  | .channelHasAudio => channel.hasAudio
  | .channelHasEvents => channel.decoderKind.isSome || channel.hasAudio
  | .channelHasVideo => channel.hasVideo
  | .channelNeedsPosition => channel.needsPosition
  | .deviceIsTxCapable => false

/-- `str::parse::<u32>`: an optional plus sign, then one or more digits, below `2 ^ 32`. -/
def parseU32 (text : List Char) : Option ℕ :=
  let digits := match text with
    | '+' :: rest => rest
    | _ => text
  if digits.isEmpty || !digits.all Char.isDigit then none
  else
    let value := digits.foldl (fun value digit ↦ value * 10 + (digit.toNat - '0'.toNat)) 0
    if value < 2 ^ 32 then some value else none

def maxStreams : ℕ := 16

def portStream (base name : String) : Option ℕ :=
  if name = base then some 0
  else do
    let suffix ← if base.toList <+: name.toList then some (name.toList.drop base.length) else none
    let n ← parseU32 suffix
    if ¬ (2 ≤ n ∧ n ≤ maxStreams) ∨ suffix ≠ (toString n).toList then none else some (n - 1)

/-! ## Nodes -/

/-- Settings with a check of their own, represented by its answer. -/
structure Settings where
  valid : Bool

structure Address where
  text : String
  hostPort : Bool

inductive PositionSource
  | phone (phone : String)
  | fixed (lat lon : Option ℚ)
  | gpsd (address : Address)
  | nmea (device : String) (baud updateIntervalMs : ℕ)

structure DmrSearchRange where
  startHz : ℕ
  endHz : ℕ
  stepHz : ℕ

structure DmrTrunkNode where
  ranges : List DmrSearchRange
  maxProbes : ℕ
  channelMap : List (ℕ × ℕ)
  controlHz : Option ℕ

inductive NetworkTransport
  | udp | tcp | rtlTcp
  deriving DecidableEq

inductive NetworkSampleFormat
  | cf32Le | ci16Le | cu8
  deriving DecidableEq

structure NetworkExportSettings where
  transport : NetworkTransport
  format : NetworkSampleFormat
  address : Address

inductive NodeBody
  | device (backend : Option String)
  | recording (recording : Option String)
  | signalGen
  | array (settings : Settings)
  | gps (source : Option PositionSource)
  | channel (channelType : String)
  | scope
  | basebandScope
  | speaker
  | map
  | signalMap (offsetHz : ℤ) (bandwidthHz : ℕ)
  | propagation (settings : Settings)
  | readout
  | decoderLog
  | dmrTrunk (settings : DmrTrunkNode)
  | spectrumMonitor (settings : Settings)
  | eventOutput (target : Settings)
  | eventFilter (settings : Settings)
  | audioFx (settings : Settings)
  | video
  | recorder
  | audioRecorder
  | basebandRecorder
  | timeMachine (settings : Settings)
  | networkExport (settings : NetworkExportSettings)
  | export
  | scanner
  | hunt (sweep : Settings)
  | satellite (settings : Settings)
  | df (params : Settings)
  | beamformer (params : Settings)
  | passiveRadar (params : Settings)
  | stitch (params : Settings)
  | spatialSpectrum (params : Settings)
  | correlator (params : Settings)
  | polarimeter (params : Settings)
  | triangulation (settings : Settings)

namespace NodeBody

def arrayIn : PortSpec := .named "array" .array .input false

def eventsOut : PortSpec := .named "events" .events .output true

def beamOut : PortSpec := .named "beam" .iq .output true

def ports : NodeBody → List PortSpec
  | .device _ => [(PortSpec.new .tx .input false .deviceIsTxCapable).repeated .perTxStream,
      (PortSpec.new .iq .output true .always).repeated .perRxStream]
  | .recording _ => [(PortSpec.new .iq .output true .always).repeated .perRxStream]
  | .signalGen => [.new .iq .output true .always]
  | .gps _ => [.new .position .output true .always]
  | .array _ => [(PortSpec.named "lane" .iq .input false).repeated .perLane,
      .named "position" .position .input false, .named "array" .array .output true]
  | .channel _ => [.new .iq .input true .always, .new .control .input false .always,
      .new .position .input false .channelNeedsPosition, .new .baseband .output true .always,
      .new .audio .output true .channelHasAudio, .new .events .output true .channelHasEvents,
      .new .video .output true .channelHasVideo]
  | .scope => [.new .iq .input false .always]
  | .basebandScope => [.new .baseband .input false .always]
  | .recorder | .timeMachine _ | .signalMap _ _ =>
      [.new .iq .input false .always, .new .position .input false .always]
  | .audioRecorder => [.new .audio .input true .always]
  | .basebandRecorder => [.new .baseband .input true .always]
  | .networkExport _ => [.new .iq .input false .always, .new .baseband .input false .always]
  | .scanner => [.new .control .output false .always]
  | .hunt _ => [.named "control" .control .output false, .named "position" .position .input false,
      .named "events" .events .output true]
  | .satellite _ => [.new .position .input false .always, .new .control .output true .always]
  | .speaker => [.new .audio .input true .always]
  | .video => [.new .video .input true .always]
  | .map => [.new .events .input true .always, .new .position .input true .always]
  | .propagation _ => [.new .events .input true .always, .new .position .input false .always]
  | .readout | .decoderLog | .export | .eventOutput _ => [.new .events .input true .always]
  | .spectrumMonitor _ => [.new .iq .input false .always, .new .events .output true .always]
  | .dmrTrunk _ => [.new .iq .input false .always, .new .events .output true .always]
  | .eventFilter _ => [.new .events .input true .always, .new .events .output true .always]
  | .audioFx _ => [.new .audio .input true .always, .new .audio .output true .always]
  | .triangulation _ => [.named "events" .events .input true,
      .named "position" .position .input false, .named "events" .events .output true]
  | .df _ => [arrayIn, eventsOut]
  | .beamformer _ => [arrayIn, .named "steer" .events .input false, beamOut]
  | .passiveRadar _ => [arrayIn, .named "tx" .position .input false,
      .named "adsb" .events .input true, eventsOut]
  | .stitch _ => [arrayIn, .named "wide" .iq .output true]
  | .spatialSpectrum _ => [arrayIn]
  | .correlator _ => [arrayIn]
  | .polarimeter _ => [arrayIn, beamOut]

def opensDevice : NodeBody → Bool
  | .device _ | .recording _ | .signalGen => true
  | _ => false

def isChannel : NodeBody → Bool
  | .channel _ => true
  | _ => false

def isArray : NodeBody → Bool
  | .array _ => true
  | _ => false

end NodeBody

structure Position where
  x : Option ℚ
  y : Option ℚ

structure Size where
  w : Option ℚ
  h : Option ℚ

structure PatchNode where
  id : String
  body : NodeBody
  position : Position
  size : Option Size
  label : Option String

structure PortRef where
  node : String
  port : String
  deriving DecidableEq, Repr

structure PatchEdge where
  fromPort : PortRef
  toPort : PortRef
  deriving DecidableEq, Repr

structure PatchGraph where
  nodes : List PatchNode
  edges : List PatchEdge

inductive PatchError
  | tooManyNodes
  | tooManyEdges
  | nodeId (id : String)
  | duplicateNode (id : String)
  | label (id : String)
  | geometry (id : String)
  | backend (id : String)
  | gps (reason : String)
  | channelType (channelType : String)
  | nodeSettings (id : String)
  | unknownNode (id : String)
  | unknownPort (port : PortRef)
  | direction (port : PortRef)
  | typeMismatch (source target : PortType)
  | duplicateEdge (port : PortRef)
  | portOccupied (port : PortRef)
  | mixedNetworkSource (id : String)
  | selfEdge (id : String)
  | cycle (id : String)
  | wire (source target : PortRef) (reason : String)
  deriving DecidableEq, Repr

/-- Refuse with `error` when `bad` holds. -/
def refuseIf (bad : Bool) (error : PatchError) : Except PatchError Unit :=
  if bad then .error error else .ok ()

/-! ## Settings -/

def maxNameLen : ℕ := 64

def recordingStemValid (stem : String) : Bool :=
  stem ≠ "" && stem.utf8ByteSize ≤ 200 && stem ≠ "." && stem ≠ ".." &&
    !stem.toList.contains '/' && !stem.toList.contains '\\' && !stem.toList.contains '\x00'

namespace DmrSearchRange

def candidates (range : DmrSearchRange) : ℕ :=
  if range.stepHz = 0 ∨ range.endHz < range.startHz then 0
  else (range.endHz - range.startHz) / range.stepHz + 1

def valid (range : DmrSearchRange) : Bool :=
  1250 ≤ range.stepHz && 0 < range.startHz && range.startHz ≤ range.endHz &&
    range.candidates ≤ 512

end DmrSearchRange

def DmrTrunkNode.valid (node : DmrTrunkNode) : Bool :=
  (node.ranges.length ≤ 8 && node.ranges.all DmrSearchRange.valid &&
    (node.ranges.map DmrSearchRange.candidates).sum ≤ 512 && node.maxProbes ≤ 8) &&
    node.channelMap.length ≤ 512 &&
    node.channelMap.all (fun (lcn, freqHz) ↦ lcn ≤ 4095 && 0 < freqHz) &&
    node.controlHz.all (0 < ·)

def NetworkExportSettings.validFormat (settings : NetworkExportSettings) : Bool :=
  settings.transport ≠ .rtlTcp || settings.format = .cu8

def validPhoneId (id : String) : Bool :=
  match id.toList with
  | 'p' :: digits => digits.length = 16 && digits.all fun digit ↦
      digit.isDigit || ('a' ≤ digit && digit ≤ 'f')
  | _ => false

/-- Whether a coordinate is finite and within `bound` of zero. -/
def within (bound : ℚ) : Option ℚ → Bool
  | some value => |value| ≤ bound
  | none => false

def validateGpsSource : PositionSource → Except PatchError Unit
  | .phone phone => refuseIf (!validPhoneId phone) (.gps "phone id is not valid")
  | .fixed lat lon =>
      refuseIf (!(within 90 lat && within 180 lon)) (.gps "a fixed position has to be on the globe")
  | .gpsd address => do
      refuseIf (address.text = "" || 256 < address.text.utf8ByteSize)
        (.gps "gpsd address is empty or too long")
      refuseIf (!address.hostPort) (.gps "gpsd address must be a host and non-zero port")
  | .nmea device baud updateIntervalMs => do
      refuseIf (device = "" || 256 < device.utf8ByteSize)
        (.gps "NMEA device is empty or too long")
      refuseIf (!(1200 ≤ baud && baud ≤ 4000000))
        (.gps "NMEA baud rate is outside 1200..=4000000")
      refuseIf (!(50 ≤ updateIntervalMs && updateIntervalMs ≤ 60000))
        (.gps "NMEA update interval is outside 50..=60000 ms")

def badExtent : Option ℚ → Bool
  | some value => value ≤ 0 || 10000 < value
  | none => true

def checkGeometry (node : PatchNode) : Except PatchError Unit :=
  let badPosition := !within 100000 node.position.x || !within 100000 node.position.y
  let badSize := node.size.any fun size ↦ badExtent size.w || badExtent size.h
  refuseIf (badPosition || badSize) (.geometry node.id)

/-! ## The graph -/

namespace PatchGraph

def node (graph : PatchGraph) (id : String) : Option PatchNode :=
  graph.nodes.find? (·.id = id)

def sourcesOf (graph : PatchGraph) (node port : String) : List String :=
  (graph.edges.filter fun edge ↦ edge.toPort.node = node ∧ edge.toPort.port = port).map
    (·.fromPort.node)

def isArrayLane (graph : PatchGraph) (edge : PatchEdge) : Bool :=
  (portStream "lane" edge.toPort.port).isSome &&
    (graph.node edge.toPort.node).any (·.body.isArray)

def laneRefusal (graph : PatchGraph) (index : ℕ) (source : NodeBody) : Option String :=
  match source with
  | .device _ | .recording _ => do
      let edge ← graph.edges[index]?
      let holder ← (graph.edges.take index).find? fun earlier ↦
        earlier.fromPort = edge.fromPort ∧ graph.isArrayLane earlier
      let label := ((graph.node holder.toPort.node).bind (·.label)).getD "an Array"
      some ("that lane is in " ++ label)
  | _ => some "an array lane takes a radio lane"

def carriesAdsb : NodeBody → Bool
  | .channel channelType => channelType = "adsb"
  | .eventFilter _ => true
  | _ => false

def wiringRefusal (graph : PatchGraph) (index : ℕ) (input : PortSpec) : Option String := do
  let edge ← graph.edges[index]?
  let source := (← graph.node edge.fromPort.node).body
  let target := (← graph.node edge.toPort.node).body
  match target, input.name with
  | .array _, "lane" => graph.laneRefusal index source
  | .beamformer _, "steer" =>
      match source with
      | .df _ => if edge.fromPort.port ≠ "events" then some "steer takes a direction finder" else none
      | _ => some "steer takes a direction finder"
  | .passiveRadar _, "adsb" => if carriesAdsb source then none else some "adsb takes ADS-B events"
  | .triangulation _, "events" =>
      match source with
      | .df _ | .hunt _ | .eventFilter _ => none
      | _ => some "triangulation takes bearings"
  | _, _ => none

def portMatches (reference : PortRef) (port : PortSpec) : Bool :=
  port.name = reference.port ||
    (port.repeats ≠ .once && (portStream port.name reference.port).isSome)

def channelPort (channels : Option (List ChannelDescriptor)) (reference : PortRef)
    (body : NodeBody) (spec : PortSpec) : Except PatchError Unit :=
  match body, channels with
  | .channel channelType, some descriptors =>
      match descriptors.find? (·.typeId = channelType) with
      | none => .error (.channelType channelType)
      | some descriptor => refuseIf (!spec.appliesToChannel descriptor) (.unknownPort reference)
  | _, _ => .ok ()

def port (graph : PatchGraph) (reference : PortRef) (direction : PortDirection)
    (channels : Option (List ChannelDescriptor)) : Except PatchError PortSpec :=
  match graph.node reference.node with
  | none => .error (.unknownNode reference.node)
  | some node =>
      match node.body.ports.find? fun port ↦ port.direction = direction && portMatches reference port
        with
      | none =>
          if node.body.ports.any (portMatches reference) then .error (.direction reference)
          else .error (.unknownPort reference)
      | some spec => do
          channelPort channels reference node.body spec
          return spec

/-- A decoder's `iq` input takes several wires only when every one of them is a radio. -/
def mixedDecoderInput (graph : PatchGraph) (edge : PatchEdge) (input : PortSpec) : Bool :=
  input.portType = .iq && (graph.node edge.toPort.node).any (·.body.isChannel) &&
    graph.edges.any (fun other ↦ other.toPort = edge.toPort && other.fromPort ≠ edge.fromPort) &&
    (graph.edges.filter (·.toPort = edge.toPort)).any fun other ↦
      (graph.node other.fromPort.node).any fun node ↦ !node.body.opensDevice

/-- The body of the loop of `check_edges`, given the ports already landed on and left. -/
def checkEdge (graph : PatchGraph) (channels : Option (List ChannelDescriptor)) (index : ℕ)
    (edge : PatchEdge) (landed left : List PortRef) : Except PatchError Unit := do
  refuseIf (edge.fromPort.node = edge.toPort.node) (.selfEdge edge.fromPort.node)
  let out ← graph.port edge.fromPort .output channels
  let input ← graph.port edge.toPort .input channels
  refuseIf (out.portType ≠ input.portType) (.typeMismatch out.portType input.portType)
  (graph.wiringRefusal index input).elim (.ok ()) fun reason ↦
    .error (.wire edge.fromPort edge.toPort reason)
  refuseIf (graph.mixedDecoderInput edge input) (.portOccupied edge.toPort)
  refuseIf (landed.contains edge.toPort && !input.multi) (.portOccupied edge.toPort)
  refuseIf (left.contains edge.fromPort && !out.multi) (.portOccupied edge.fromPort)
  refuseIf (1 < (graph.edges.filter fun other ↦
    other.fromPort = edge.fromPort ∧ other.toPort = edge.toPort).length)
    (.duplicateEdge edge.toPort)

def checkEdgesFrom (graph : PatchGraph) (channels : Option (List ChannelDescriptor)) :
    ℕ → List PatchEdge → List PortRef → List PortRef → Except PatchError Unit
  | _, [], _, _ => .ok ()
  | index, edge :: edges, landed, left => do
      graph.checkEdge channels index edge landed left
      graph.checkEdgesFrom channels (index + 1) edges (landed ++ [edge.toPort])
        (left ++ [edge.fromPort])

def checkEdges (graph : PatchGraph) (channels : Option (List ChannelDescriptor)) :
    Except PatchError Unit :=
  graph.checkEdgesFrom channels 0 graph.edges [] []

def targets (graph : PatchGraph) (node : String) : List String :=
  (graph.edges.filter (·.fromPort.node = node)).map (·.toPort.node)

def walk (graph : PatchGraph) (fuel : ℕ) (node : String) (marks : Dfs.Marks String) :
    Option (Except String (Dfs.Marks String)) :=
  Dfs.walk graph.targets fuel node marks

def checkAcyclic (graph : PatchGraph) (fuel : ℕ) : Option (Except PatchError Unit) :=
  (Dfs.visitAll (graph.walk fuel) (graph.nodes.map (·.id)) ⟨[], []⟩).map fun
    | .ok _ => .ok ()
    | .error node => .error (.cycle node)

def checkBody (graph : PatchGraph) (channels : Option (List ChannelDescriptor))
    (node : PatchNode) : Except PatchError Unit :=
  let settings (valid : Bool) := refuseIf (!valid) (.nodeSettings node.id)
  match node.body with
  | .device backend =>
      refuseIf (backend.any fun name ↦ name = "" || maxNameLen < name.utf8ByteSize)
        (.backend node.id)
  | .channel channelType =>
      refuseIf (channels.any fun descriptors ↦ !descriptors.any (·.typeId = channelType))
        (.channelType channelType)
  | .recording recording => settings (recording.all recordingStemValid)
  | .gps source => source.elim (.ok ()) validateGpsSource
  | .signalMap offsetHz bandwidthHz =>
      settings (|offsetHz| ≤ 1000000000000 && 1 ≤ bandwidthHz && bandwidthHz ≤ 100000000)
  | .networkExport network => do
      settings (network.validFormat && network.address.text ≠ "" &&
        network.address.text.utf8ByteSize ≤ 255 && network.address.hostPort)
      refuseIf (!(graph.sourcesOf node.id "iq").isEmpty &&
        !(graph.sourcesOf node.id "baseband").isEmpty) (.mixedNetworkSource node.id)
  | .dmrTrunk trunk => settings trunk.valid
  | .eventFilter checked | .audioFx checked | .spectrumMonitor checked | .propagation checked
  | .timeMachine checked | .eventOutput checked | .satellite checked | .array checked
  | .hunt checked | .triangulation checked | .df checked | .beamformer checked
  | .passiveRadar checked | .stitch checked | .spatialSpectrum checked | .correlator checked
  | .polarimeter checked => settings checked.valid
  | .signalGen | .scope | .basebandScope | .speaker | .map | .readout | .decoderLog | .video
  | .recorder | .audioRecorder | .basebandRecorder | .export | .scanner => .ok ()

def checkNodes (graph : PatchGraph) (channels : Option (List ChannelDescriptor)) :
    List PatchNode → List String → Except PatchError Unit
  | [], _ => .ok ()
  | node :: nodes, seen => do
      refuseIf (node.id = "" || 64 < node.id.utf8ByteSize) (.nodeId node.id)
      refuseIf (seen.contains node.id) (.duplicateNode node.id)
      refuseIf (node.label.any fun label ↦ label = "" || maxNameLen < label.length)
        (.label node.id)
      checkGeometry node
      graph.checkBody channels node
      graph.checkNodes channels nodes (seen ++ [node.id])

def check (graph : PatchGraph) (channels : Option (List ChannelDescriptor)) (fuel : ℕ) :
    Option (Except PatchError Unit) :=
  let early : Except PatchError Unit := do
    refuseIf (128 < graph.nodes.length) .tooManyNodes
    refuseIf (256 < graph.edges.length) .tooManyEdges
    graph.checkNodes channels graph.nodes []
    graph.checkEdges channels
  match early with
  | .error refusal => some (.error refusal)
  | .ok () => graph.checkAcyclic fuel

def validate (graph : PatchGraph) (fuel : ℕ) : Option (Except PatchError Unit) :=
  graph.check none fuel

def validateAgainst (graph : PatchGraph) (channels : List ChannelDescriptor) (fuel : ℕ) :
    Option (Except PatchError Unit) :=
  graph.check (some channels) fuel

end PatchGraph

end Sdrmm.Patch
