import Mathlib.Data.ENat.Basic
import Mathlib.Data.List.Destutter
import Mathlib.Data.List.Sort
import Sdrmm.Engine.Coverage
import Sdrmm.Engine.Planning

/-!
# Placing decoders on radios

The allocator of `engine/src/placement.rs` with its model and its branch-and-bound search: every
decoder gets one of the lanes it can use, so that after each radio has settled on its centres as
many channels as possible are heard.

The budget of the source counts visited nodes and reads a clock.  Here a clock reading is an
answer of an arbitrary oracle, numbered in the order of the checks, so a theorem about every budget
is one about every moment of expiry.  `Neighbours` stands for the adjacent representable
frequencies that the source also tries; they are arbitrary functions, as nothing depends on them.
-/

namespace Sdrmm.Allocator

open Planning

structure Lane where
  deviceSet : ℕ
  stream : ℕ
  deriving DecidableEq

structure Placeable where
  node : String
  settings : ChannelSettings
  lanes : List Lane
  held : Option Lane
  pinned : Bool

structure Placement where
  node : String
  lane : Lane
  deriving DecidableEq

structure PlacementCoverage where
  heard : ℕ
  upperBound : ℕ
  deriving DecidableEq

structure Allocation where
  placements : List Placement
  coverage : PlacementCoverage

structure Radio where
  deviceSet : ℕ
  capabilities : Capabilities
  settings : DeviceSettings
  tunesFreely : Bool
  fixed : List ChannelInfo

namespace Radio

variable (radio : Radio)

def hasStream (stream : ℕ) : Bool := stream < max radio.capabilities.rxStreams 1

def settled (carried : List ChannelInfo) : DeviceSettings :=
  if radio.tunesFreely then planned radio.capabilities radio.settings carried else radio.settings

def hears (settings : DeviceSettings) (channel : ChannelInfo) : Bool :=
  Planning.hears radio.capabilities settings channel.stream channel.settings

def follows (stream : ℕ) : Bool :=
  radio.tunesFreely &&
    (radio.settings.forStream stream radio.capabilities.perStream).tunesItself

end Radio

def carriedInfo (decoder : Placeable) (stream : ℕ) : ChannelInfo := ⟨stream, decoder.settings⟩

/-- What makes one lane better than another: the radio hears the decoder as it stands, then its
tuner reaches it, then the decoder has it already, then it is listed earlier. -/
def laneKey (decoder : Placeable) (radios : List Radio) (item : Lane × ℕ) :
    Bool ×ₗ Bool ×ₗ Bool ×ₗ ℕᵒᵈ :=
  let radio := radios.find? fun radio ↦ radio.deviceSet = item.1.deviceSet
  let heard := radio.any fun radio ↦
    radio.hears radio.settings (carriedInfo decoder item.1.stream)
  let reaches := radio.any fun radio ↦
    tunerReaches radio.capabilities decoder.settings.frequencyHz
  toLex (heard, toLex (reaches, toLex (decide (decoder.held = some item.1),
    OrderDual.toDual item.2)))

def fallback (decoder : Placeable) (lanes : List Lane) (radios : List Radio) : Option Lane :=
  (Iter.maxByKey (laneKey decoder radios) lanes.zipIdx).map Prod.fst

/-- The channels a radio carries under some placements: its own and the decoders placed on it. -/
def carried (decoders : List Placeable) (placements : List Placement) (radio : Radio) :
    List ChannelInfo :=
  radio.fixed ++ decoders.filterMap fun decoder ↦
    (placements.find? fun placement ↦
      placement.node = decoder.node ∧ placement.lane.deviceSet = radio.deviceSet).map
        fun placement ↦ carriedInfo decoder placement.lane.stream

/-- How many channels are heard once every radio has settled. -/
def received (decoders : List Placeable) (radios : List Radio) (placements : List Placement) : ℕ :=
  (radios.map fun radio ↦
    let channels := carried decoders placements radio
    let tuning := radio.settled channels
    (channels.filter (radio.hears tuning)).length).sum

/-! ## Lanes and bands -/

/-- The listed lanes that exist, without repetitions. -/
def presentLanes (decoder : Placeable) (radios : List Radio) : List Lane :=
  decoder.lanes.foldl (fun lanes lane ↦
    if lane ∉ lanes ∧ radios.any (fun radio ↦
      radio.deviceSet = lane.deviceSet && radio.hasStream lane.stream)
    then lanes ++ [lane] else lanes) []

def usable (decoder : Placeable) (radios : List Radio) : List Lane :=
  let lanes := presentLanes decoder radios
  match decoder.held with
  | some held => if decoder.pinned ∧ held ∈ lanes then [held] else lanes
  | none => lanes

def streamOf (radio : Radio) (lane : Lane) : ℕ :=
  if radio.capabilities.perStream.tuning then lane.stream else 0

structure Band where
  bit : ℕ
  frequency : ℚ
  low : ℚ
  high : ℚ

namespace Band

def new (bit : ℕ) (settings : ChannelSettings) : Band where
  bit := bit
  frequency := settings.frequencyHz
  low := settings.params.occupiedBand.1
  high := settings.params.occupiedBand.2

def hears (band : Band) (center rate : ℚ) : Bool :=
  reaches (band.frequency - center) band.low band.high rate

def span (band : Band) (rate : ℚ) : Option Span :=
  tuningSpan band.frequency band.low band.high rate

end Band

/-! ## The budget -/

/-- A node limit, none being `⊤`, and whether the time was up at each reading of the clock. -/
structure Limits where
  nodes : ℕ∞
  elapsed : ℕ → Bool

structure Budget where
  limits : Limits
  nodes : ℕ
  checks : ℕ

namespace Budget

def new (limits : Limits) : Budget := ⟨limits, 0, 0⟩

def expired (budget : Budget) : Bool :=
  budget.limits.nodes ≤ budget.nodes || budget.limits.elapsed budget.checks

/-- `count` checks in a row, as a loop with one check per round makes them. -/
def survive (budget : Budget) : ℕ → Option Budget
  | 0 => some budget
  | count + 1 =>
      if budget.expired then none
      else survive { budget with checks := budget.checks + 1 } count

end Budget

/-! ## The model -/

/-- Adjacent frequencies of the number format. -/
structure Neighbours where
  up : ℚ → ℚ
  down : ℚ → ℚ

structure Domain (total : ℕ) where
  radio : ℕ
  stream : ℕ
  options : List (Coverage total)

structure Model (total : ℕ) where
  lanes : List (List Lane)
  domains : List (Domain total)

/-- The centres at which a radio's set of audible bands can change, and one in between each two. -/
def windowCenters (next : Neighbours) (radio : Radio) (bands : List Band) (current rate : ℚ) :
    List ℚ :=
  let points := current :: (bands.filterMap fun band ↦ band.span rate).flatMap
    (fun (low, high) ↦ [low, high, next.up low, next.down high]) ++ rangeEdges radio.capabilities
  let reached := points.filter (tunerReaches radio.capabilities)
  let centers := (reached.insertionSort (· ≤ ·)).destutter (· ≠ ·)
  let midpoints := (centers.zip centers.tail).map fun (a, b) ↦ midpoint a b
  centers ++ midpoints.filter (tunerReaches radio.capabilities)

def coverageAt (total : ℕ) (bands : List Band) (center rate : ℚ) : Coverage total :=
  bands.foldl (fun covered band ↦
    if band.hears center rate then covered.insert band.bit else covered) (Coverage.empty total)

/-- The options that are no subset of an earlier one. -/
def maximalOptions {total : ℕ} (options : List (Coverage total)) : List (Coverage total) :=
  options.foldl (fun maximal option ↦
    if maximal.any option.subsetOf then maximal else maximal ++ [option]) []

/-- What one stream of a radio can be made to hear. -/
def options (next : Neighbours) (radio : Radio) (stream : ℕ) (bands : List Band) (total : ℕ)
    (budget : Budget) : Option (List (Coverage total) × Budget) := do
  let current := centerOf radio.settings stream radio.capabilities.perStream
  let rate := sampleRateOf radio.settings
  let follows := radio.hasStream stream && radio.follows stream
  let budget ← budget.survive (if follows then bands.length else 0)
  let centers := if follows then windowCenters next radio bands current rate else [current]
  let budget ← budget.survive centers.length
  let unique := (centers.map fun center ↦ coverageAt total bands center rate).eraseDups
  let sorted := unique.insertionSort fun a b ↦ b.count ≤ a.count
  let budget ← budget.survive sorted.length
  let maximal := maximalOptions sorted
  return (if maximal.isEmpty then [Coverage.empty total] else maximal, budget)

def totalOf (decoders : List Placeable) (radios : List Radio) : ℕ :=
  decoders.length + (radios.map fun radio ↦ radio.fixed.length).sum

/-- The streams of a radio that a decoder may use or a fixed channel sits on. -/
def streamsOf (lanes : List (List Lane)) (radio : Radio) : List ℕ :=
  let placed := (lanes.flatten.filter fun lane ↦ lane.deviceSet = radio.deviceSet).map
    (streamOf radio)
  let fixed := radio.fixed.map fun channel ↦ streamOf radio ⟨radio.deviceSet, channel.stream⟩
  ((placed ++ fixed).insertionSort (· ≤ ·)).destutter (· ≠ ·)

/-- The bands that can end up on one stream of a radio, numbered by their bits. -/
def bandsOf (decoders : List Placeable) (lanes : List (List Lane)) (radio : Radio)
    (fixedBit stream : ℕ) : List Band :=
  (decoders.zipIdx.filter fun (_, bit) ↦ (lanes.getD bit []).any fun lane ↦
    lane.deviceSet = radio.deviceSet ∧ streamOf radio lane = stream).map
      (fun (decoder, bit) ↦ Band.new bit decoder.settings) ++
  (radio.fixed.zipIdx.filter fun (channel, _) ↦
    !radio.capabilities.perStream.tuning || channel.stream = stream).map
      fun (channel, bit) ↦ Band.new (fixedBit + bit) channel.settings

section New

variable (next : Neighbours) (decoders : List Placeable) (lanes : List (List Lane)) (total : ℕ)

def domainsFor (index fixedBit : ℕ) (radio : Radio) :
    List ℕ → Budget → Option (List (Domain total) × Budget)
  | [], budget => some ([], budget)
  | stream :: streams, budget => do
      let budget ← budget.survive 1
      let (options, budget) ←
        options next radio stream (bandsOf decoders lanes radio fixedBit stream) total budget
      let (domains, budget) ← domainsFor index fixedBit radio streams budget
      return (⟨index, stream, options⟩ :: domains, budget)

def domainsOf : ℕ → ℕ → List Radio → Budget → Option (List (Domain total) × Budget)
  | _, _, [], budget => some ([], budget)
  | index, fixedBit, radio :: radios, budget => do
      let (first, budget) ←
        domainsFor next decoders lanes total index fixedBit radio (streamsOf lanes radio) budget
      let (rest, budget) ← domainsOf (index + 1) (fixedBit + radio.fixed.length) radios budget
      return (first ++ rest, budget)

end New

/-- The order in which the search branches. -/
def domainKey {total : ℕ} (radios : List Radio) (domain : Domain total) : ℕ ×ₗ ℕ ×ₗ ℕ :=
  toLex (domain.options.length,
    toLex (((radios[domain.radio]?).map (·.deviceSet)).getD 0, domain.stream))

namespace Model

def new (next : Neighbours) (decoders : List Placeable) (radios : List Radio) (budget : Budget) :
    Option (Model (totalOf decoders radios) × Budget) := do
  let lanes := decoders.map fun decoder ↦ usable decoder radios
  let (domains, budget) ←
    domainsOf next decoders lanes (totalOf decoders radios) 0 decoders.length radios budget
  return (⟨lanes, domains.insertionSort fun a b ↦ domainKey radios a ≤ domainKey radios b⟩, budget)

variable {total : ℕ} (model : Model total)

/-- Whether some chosen option lets `lane` hear channel `bit`. -/
def covers (radios : List Radio) (chosen : List ℕ) (bit : ℕ) (lane : Lane) : Bool :=
  (model.domains.zip chosen).any fun (domain, option) ↦
    (radios[domain.radio]?).any (fun radio ↦
      radio.deviceSet = lane.deviceSet ∧ streamOf radio lane = domain.stream) &&
    (domain.options[option]?).any fun coverage ↦ coverage.contains bit

/-- Members of an option that are new and have nowhere else to go. -/
def constrained (decoders : List Placeable) (covered option : Coverage total) : ℕ :=
  ((List.range total).filter fun bit ↦ option.contains bit && !covered.contains bit &&
    (decide (decoders.length ≤ bit) || (model.lanes.getD bit []).length = 1)).length

def optionKey (decoders : List Placeable) (covered : Coverage total)
    (item : Coverage total × ℕ) : ℕ ×ₗ ℕ ×ₗ ℕᵒᵈ :=
  toLex (item.1.gain covered, toLex (model.constrained decoders covered item.1,
    OrderDual.toDual item.2))

/-- Take from each domain in turn the option that adds most. -/
def greedyFrom (decoders : List Placeable) : List (Domain total) → Coverage total → List ℕ
  | [], _ => []
  | domain :: domains, covered =>
      let chosen := ((Iter.maxByKey (model.optionKey decoders covered)
        domain.options.zipIdx).map Prod.snd).getD 0
      chosen :: greedyFrom decoders domains
        (covered.union (domain.options.getD chosen (Coverage.empty total)))

def greedy (decoders : List Placeable) : List ℕ :=
  model.greedyFrom decoders model.domains (Coverage.empty total)

end Model

/-! ## The search -/

structure Search where
  best : ℕ
  chosen : Option (List ℕ)
  upperBound : ℕ
  budget : Budget
  interrupted : Bool

namespace Search

variable {total : ℕ}

/-- Everything the remaining domains could add. -/
def suffix (domains : List (Domain total)) : Coverage total :=
  domains.foldr (fun domain all ↦ domain.options.foldl Coverage.union all) (Coverage.empty total)

def bound (domains : List (Domain total)) (covered : Coverage total) : ℕ :=
  let union := (covered.union (suffix domains)).count
  let independent := covered.count + (domains.map fun domain ↦
    (domain.options.map fun option ↦ option.gain covered).foldr max 0).sum
  min union independent

def branchOrder (domain : Domain total) (covered : Coverage total) : List ℕ :=
  (List.range domain.options.length).insertionSort fun a b ↦
    let gain (index : ℕ) := (domain.options.getD index (Coverage.empty total)).gain covered
    (toLex (OrderDual.toDual (gain a), a) : ℕᵒᵈ ×ₗ ℕ) ≤ toLex (OrderDual.toDual (gain b), b)

def visit : List (Domain total) → Coverage total → List ℕ → Search → Search
  | [], covered, chosen, search =>
      if bound [] covered ≤ search.best then search
      else if search.budget.expired then { search with interrupted := true }
      else
        { search with
          best := covered.count
          chosen := some chosen
          budget := { search.budget with
            nodes := search.budget.nodes + 1, checks := search.budget.checks + 1 } }
  | domain :: domains, covered, chosen, search =>
      if bound (domain :: domains) covered ≤ search.best then search
      else if search.budget.expired then { search with interrupted := true }
      else
        (branchOrder domain covered).foldl (fun search index ↦
          if search.interrupted ∨ search.upperBound ≤ search.best then search
          else visit domains
            ((domain.options.getD index (Coverage.empty total)).union covered)
            (chosen ++ [index]) search)
          { search with
            budget := { search.budget with
              nodes := search.budget.nodes + 1, checks := search.budget.checks + 1 } }

def run (domains : List (Domain total)) (best : ℕ) (budget : Budget) : Search :=
  let root := bound domains (Coverage.empty total)
  if root < best then ⟨best, none, total, budget, false⟩
  else
    let search := visit domains (Coverage.empty total) [] ⟨best, none, root, budget, false⟩
    if search.interrupted then search else { search with upperBound := search.best }

end Search

/-! ## Allocation -/

/-- One placement per decoder, on a covered lane where the choice covers it. -/
def project {total : ℕ} (decoders : List Placeable) (radios : List Radio) (model : Model total)
    (chosen : List ℕ) : List Placement :=
  decoders.zipIdx.filterMap fun (decoder, bit) ↦
    let lanes := model.lanes.getD bit []
    let covered := lanes.filter fun lane ↦ model.covers radios chosen bit lane
    (fallback decoder (if covered.isEmpty then lanes else covered) radios).map
      fun lane ↦ ⟨decoder.node, lane⟩

/-- Every decoder on its preferred lane. -/
def fallbackPlacements (decoders : List Placeable) (radios : List Radio) : List Placement :=
  decoders.filterMap fun decoder ↦
    (fallback decoder (usable decoder radios) radios).map fun lane ↦ ⟨decoder.node, lane⟩

def coverageOf (heard upper : ℕ) : PlacementCoverage := ⟨heard, max upper heard⟩

/-- The better of two placements, the first when they are equally good. -/
def improve (decoders : List Placeable) (radios : List Radio)
    (current : List Placement × ℕ) (candidate : List Placement) : List Placement × ℕ :=
  let heard := received decoders radios candidate
  if heard > current.2 then (candidate, heard) else current

def allocate (next : Neighbours) (decoders : List Placeable) (radios : List Radio)
    (limits : Limits) : Allocation :=
  let placements := fallbackPlacements decoders radios
  let heard := received decoders radios placements
  let total := totalOf decoders radios
  if heard = total then ⟨placements, coverageOf heard heard⟩
  else
    match Model.new next decoders radios (Budget.new limits) with
    | none => ⟨placements, coverageOf heard total⟩
    | some (model, budget) =>
        let greedy := improve decoders radios (placements, heard)
          (project decoders radios model (model.greedy decoders))
        let search := Search.run model.domains greedy.2 budget
        let final := match search.chosen with
          | none => greedy
          | some chosen => improve decoders radios greedy (project decoders radios model chosen)
        let upperBound := if final.2 > search.upperBound then total else search.upperBound
        ⟨final.1, coverageOf final.2 upperBound⟩

end Sdrmm.Allocator
