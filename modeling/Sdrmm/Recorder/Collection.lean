import Mathlib.Data.List.ModifyLast
import Sdrmm.Lib.Timeline

/-!
# Recordings of several lanes

The writer and the reader of `recorder/src/collection.rs` over the lanes' files, whose contents are here
the lists that were written to them.  A call of the writer and a read end in an error or, where a 64-bit
sum does not fit, in nothing; both are a `Failure`.

Samples are of any type `α` and frequencies of any type `F` that has a comparison.
-/

namespace Sdrmm.Collection

open Sdrmm.Lib

inductive SigmfError
  | malformed (message : String)
  | laneCount (expected got : ℕ)
  | laneLength

inductive Failure
  | error (error : SigmfError)
  | overflow

abbrev Result := Except Failure

theorem ok_bind {β γ : Type} (value : β) (f : β → Result γ) : ((.ok value : Result β) >>= f) = f value :=
  rfl

def checkedAdd (a b : ℕ) : Result ℕ :=
  if a + b < 2 ^ 64 then .ok (a + b) else .error .overflow

def checkedSub (a b : ℕ) : Result ℕ :=
  if b ≤ a then .ok (a - b) else .error .overflow

/-! ## The files of a lane -/

structure SigmfCapture (F : Type) where
  sampleStart : ℕ
  frequency : Option F
  datetime : Option String := none
  globalIndex : Option ℕ := none
  offsets : Option (List ℤ) := none

structure NoiseAnnotation where
  sampleStart : ℕ
  sampleCount : ℕ
  label : String

def noiseLabel : String := "noise"

/-- A lane's writer; when it is finalized, what it holds are the lane's files. -/
structure SigmfWriter (α F : Type) where
  data : List α := []
  captures : List (SigmfCapture F)
  annotations : List NoiseAnnotation := []
  samples : ℕ := 0

namespace SigmfWriter

variable {α F : Type}

def create (centerHz : F) (now : String) : SigmfWriter α F where
  captures := [{ sampleStart := 0, frequency := some centerHz, datetime := some now }]

def writeBlock (writer : SigmfWriter α F) (block : List α) : SigmfWriter α F :=
  { writer with data := writer.data ++ block, samples := writer.samples + block.length }

/-- The capture at the current sample, a new one if there is none yet, is changed. -/
def captureHere (writer : SigmfWriter α F) (change : SigmfCapture F → SigmfCapture F) :
    SigmfWriter α F :=
  let captures :=
    if writer.captures.getLast?.all fun capture ↦ capture.sampleStart != writer.samples then
      writer.captures ++ [{ sampleStart := writer.samples,
                            frequency := writer.captures.getLast?.bind SigmfCapture.frequency }]
    else writer.captures
  { writer with captures := captures.modifyLast change }

def pushAnnotation (writer : SigmfWriter α F) (noise : NoiseAnnotation) : SigmfWriter α F :=
  { writer with annotations := writer.annotations ++ [noise] }

end SigmfWriter

/-- A lane's files and how far they were read. -/
structure SigmfReader (α F : Type) where
  data : List α
  captures : List (SigmfCapture F)
  annotations : List NoiseAnnotation
  pos : ℕ := 0

namespace SigmfReader

variable {α F : Type}

def ofFiles (files : SigmfWriter α F) : SigmfReader α F where
  data := files.data
  captures := files.captures
  annotations := files.annotations

def totalSamples (reader : SigmfReader α F) : ℕ := reader.data.length

/-- What is read of a buffer of `n` samples. -/
def readBlock (reader : SigmfReader α F) (n : ℕ) : List α × SigmfReader α F :=
  let block := (reader.data.drop reader.pos).take n
  (block, { reader with pos := reader.pos + block.length })

end SigmfReader

/-! ## The writer -/

structure CollectionWriter (α F : Type) where
  lanes : List (SigmfWriter α F)
  samples : ℕ := 0
  missing : ℕ := 0

namespace CollectionWriter

variable {α F : Type}

def create (centers : List F) (now : String) : CollectionWriter α F where
  lanes := centers.map fun center ↦ .create center now

def checkLanes (writer : CollectionWriter α F) (got : ℕ) : Result Unit :=
  if got = writer.lanes.length then .ok ()
  else .error (.error (.laneCount writer.lanes.length got))

def write (writer : CollectionWriter α F) (blocks : List (List α)) :
    Result (CollectionWriter α F) := do
  writer.checkLanes blocks.length
  let length := (blocks.head?.map List.length).getD 0
  if blocks.any fun block ↦ block.length != length then throw (.error .laneLength)
  else
    let samples ← checkedAdd writer.samples length
    return { writer with
      lanes := List.zipWith SigmfWriter.writeBlock writer.lanes blocks
      samples := samples }

def gap (writer : CollectionWriter α F) (missing : ℕ) : Result (CollectionWriter α F) :=
  if missing = 0 then .ok writer
  else do
    let missing ← checkedAdd writer.missing missing
    let global ← checkedAdd writer.samples missing
    return { writer with
      lanes := writer.lanes.map fun lane ↦
        lane.captureHere fun capture ↦ { capture with globalIndex := some global }
      missing := missing }

def globalIndex (writer : CollectionWriter α F) : Result (Option ℕ) :=
  if 0 < writer.missing then (checkedAdd writer.samples writer.missing).map some else .ok none

def retuned (writer : CollectionWriter α F) (centers : List F) (at₀ : String) :
    Result (CollectionWriter α F) := do
  writer.checkLanes centers.length
  let global ← writer.globalIndex
  return { writer with
    lanes := List.zipWith (fun lane center ↦ lane.captureHere fun capture ↦
      { capture with frequency := some center, datetime := some at₀, globalIndex := global })
      writer.lanes centers }

def offsets (writer : CollectionWriter α F) (offsets : List ℤ) : Result (CollectionWriter α F) := do
  writer.checkLanes offsets.length
  let global ← writer.globalIndex
  return { writer with
    lanes := writer.lanes.map fun lane ↦ lane.captureHere fun capture ↦
      { capture with offsets := some offsets, globalIndex := capture.globalIndex.or global } }

def noise (writer : CollectionWriter α F) (start count : ℕ) : CollectionWriter α F :=
  { writer with lanes := writer.lanes.map fun lane ↦ lane.pushAnnotation ⟨start, count, noiseLabel⟩ }

/-- The files of the lanes, under the names that the collection lists. -/
def finalize (writer : CollectionWriter α F) : List (SigmfWriter α F) := writer.lanes

end CollectionWriter

inductive Call (α F : Type)
  | write (blocks : List (List α))
  | gap (missing : ℕ)
  | retuned (centers : List F) (at₀ : String)
  | offsets (offsets : List ℤ)
  | noise (start count : ℕ)

namespace CollectionWriter

variable {α F : Type}

def step (writer : CollectionWriter α F) : Call α F → Result (CollectionWriter α F)
  | .write blocks => writer.write blocks
  | .gap missing => writer.gap missing
  | .retuned centers at₀ => writer.retuned centers at₀
  | .offsets offsets => writer.offsets offsets
  | .noise start count => .ok (writer.noise start count)

def run (writer : CollectionWriter α F) : List (Call α F) → Result (CollectionWriter α F)
  | [] => .ok writer
  | call :: calls => do (← writer.step call).run calls

end CollectionWriter

/-! ## The reader -/

inductive Event (F : Type)
  | gap (missing : ℕ)
  | retuned (centers : List F)
  | offsets (offsets : List ℤ)
  | noise (on : Bool)

inductive ReadChunk (F : Type)
  | samples (count : ℕ)
  | gap (missing : ℕ)
  | noise (on : Bool)
  | retuned (centers : List F)
  | offsets (offsets : List ℤ)
  | ended

namespace Event

variable {F : Type}

def rank : Event F → ℕ
  | .gap _ => 0
  | .retuned _ => 1
  | .offsets _ => 2
  | .noise false => 3
  | .noise true => 4

def intoChunk : Event F → ReadChunk F
  | .gap missing => .gap missing
  | .retuned centers => .retuned centers
  | .offsets lags => .offsets lags
  | .noise on => .noise on

/-- The order in which events are delivered. -/
def before (a b : ℕ × Event F) : Bool :=
  a.1 < b.1 || (a.1 == b.1 && a.2.rank ≤ b.2.rank)

end Event

section Events

variable {α F : Type}

def gapBefore (capture : SigmfCapture F) (expected : ℕ) : Result ℕ :=
  match capture.globalIndex with
  | some global =>
      if expected ≤ global then .ok (global - expected)
      else .error (.error (.malformed
        s!"capture at {capture.sampleStart} steps the global index backwards"))
  | none => .ok 0

def centersAt [Zero F] (lanes : List (SigmfReader α F)) (capture : ℕ) : List F :=
  lanes.map fun lane ↦ (lane.captures[capture]?.bind SigmfCapture.frequency).getD 0

variable [BEq F] [Zero F]

/-- The events of the captures behind `previous`, the first of which is the one at `index`. -/
def pairEvents (lanes : List (SigmfReader α F)) :
    ℕ → SigmfCapture F → ℕ → List (SigmfCapture F) → Result (List (ℕ × Event F))
  | _, _, _, [] => .ok []
  | index, previous, global, capture :: captures => do
      let expected ← checkedAdd global (← checkedSub capture.sampleStart previous.sampleStart)
      let missing ← gapBefore capture expected
      let global ← checkedAdd expected missing
      let more ← pairEvents lanes (index + 1) capture global captures
      return (if 0 < missing then [(capture.sampleStart, Event.gap missing)] else []) ++
        (if capture.datetime.isSome || capture.frequency != previous.frequency then
          [(capture.sampleStart, Event.retuned (centersAt lanes index))] else []) ++
        (capture.offsets.toList.map fun offsets ↦ (capture.sampleStart, Event.offsets offsets)) ++ more

def captureEvents (lanes : List (SigmfReader α F)) (captures : List (SigmfCapture F)) :
    Result (List (ℕ × Event F)) :=
  match captures with
  | [] => .ok []
  | first :: captures => do
      let more ← pairEvents lanes 1 first (first.globalIndex.getD first.sampleStart) captures
      return (first.offsets.toList.map fun offsets ↦ (first.sampleStart, Event.offsets offsets)) ++ more

def noiseEvents (annotations : List NoiseAnnotation) : List (ℕ × Event F) :=
  annotations.flatMap fun noise ↦
    if noise.label = noiseLabel then
      [(noise.sampleStart, .noise true),
        (min (noise.sampleStart + noise.sampleCount) (2 ^ 64 - 1), .noise false)]
    else []

def eventsOf (lanes : List (SigmfReader α F)) (first : SigmfReader α F) :
    Result (List (ℕ × Event F)) := do
  let events ← captureEvents lanes first.captures
  return (events ++ noiseEvents first.annotations).mergeSort Event.before

end Events

structure CollectionReader (α F : Type) where
  lanes : List (SigmfReader α F)
  centers : List F
  events : List (ℕ × Event F)
  position : ℕ := 0
  total : ℕ

namespace CollectionReader

variable {α F : Type}

/-- The number of the first lane that does not line up with lane 0. -/
def misaligned (first : SigmfReader α F) (lanes : List (SigmfReader α F)) : Option ℕ :=
  ((lanes.zipIdx.drop 1).find? fun lane ↦
    lane.1.totalSamples != first.totalSamples ||
      lane.1.captures.map SigmfCapture.sampleStart != first.captures.map SigmfCapture.sampleStart).map
    Prod.snd

def openFiles [BEq F] [Zero F] (files : List (SigmfWriter α F)) : Result (CollectionReader α F) :=
  let lanes := files.map SigmfReader.ofFiles
  match lanes.head? with
  | none => .error (.error (.malformed "a collection needs at least one stream"))
  | some first =>
      match misaligned first lanes with
      | some index => .error (.error (.malformed s!"lane {index} does not line up with lane 0"))
      | none => do
          return { lanes := lanes
                   centers := centersAt lanes 0
                   events := ← eventsOf lanes first
                   total := first.totalSamples }

/-- The lanes' next blocks of `n` samples. -/
def readLanes (lanes : List (SigmfReader α F)) (n : ℕ) :
    Result (List (List α) × List (SigmfReader α F)) :=
  let blocks := lanes.map fun lane ↦ lane.readBlock n
  match blocks.zipIdx.find? fun block ↦ block.1.1.length != n with
  | some (block, index) =>
      let early := n - block.1.length
      .error (.error (.malformed s!"lane {index} ended {early} samples early"))
  | none => .ok (blocks.map Prod.fst, blocks.map Prod.snd)

/-- The next samples, up to a position. -/
def readUntil (reader : CollectionReader α F) (out : List (List α)) (max limit : ℕ) :
    Result (ReadChunk F × List (List α) × CollectionReader α F) :=
  if limit - reader.position = 0 then .ok (.ended, out, reader)
  else do
    let n := min (limit - reader.position) max
    let (blocks, lanes) ← readLanes reader.lanes n
    return (.samples n, blocks, { reader with lanes := lanes, position := reader.position + n })

def read (reader : CollectionReader α F) (out : List (List α)) (max : ℕ) :
    Result (ReadChunk F × List (List α) × CollectionReader α F) :=
  if out.length ≠ reader.lanes.length then
    .error (.error (.laneCount reader.lanes.length out.length))
  else
    match reader.events with
    | (at₀, event) :: events =>
        if at₀ ≤ reader.position ∨ reader.total ≤ reader.position then
          .ok (event.intoChunk, out, { reader with events := events })
        else reader.readUntil out max (min at₀ reader.total)
    | [] => reader.readUntil out max reader.total

/-- All that is read until the end, with the buffers behind each read, where the reads ask for at most
`max 0`, `max 1`, … samples. -/
def playback (reader : CollectionReader α F) (out : List (List α)) (max : ℕ → ℕ) :
    ℕ → Option (List (ReadChunk F × List (List α)))
  | 0 => none
  | fuel + 1 =>
      match reader.read out (max 0) with
      | .error _ => none
      | .ok (.ended, _, _) => some []
      | .ok (chunk, out, reader) =>
          (reader.playback out (fun i ↦ max (i + 1)) fuel).map ((chunk, out) :: ·)

end CollectionReader

end Sdrmm.Collection
