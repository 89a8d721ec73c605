import Mathlib.Tactic

/-!
# Calls and their audio

The tracker of `server/src/calls/tracker.rs`: decoded voice frames, blocks of PCM and the clock open calls,
extend them and complete them.  The samples are of any type `α`; the decimator's scalar product of a window
with its taps and the conversion to 16 bits are floating point and parameters, an `Arithmetic`.  Times are
numbers of nanoseconds.

`History` is not in the code and nothing of the tracker reads it: it notes for each call when an encrypted
frame was last merged into it.
-/

namespace Sdrmm.Calls

structure Arithmetic (α : Type) where
  zero : α
  dot : List α → α
  toI16 : α → ℤ

def antialiasTaps : ℕ := 96

def decimation : ℕ := 6

def maxCallSamples : ℕ := 8000 * 600

def idleTimeout : ℕ := 900000000

def squelchHoldFrames : ℕ := 48000 * 3 / 2

inductive Gate
  | frames
  | squelch
  deriving DecidableEq

structure CallBinding where
  node : String
  deviceSet : ℕ
  channel : ℕ
  gate : Gate

structure CallKey where
  node : String
  deviceSet : ℕ
  channel : ℕ
  slot : Option ℕ
  deriving DecidableEq

def CallKey.of (binding : CallBinding) (slot : Option ℕ) : CallKey :=
  { node := binding.node, deviceSet := binding.deviceSet, channel := binding.channel, slot }

def CallKey.on (key : CallKey) (deviceSet channel : ℕ) : Bool :=
  key.deviceSet = deviceSet && key.channel = channel

inductive DvFrameKind
  | header
  | voice
  | terminator
  | control
  | data
  deriving DecidableEq

/-- What the tracker reads of a frame; it only carries the rest along. -/
structure DvFrame where
  mode : String
  kind : DvFrameKind
  slot : Option ℕ
  colorCode : Option ℕ
  source : Option ℕ
  destination : Option ℕ
  groupCall : Option Bool
  encrypted : Option Bool
  emergency : Option Bool

/-- A record that another event is derived from has an origin; `at` is its time, if it is one. -/
structure DecodedRecord (F : Type) where
  origin : Bool
  deviceSet : ℕ
  channel : ℕ
  time : Option ℤ
  freqHz : F
  dv : Option DvFrame

inductive PcmPayload (α : Type)
  | samples (samples : List α)
  | silence (frames : ℕ)

structure PcmBlock (α : Type) where
  channels : ℕ
  payload : PcmPayload α

/-- What the tracker asks of its surroundings during an event. -/
structure Surroundings (F : Type) where
  alive : Bool
  instant : ℕ
  wall : ℤ
  tuned : ℕ → ℕ → Option (String × F)

def agrees {T : Type} [DecidableEq T] : Option T → Option T → Bool
  | some current, some incoming => current = incoming
  | _, _ => true

def sameCall (current incoming : DvFrame) : Bool :=
  agrees current.slot incoming.slot && agrees current.source incoming.source &&
    agrees current.destination incoming.destination

def mergeFrame (current incoming : DvFrame) : DvFrame :=
  { current with
    slot := incoming.slot <|> current.slot
    colorCode := incoming.colorCode <|> current.colorCode
    source := incoming.source <|> current.source
    destination := incoming.destination <|> current.destination
    groupCall := incoming.groupCall <|> current.groupCall
    encrypted := incoming.encrypted <|> current.encrypted
    emergency := incoming.emergency <|> current.emergency }

section Audio

variable {α : Type} (arith : Arithmetic α)

/-- The samples that the decimator has not done with, and the stored ones.  `fed` is history: whether a
block's samples have been taken in. -/
structure CallAudio (α : Type) where
  line : List α
  samples : List ℤ
  fed : Bool

def CallAudio.new : CallAudio α where
  line := List.replicate (antialiasTaps - 1) arith.zero
  samples := []
  fed := false

/-- How many windows of the taps' length there are, one at every `decimation` samples. -/
def windowCount (line : List α) : ℕ :=
  if line.length < antialiasTaps then 0 else (line.length - antialiasTaps) / decimation + 1

def windows (line : List α) : List (List α) :=
  (List.range (windowCount line)).map fun i ↦ (line.drop (decimation * i)).take antialiasTaps

def CallAudio.push (audio : CallAudio α) (input : List α) : CallAudio α :=
  let line := audio.line ++ input
  let scratch := (windows line).map arith.dot
  let room := maxCallSamples - audio.samples.length
  { audio with
    line := line.drop (decimation * windowCount line)
    samples := audio.samples ++ (scratch.take room).map arith.toI16 }

/-- Every so many elements, the first one first. -/
def stepBy {T : Type} (step : ℕ) (items : List T) : List T :=
  (List.range ((items.length + step - 1) / step)).flatMap fun i ↦ (items.drop (step * i)).take 1

def CallAudio.pushSamples (audio : CallAudio α) (channels : ℕ) (samples : List α) : CallAudio α :=
  let channels := max channels 1
  let audio := { audio with fed := audio.fed || !samples.isEmpty }
  if channels = 1 then audio.push arith samples else audio.push arith (stepBy channels samples)

def CallAudio.pushSilence (audio : CallAudio α) (frames : ℕ) : CallAudio α :=
  if 0 < frames then audio.push arith (List.replicate frames arith.zero) else audio

def CallAudio.pushBlock (audio : CallAudio α) (block : PcmBlock α) : CallAudio α :=
  match block.payload with
  | .samples samples => audio.pushSamples arith block.channels samples
  | .silence frames => audio.pushSilence arith frames

def CallAudio.full (audio : CallAudio α) : Bool := maxCallSamples ≤ audio.samples.length

end Audio

/-! ## Calls -/

/-- The number of the event in which a frame with `encrypted = true` was last merged into the call, and
whether samples were taken in before it by the decimator the call has now. -/
structure History where
  lastEncrypted : Option ℕ := none
  late : Bool := false

structure ActiveCall (α F : Type) where
  mode : String
  freqHz : F
  frame : Option DvFrame
  startedAt : ℤ
  heardAt : ℤ
  lastActivity : ℕ
  quietFrames : ℕ
  audio : CallAudio α
  audioError : Option String
  history : History

structure NewCall (F : Type) where
  node : String
  startedAt : ℤ
  endedAt : ℤ
  durationMs : ℕ
  deviceSet : ℕ
  channel : ℕ
  freqHz : F
  mode : String
  frame : Option DvFrame
  audioError : Option String

/-- A call that was handed on, with its audio and with its history; there is no audio of an encrypted one. -/
structure Published (F : Type) where
  call : NewCall F
  audio : Option (List ℤ)
  history : History
  dropped : call.frame.any (·.encrypted = some true) → audio = none

namespace ActiveCall

variable {α F : Type} (arith : Arithmetic α) (env : Surroundings F)

def new (mode : String) (freqHz : F) (frame : Option DvFrame) (startedAt : ℤ) : ActiveCall α F where
  mode := mode
  freqHz := freqHz
  frame := frame
  startedAt := startedAt
  heardAt := startedAt
  lastActivity := env.instant
  quietFrames := 0
  audio := CallAudio.new arith
  audioError := none
  history := {}

/-- The call that follows one that is full; what was merged into that was merged into this. -/
def continued (call : ActiveCall α F) : ActiveCall α F :=
  { new arith env call.mode call.freqHz call.frame env.wall with
    history := { lastEncrypted := call.history.lastEncrypted } }

def encrypted (call : ActiveCall α F) : Bool := call.frame.any (·.encrypted = some true)

def heard (call : ActiveCall α F) : ActiveCall α F :=
  { call with heardAt := env.wall, lastActivity := env.instant }

def intoNewCall (call : ActiveCall α F) (key : CallKey) : Published F where
  call :=
    { node := key.node
      startedAt := call.startedAt
      endedAt := call.heardAt
      durationMs := ((call.heardAt - call.startedAt).tdiv 1000000).toNat
      deviceSet := key.deviceSet
      channel := key.channel
      freqHz := call.freqHz
      mode := call.mode
      frame := call.frame
      audioError := call.audioError }
  audio := if !call.encrypted && !call.audio.samples.isEmpty then some call.audio.samples else none
  history := call.history
  dropped := fun hencrypted ↦ if_neg fun haudio ↦ by
    rw [Bool.and_eq_true, Bool.not_eq_true'] at haudio
    exact absurd (hencrypted.symm.trans haudio.1) (by decide)

/-- A frame is merged into a call that has one, and noted if it is encrypted. -/
def merge (event : ℕ) (incoming : DvFrame) (call : ActiveCall α F) : ActiveCall α F :=
  match call.frame with
  | none => call
  | some current =>
      { call with
        frame := some (mergeFrame current incoming)
        history :=
          if incoming.encrypted = some true then { lastEncrypted := some event, late := call.audio.fed }
          else call.history }

end ActiveCall

/-! ## The tracker -/

/-- `events` counts the events before this one, and is history too. -/
structure Tracker (α F : Type) where
  bindings : ℕ → ℕ → List CallBinding
  active : List (CallKey × ActiveCall α F)
  published : List (Published F)
  events : ℕ

namespace Tracker

variable {α F : Type} (arith : Arithmetic α) (env : Surroundings F)

def new : Tracker α F where
  bindings _ _ := []
  active := []
  published := []
  events := 0

def get (tracker : Tracker α F) (key : CallKey) : Option (ActiveCall α F) :=
  (tracker.active.find? (·.1 = key)).map Prod.snd

def remove (tracker : Tracker α F) (key : CallKey) : Tracker α F :=
  { tracker with active := tracker.active.filter (·.1 ≠ key) }

def insert (tracker : Tracker α F) (key : CallKey) (call : ActiveCall α F) : Tracker α F :=
  { tracker with active := (key, call) :: (tracker.remove key).active }

def finish (tracker : Tracker α F) (key : CallKey) : Tracker α F :=
  match tracker.get key with
  | none => tracker
  | some call =>
      let tracker := tracker.remove key
      if env.alive then { tracker with published := tracker.published ++ [call.intoNewCall key] }
      else tracker

def rollOver (tracker : Tracker α F) (key : CallKey) : Tracker α F :=
  match tracker.get key with
  | none => tracker
  | some call => (tracker.finish env key).insert key (call.continued arith env)

def rebind (tracker : Tracker α F) (bindings : ℕ → ℕ → List CallBinding) : Tracker α F :=
  let tracker := { tracker with bindings }
  let unbound := (tracker.active.map Prod.fst).filter fun key ↦
    !(bindings key.deviceSet key.channel).any (·.node = key.node)
  unbound.foldl (finish env) tracker

def frame (record : DecodedRecord F) (incoming : DvFrame) (tracker : Tracker α F) (key : CallKey) :
    Tracker α F :=
  let split := (tracker.get key).any fun call ↦ call.frame.any fun current ↦ !sameCall current incoming
  let tracker := if split then tracker.finish env key else tracker
  let call := (tracker.get key).getD
    (ActiveCall.new arith env incoming.mode record.freqHz (some incoming) (record.time.getD env.wall))
  let call := (call.merge tracker.events incoming).heard env
  let call :=
    if call.encrypted then { call with audio := { call.audio with samples := [] } } else call
  tracker.insert key call

/-- The keys that a frame is for. -/
def framedKeys (tracker : Tracker α F) (record : DecodedRecord F) (incoming : DvFrame) : List CallKey :=
  ((tracker.bindings record.deviceSet record.channel).filter (·.gate = .frames)).map
    (CallKey.of · incoming.slot)

/-- Whether a frame is one that is merged into a call. -/
def carriesCall (incoming : DvFrame) : Bool :=
  (incoming.kind = .header || incoming.kind = .voice) &&
    (incoming.source.isSome || incoming.destination.isSome)

def record (tracker : Tracker α F) (record : DecodedRecord F) : Tracker α F :=
  if record.origin then tracker
  else
    match record.dv with
    | none => tracker
    | some incoming =>
        (tracker.framedKeys record incoming).foldl (fun tracker key ↦
          if carriesCall incoming then tracker.frame arith env record incoming key
          else if incoming.kind = .terminator then tracker.finish env key
          else tracker) tracker

def framedPcm (tracker : Tracker α F) (deviceSet channel : ℕ) (block : PcmBlock α) : Tracker α F :=
  let heard (entry : CallKey × ActiveCall α F) : Bool := entry.1.on deviceSet channel && entry.2.frame.isSome
  let active := tracker.active.map fun entry ↦
    if !heard entry then entry
    else
      let call := { entry.2 with lastActivity := env.instant }
      if call.encrypted then (entry.1, call)
      else (entry.1, { call with audio := call.audio.pushBlock arith block })
  let full := (active.filter fun entry ↦ heard entry && !entry.2.encrypted && entry.2.audio.full).map Prod.fst
  full.foldl (rollOver arith env) { tracker with active }

def tuning (key : CallKey) : Option (String × F) :=
  if env.alive then env.tuned key.deviceSet key.channel else none

def squelchedPcm (block : PcmBlock α) (tracker : Tracker α F) (key : CallKey) : Tracker α F :=
  match block.payload with
  | .samples samples =>
      let opened := (tracker.get key).orElse fun _ ↦
        (tuning env key).map fun tuned ↦ ActiveCall.new arith env tuned.1 tuned.2 none env.wall
      match opened with
      | none => tracker
      | some call =>
          let audio := (call.audio.pushSilence arith call.quietFrames).pushSamples arith block.channels samples
          let call := { call with quietFrames := 0, audio }.heard env
          let tracker := tracker.insert key call
          if call.audio.full then tracker.rollOver arith env key else tracker
  | .silence frames =>
      match tracker.get key with
      | none => tracker
      | some call =>
          let call := { call with lastActivity := env.instant, quietFrames := call.quietFrames + frames }
          let tracker := tracker.insert key call
          if squelchHoldFrames ≤ call.quietFrames then tracker.finish env key else tracker

def pcm (tracker : Tracker α F) (deviceSet channel : ℕ) (block : PcmBlock α) : Tracker α F :=
  let bound := tracker.bindings deviceSet channel
  let squelched := (bound.filter (·.gate = .squelch)).map (CallKey.of · none)
  let framed := bound.any (·.gate = .frames)
  let tracker := squelched.foldl (squelchedPcm arith env block) tracker
  if framed then tracker.framedPcm arith env deviceSet channel block else tracker

/-- A call keeps the first error that it is told of. -/
def audioError (tracker : Tracker α F) (concerns : CallKey → Bool) (error : String) : Tracker α F :=
  { tracker with
    active := tracker.active.map fun entry ↦
      if concerns entry.1 then (entry.1, { entry.2 with audioError := entry.2.audioError <|> some error })
      else entry }

def expireIdle (tracker : Tracker α F) : Tracker α F :=
  let idle := (tracker.active.filter fun entry ↦ idleTimeout ≤ env.instant - entry.2.lastActivity).map Prod.fst
  idle.foldl (finish env) tracker

def finishAll (tracker : Tracker α F) : Tracker α F :=
  (tracker.active.map Prod.fst).foldl (finish env) tracker

end Tracker

/-! ## Runs -/

inductive Event (α F : Type)
  | record (record : DecodedRecord F)
  | pcm (deviceSet channel : ℕ) (block : PcmBlock α)
  | rebind (bindings : ℕ → ℕ → List CallBinding)
  | audioError (deviceSet channel : ℕ) (error : String)
  | lost (error : String)
  | expireIdle
  | finishAll

variable {α F : Type} (arith : Arithmetic α)

def Tracker.handle (env : Surroundings F) (tracker : Tracker α F) : Event α F → Tracker α F
  | .record record => tracker.record arith env record
  | .pcm deviceSet channel block => tracker.pcm arith env deviceSet channel block
  | .rebind bindings => tracker.rebind env bindings
  | .audioError deviceSet channel error => tracker.audioError (·.on deviceSet channel) error
  | .lost error => tracker.audioError (fun _ ↦ true) error
  | .expireIdle => tracker.expireIdle env
  | .finishAll => tracker.finishAll env

def Tracker.step (tracker : Tracker α F) (happening : Surroundings F × Event α F) : Tracker α F :=
  { tracker.handle arith happening.1 happening.2 with events := tracker.events + 1 }

def run (happenings : List (Surroundings F × Event α F)) : Tracker α F :=
  happenings.foldl (Tracker.step arith) .new

end Sdrmm.Calls
