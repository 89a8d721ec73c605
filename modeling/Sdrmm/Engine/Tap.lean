import Sdrmm.Lib.Cuts
import Sdrmm.Lib.Interleave

/-!
# Taps of an array

The two queues of a lane of `array/tap.rs`, one for samples and one for events, with their writer and their
reader.  Each definition on a `Lane` is what happens between one access to a queue and the next, so that the
programs of `Align.lean` can put the accesses of both sides in any order.  The estimate of a lane's origin
uses floating point and decides nothing here.
-/

namespace Sdrmm.Align

def tapMin : ℕ := 2 ^ 16
def tapEventSlots : ℕ := 256
def stampReserve : ℕ := 16
def preGuard : ℕ := 4096
def alignBlock : ℕ := 16384
def noteSlots : ℕ := 64
def unknownError : ℕ := 2 ^ 64 - 1

/-! ## Events and notes -/

inductive LaneMark
  | noiseSource (on : Bool) (inFlight : ℕ)
  | retuned (inFlight : ℕ)
  | gainChanged (inFlight : ℕ)
  | ended
  deriving DecidableEq

inductive Uncertainty
  | estimatedGap | rearmed | rateWrite | overflow | reset | unaligned
  deriving DecidableEq

inductive GapScope
  | lane | device
  deriving DecidableEq

inductive LaneEvent
  | mark (position : ℕ) (mark : LaneMark)
  | uncertain (position error : ℕ) (scope : GapScope) (cause : Uncertainty)
  | hardwareTime (position : ℕ) (ns : ℤ)
  deriving DecidableEq

def LaneEvent.position : LaneEvent → ℕ
  | .mark position _ | .uncertain position _ _ _ | .hardwareTime position _ => position

inductive TapEvent
  | gap (position missing : ℕ)
  | stamp (position hostNs : ℕ)
  | lane (event : LaneEvent)
  deriving DecidableEq

def TapEvent.position : TapEvent → ℕ
  | .gap position _ | .stamp position _ => position
  | .lane event => event.position

inductive AlignNote
  | gap (lane position missing : ℕ)
  | uncertain (lane position error : ℕ) (scope : GapScope) (cause : Uncertainty)
  | mark (lane position : ℕ) (mark : LaneMark)
  | realigned (position : ℕ)
  deriving DecidableEq

namespace AlignNote

def position : AlignNote → ℕ
  | .gap _ position _ | .uncertain _ position _ _ _ | .mark _ position _ | .realigned position => position

def isRealigned : AlignNote → Bool
  | .realigned _ => true
  | _ => false

end AlignNote

structure AlignNotes where
  notes : List AlignNote := []
  dropped : ℕ := 0
  forced : Bool := false

/-- When there is no room, the last note says that everything from there on is new. -/
def AlignNotes.push (notes : AlignNotes) (note : AlignNote) : AlignNotes :=
  if notes.notes.length < noteSlots then { notes with notes := notes.notes ++ [note] }
  else if note.isRealigned then { notes with dropped := notes.dropped + 1 }
  else
    let lost := !notes.forced && !notes.notes.getLast?.any AlignNote.isRealigned
    { notes := notes.notes.dropLast ++ [.realigned note.position]
      dropped := notes.dropped + 1 + lost.toNat
      forced := true }

/-- A position of a lane as one of all lanes. -/
def commonPosition (position : ℕ) (offset : ℤ) : ℕ :=
  if 0 ≤ position - offset ∧ position - offset < 2 ^ 64 then (position - offset).toNat else 0

/-! ## The writer -/

/-- The pending event is always a gap, here its position and what is missing. -/
structure TapRing where
  ringIndex : Option ℕ := none
  pending : Option (ℕ × ℕ) := none
  eventsLost : ℕ := 0

def TapRing.hold (ring : TapRing) (position missing : ℕ) : TapRing :=
  if missing = 0 then ring
  else
    { ring with
      pending := some (match ring.pending with
        | some (held, heldMissing) => (held, max (position + missing - held) heldMissing)
        | none => (position, missing)) }

structure LaneFeed where
  readIndex : Option ℕ := none
  next : Option TapEvent := none
  visible : ℕ := 0
  endAt : Option ℕ := none

/-- A lane: its queues, what its writer and its reader hold, and the last samples that were taken. -/
structure Lane (S : Type) where
  capacity : ℕ := tapMin
  capacity_ge : tapMin ≤ capacity := by exact Nat.le_refl _
  samples : List S := []
  events : List TapEvent := []
  ring : TapRing := {}
  feed : LaneFeed := {}
  raw : List S := []

namespace Lane

variable {S : Type}

def pushEvent (lane : Lane S) (event : TapEvent) : Bool × Lane S :=
  if lane.events.length < tapEventSlots then (true, { lane with events := lane.events ++ [event] })
  else (false, lane)

def pushSamples (lane : Lane S) (chunk : List S) : Lane S :=
  if lane.samples.length + chunk.length ≤ lane.capacity then
    { lane with samples := lane.samples ++ chunk }
  else lane

def slots (lane : Lane S) : ℕ := lane.capacity - lane.samples.length

/-- A block begins: what lies between it and the last one is missing.  The result tells whether the samples
have no room. -/
def enter (index : ℕ) (lane : Lane S) : Bool × Lane S :=
  let ring :=
    match lane.ring.ringIndex with
    | none => { lane.ring with ringIndex := some index }
    | some expected =>
        if expected < index then lane.ring.hold expected (index - expected) else lane.ring
  (lane.slots == 0, { lane with ring := ring })

/-- The pending gap goes to the reader. -/
def flush (lane : Lane S) : Bool × Lane S :=
  match lane.ring.pending with
  | none => (true, lane)
  | some (position, missing) =>
      let (pushed, after) := lane.pushEvent (.gap position missing)
      if pushed then (true, { after with ring := { after.ring with pending := none } })
      else (false, lane)

/-- A block ends, and the last `missing` of its samples were not taken. -/
def leave (stop missing : ℕ) (lane : Lane S) : Lane S :=
  { lane with ring := { lane.ring.hold (stop - missing) missing with ringIndex := some stop } }

/-- An event begins. -/
def meet (position : ℕ) (lane : Lane S) : Lane S :=
  match lane.ring.ringIndex with
  | none => { lane with ring := { lane.ring with ringIndex := some position } }
  | some expected =>
      if expected < position then
        { lane with
          ring := { lane.ring.hold expected (position - expected) with ringIndex := some position } }
      else lane

def lose (lane : Lane S) : Lane S :=
  { lane with ring := { lane.ring with eventsLost := lane.ring.eventsLost + 1 } }

end Lane

/-! ## The reader -/

namespace LaneFeed

/-- What an event does to the feed and the notes; no result is an event whose time has not come. -/
def apply (feed : LaneFeed) (notes : AlignNotes) (event : TapEvent) (read lane : ℕ) (offset : ℤ) :
    Option (LaneFeed × AlignNotes) :=
  match event with
  | .stamp _ _ => some (feed, notes)
  | .lane (.hardwareTime _ _) => some (feed, notes)
  | .gap position missing =>
      if position ≤ read then
        some ({ feed with readIndex := some (max read (position + missing)) },
          notes.push (.gap (min lane 255) (commonPosition position offset) missing))
      else none
  | .lane (.uncertain position error scope cause) =>
      if position ≤ read then
        some (feed,
          notes.push (.uncertain (min lane 255) (commonPosition position offset) error scope cause))
      else none
  | .lane (.mark position mark) =>
      if position ≤ read + preGuard then
        if mark = .ended then some ({ feed with endAt := some position }, notes)
        else some (feed, notes.push (.mark (min lane 255) (commonPosition position offset) mark))
      else none

def ready (feed : LaneFeed) : ℕ :=
  match feed.readIndex, feed.next with
  | none, _ => 0
  | some read, some (.lane (.mark position _)) => min feed.visible (position - preGuard - read)
  | some read, some event => min feed.visible (event.position - read)
  | some _, none => feed.visible - preGuard

def skippable (feed : LaneFeed) : ℕ :=
  match feed.readIndex, feed.next with
  | none, _ => 0
  | some read, some event => min feed.visible (event.position - read)
  | some _, none => feed.visible

def advance (feed : LaneFeed) (count : ℕ) : LaneFeed :=
  let read := feed.readIndex.map (· + count)
  { feed with
    visible := feed.visible - count
    readIndex := read
    endAt := feed.endAt.filter fun stop ↦ !read.any fun read ↦ stop < read }

end LaneFeed

namespace Lane

variable {S : Type}

/-- The reader looks at how many samples there are. -/
def look (lane : Lane S) : Lane S :=
  { lane with feed := { lane.feed with visible := lane.samples.length } }

/-- The next event is applied; the result tells whether there was one whose time has come. -/
def settle (lane : Lane S) (notes : AlignNotes) (number : ℕ) (offset : ℤ) :
    Bool × Lane S × AlignNotes :=
  let (next, events) :=
    match lane.feed.next with
    | some event => (some event, lane.events)
    | none => (lane.events.head?, lane.events.tail)
  match next with
  | none => (false, lane, notes)
  | some event =>
      let read := lane.feed.readIndex.getD event.position
      let feed := { lane.feed with next := some event, readIndex := some read }
      match feed.apply notes event read number offset with
      | none => (false, { lane with feed := feed, events := events }, notes)
      | some (feed, notes) => (true, { lane with feed := { feed with next := none }, events := events }, notes)

/-- The first `count` samples leave the queue; the result tells how many did. -/
def skip (lane : Lane S) (count : ℕ) : ℕ × Lane S :=
  let count := min count lane.feed.visible
  if count = 0 ∨ lane.samples.length < count then (0, lane)
  else (count, { lane with samples := lane.samples.drop count, feed := lane.feed.advance count })

def takeInto (lane : Lane S) (count : ℕ) : Lane S :=
  let count := min (min count lane.feed.visible) alignBlock
  if lane.samples.length < count then { lane with raw := [] }
  else
    { lane with
      raw := lane.samples.take count
      samples := lane.samples.drop count
      feed := lane.feed.advance count }

end Lane

end Sdrmm.Align
