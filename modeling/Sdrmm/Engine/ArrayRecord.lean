import Mathlib.Tactic

/-!
# Recording an array

The recorder of `engine/src/array/record.rs`: a tap on the capture thread pushes blocks into one queue
a lane and its remarks on them into a queue of notes, and a writer thread drains both into the files of
a collection (`recorder/src/collection.rs`).

The state machine has one event for a call of `push`, one for the next queue operation of the tap and one
for that of the writer, so that a list of events is an interleaving of the two threads.  The files are
kept as what was written to each lane, the captures that carry a global index and the noise spans; file
errors, frequencies and offsets are left out.  `noted` and `accepted` are history variables: the notes
that went into their queue and the capture indices of the samples that the tap went on to push.
-/

namespace Sdrmm.ArrayRecord

inductive RecordNote
  | start (index : ℕ)
  | gap (index missing : ℕ)
  | noiseOn (index : ℕ)
  | noiseOff (index : ℕ)
  | retuned (index : ℕ)
  | offsets (index : ℕ)
  deriving DecidableEq

/-- The capture index of a note, its `at`. -/
def RecordNote.index : RecordNote → ℕ
  | start index | gap index _ | noiseOn index | noiseOff index | retuned index | offsets index => index

/-- The arguments of one call of `push`. -/
structure Block (α : Type) where
  raw : List (List α)
  index : ℕ
  notes : List RecordNote

def Block.count {α : Type} (block : Block α) : ℕ := (block.raw.head?.map List.length).getD 0

/-- Where the tap is in a call of `push`. -/
inductive Tap (α : Type)
  | idle
  | noting (block : Block α) (todo : List RecordNote)
  | checking (block : Block α) (lane : ℕ) (room : Option ℕ)
  | pushing (block : Block α) (lane : ℕ)
  | dropping (block : Block α)

/-- Where the writer is in `drain`.  A `limit` of `none` stands for the greatest number there is. -/
inductive Drain (α : Type)
  | scanning
  | applying (note : RecordNote)
  | limiting
  | counting (limit : Option ℕ) (lane : ℕ) (slots : Option ℕ)
  | taking (ready lane : ℕ) (chunk : ℕ → List α)

/-- The files of a collection. -/
structure CollectionWriter (α : Type) where
  lanes : ℕ → List α
  /-- Captures that carry a global index: the place in the file and the index. -/
  captures : List (ℕ × ℕ)
  noise : List (ℕ × ℕ)
  samples : ℕ
  missing : ℕ

structure State (α : Type) where
  next : Option ℕ
  tap : Tap α
  notes : List RecordNote
  lanes : ℕ → List α
  dropped : ℕ
  notesLost : ℕ
  drain : Drain α
  position : Option ℕ
  noiseFrom : Option ℕ
  writer : CollectionWriter α
  noted : List RecordNote
  accepted : List ℕ

/-! ## Files -/

namespace CollectionWriter

variable {α : Type}

def new : CollectionWriter α := ⟨fun _ ↦ [], [], [], 0, 0⟩

def write (writer : CollectionWriter α) (chunk : ℕ → List α) (count : ℕ) : CollectionWriter α :=
  { writer with
    lanes := fun lane ↦ writer.lanes lane ++ chunk lane
    samples := writer.samples + count }

/-- Give the capture that starts here a global index. -/
def mark (writer : CollectionWriter α) : CollectionWriter α :=
  { writer with captures := writer.captures ++ [(writer.samples, writer.samples + writer.missing)] }

def gap (writer : CollectionWriter α) (missing : ℕ) : CollectionWriter α :=
  if missing = 0 then writer else mark { writer with missing := writer.missing + missing }

/-- A retune or new offsets start a capture, with a global index once something is missing. -/
def remark (writer : CollectionWriter α) : CollectionWriter α :=
  if writer.missing = 0 then writer else writer.mark

def addNoise (writer : CollectionWriter α) (start count : ℕ) : CollectionWriter α :=
  { writer with noise := writer.noise ++ [(start, count)] }

/-- Where a sample of the file stands in the recording: counted on from the last capture before it
that carries a global index. -/
def place (writer : CollectionWriter α) (sample : ℕ) : ℕ :=
  match writer.captures.reverse.find? fun capture ↦ capture.1 ≤ sample with
  | some capture => capture.2 + (sample - capture.1)
  | none => sample

end CollectionWriter

/-! ## The two threads -/

def recordNotes : ℕ := 256

def writeChunk : ℕ := 2 ^ 14

namespace State

variable {α : Type}

def new : State α where
  next := none
  tap := .idle
  notes := []
  lanes _ := []
  dropped := 0
  notesLost := 0
  drain := .scanning
  position := none
  noiseFrom := none
  writer := .new
  noted := []
  accepted := []

/-- `RecordTap::note`. -/
def note (s : State α) (note : RecordNote) : State α :=
  if s.notes.length < recordNotes then
    { s with notes := s.notes ++ [note], noted := s.noted ++ [note] }
  else { s with notesLost := s.notesLost + 1 }

/-- The note that a call of `push` starts with. -/
def opening (s : State α) (block : Block α) : List RecordNote :=
  match s.next with
  | none => [.start block.index]
  | some next => if next < block.index then [.gap next (block.index - next)] else []

def push (s : State α) (block : Block α) : State α :=
  match s.tap with
  | .idle =>
      if block.count = 0 then s
      else
        { s with
          next := some (block.index + block.count)
          tap := .noting block (s.opening block ++ block.notes) }
  | _ => s

/-- The next queue operation of the tap, with `lanes` queues of `capacity`. -/
def stepTap (lanes capacity : ℕ) (s : State α) : State α :=
  match s.tap with
  | .idle => s
  | .noting block (note :: todo) => { s.note note with tap := .noting block todo }
  | .noting block [] => { s with tap := .checking block 0 none }
  | .checking block lane room =>
      if lane < lanes then
        let slots := capacity - (s.lanes lane).length
        { s with tap := .checking block (lane + 1) (some ((room.map (min slots)).getD slots)) }
      else if room.getD 0 < block.count ∨ block.raw.length ≠ lanes then
        { s with tap := .dropping block }
      else
        { s with
          tap := .pushing block 0
          accepted := s.accepted ++ List.range' block.index block.count }
  | .pushing block lane =>
      if lane < lanes then
        let samples := block.raw.getD lane []
        let queue := s.lanes lane
        { s with
          lanes := Function.update s.lanes lane
            (if queue.length + samples.length ≤ capacity then queue ++ samples else queue)
          tap := .pushing block (lane + 1) }
      else { s with tap := .idle }
  | .dropping block =>
      { s.note (.gap block.index block.count) with
        tap := .idle
        dropped := s.dropped + block.count }

/-- Where a capture index not past the writer is in the file. -/
def writtenAt (s : State α) (index : ℕ) : ℕ :=
  let behind := (s.position.map fun position ↦ position - index).getD 0
  s.writer.samples - behind

def apply (s : State α) : RecordNote → State α
  | .start index =>
      match s.position with
      | some position =>
          if position < index then
            { s with writer := s.writer.gap (index - position), position := some index }
          else s
      | none => { s with position := some index }
  | .gap index missing =>
      { s with writer := s.writer.gap missing, position := some (index + missing) }
  | .noiseOn index => { s with noiseFrom := some (s.writtenAt index) }
  | .noiseOff index =>
      match s.noiseFrom with
      | some start =>
          { s with
            noiseFrom := none
            writer := s.writer.addNoise start (s.writtenAt index - start) }
      | none => s
  | .retuned _ => { s with writer := s.writer.remark }
  | .offsets _ => { s with writer := s.writer.remark }

def due (s : State α) (note : RecordNote) : Bool :=
  match s.position, note with
  | none, _ => true
  | _, .start _ => true
  | some position, note => note.index ≤ position

/-- The next queue operation of the writer. -/
def stepDrain (lanes : ℕ) (s : State α) : State α :=
  match s.drain with
  | .scanning =>
      match s.notes with
      | note :: _ =>
          if s.due note then { s with drain := .applying note }
          else { s with drain := if s.position.isSome then .limiting else .scanning }
      | [] => { s with drain := if s.position.isSome then .limiting else .scanning }
  | .applying note => { ({ s with notes := s.notes.tail }).apply note with drain := .scanning }
  | .limiting =>
      { s with
        drain := .counting (s.notes.head?.map fun note ↦ note.index - s.position.getD 0) 0 none }
  | .counting limit lane slots =>
      if lane < lanes then
        let found := (s.lanes lane).length
        { s with drain := .counting limit (lane + 1) (some ((slots.map (min found)).getD found)) }
      else
        let available := slots.getD 0
        let ready := min ((limit.map (min available)).getD available) writeChunk
        if ready = 0 then { s with drain := .scanning }
        else { s with drain := .taking ready 0 fun _ ↦ [] }
  | .taking ready lane chunk =>
      if lane < lanes then
        { s with
          lanes := Function.update s.lanes lane ((s.lanes lane).drop ready)
          drain := .taking ready (lane + 1)
            (Function.update chunk lane ((s.lanes lane).take ready)) }
      else
        { s with
          writer := s.writer.write chunk ready
          position := s.position.map (· + ready)
          drain := .scanning }

end State

inductive Event (α : Type)
  | push (block : Block α)
  | tap
  | drain

def step {α : Type} (lanes capacity : ℕ) (s : State α) : Event α → State α
  | .push block => s.push block
  | .tap => s.stepTap lanes capacity
  | .drain => s.stepDrain lanes

def run {α : Type} (lanes capacity : ℕ) (s : State α) (events : List (Event α)) : State α :=
  events.foldl (step lanes capacity) s

end Sdrmm.ArrayRecord
