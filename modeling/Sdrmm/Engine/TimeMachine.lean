import Mathlib.Tactic

/-!
# The time machine

The history buffer of `engine/src/time_machine.rs`: a tap pushes sample blocks and, when the centre
frequency changes, marks into two bounded queues; a keeper thread drains both into a ring of the
last samples and, while a capture is open, into a recording.  A recording is the part of
`SigmfWriter` that decides which samples it holds and which capture segment each lies in.

The two threads interleave at the accesses to their queues.  The tap stays alive and the writer's
calls succeed.  Centre frequencies are any type with the comparison the source uses, which need
not be reflexive: a frequency may be a float that is not a number.
-/

namespace Sdrmm.TimeMachine

variable {α C : Type}

/-! ## The ring -/

/-- `copy_from_slice` into `ring` at `at₀`. -/
def splice (ring : List α) (at₀ : ℕ) (samples : List α) : List α :=
  ring.take at₀ ++ samples ++ ring.drop (at₀ + samples.length)

/-- The ring of the last samples: `write` is where the next one goes. -/
structure History (α : Type) where
  ring : List α
  write : ℕ
  filled : ℕ
  next : ℕ

namespace History

def capacity (h : History α) : ℕ := h.ring.length

def append (h : History α) (samples : List α) : History α :=
  let tail := samples.drop (samples.length - h.capacity)
  let first := min tail.length (h.capacity - h.write)
  { ring := splice (splice h.ring h.write (tail.take first)) 0 (tail.drop first)
    write := (h.write + tail.length) % h.capacity
    filled := min (h.filled + tail.length) h.capacity
    next := h.next + samples.length }

def window (h : History α) : List α × List α :=
  let start := (h.write + h.capacity - h.filled) % h.capacity
  if start + h.filled ≤ h.capacity then ((h.ring.drop start).take h.filled, [])
  else (h.ring.drop start, h.ring.take (h.filled - (h.capacity - start)))

/-- The position of the oldest sample held. -/
def first (h : History α) : ℕ := h.next - h.filled

end History

/-! ## Marks -/

structure CenterMark (C : Type) where
  at₀ : ℕ
  centerHz : C

structure Marks (C : Type) where
  baseHz : C
  list : List (CenterMark C)

namespace Marks

def push (marks : Marks C) (mark : CenterMark C) : Marks C :=
  { marks with list := marks.list ++ [mark] }

def centerAt (marks : Marks C) (at₀ : ℕ) : C :=
  (marks.list.reverse.find? (·.at₀ ≤ at₀)).elim marks.baseHz (·.centerHz)

def nextAfter (marks : Marks C) (at₀ : ℕ) : Option ℕ :=
  (marks.list.find? (at₀ < ·.at₀)).map (·.at₀)

/-- Forget the marks at or before `before`, keeping the centre they leave. -/
def trimFrom (base : C) (before : ℕ) : List (CenterMark C) → Marks C
  | [] => ⟨base, []⟩
  | mark :: list =>
      if mark.at₀ ≤ before then trimFrom mark.centerHz before list else ⟨base, mark :: list⟩

def trim (marks : Marks C) (before : ℕ) : Marks C := trimFrom marks.baseHz before marks.list

end Marks

/-! ## Recordings -/

/-- The samples of a recording and its capture segments, each a first sample and a frequency. -/
structure SigmfWriter (α C : Type) where
  data : List α
  captures : List (ℕ × C)

namespace SigmfWriter

def create (centerHz : C) : SigmfWriter α C := ⟨[], [(0, centerHz)]⟩

def samplesWritten (w : SigmfWriter α C) : ℕ := w.data.length

def writeBlock (w : SigmfWriter α C) (block : List α) : SigmfWriter α C :=
  { w with data := w.data ++ block }

/-- A segment that would be empty is relabelled instead. -/
def addCapture (w : SigmfWriter α C) (frequencyHz : C) : SigmfWriter α C :=
  match w.captures.getLast? with
  | some (start, _) =>
      if start = w.samplesWritten then
        { w with captures := w.captures.dropLast ++ [(start, frequencyHz)] }
      else { w with captures := w.captures ++ [(w.samplesWritten, frequencyHz)] }
  | none => { w with captures := w.captures ++ [(w.samplesWritten, frequencyHz)] }

end SigmfWriter

structure Capture (α C : Type) where
  writer : SigmfWriter α C
  centerHz : C

variable [BEq C]

/-- One pass of the loop of `emit`: retune the recording, then write up to the next mark. -/
def emitRun (marks : Marks C) (capture : Capture α C) (position : ℕ) (samples : List α) :
    Capture α C × ℕ :=
  let centerHz := marks.centerAt position
  let capture := if centerHz != capture.centerHz
    then { writer := capture.writer.addCapture centerHz, centerHz := centerHz } else capture
  let take := (marks.nextAfter position).elim samples.length
    fun until₀ ↦ min (until₀ - position) samples.length
  ({ capture with writer := capture.writer.writeBlock (samples.take take) }, take)

def emitLoop (marks : Marks C) : ℕ → Capture α C → ℕ → List α → Capture α C
  | 0, capture, _, _ => capture
  | fuel + 1, capture, position, samples =>
      if samples.length = 0 then capture
      else
        let (capture, take) := emitRun marks capture position samples
        emitLoop marks fuel capture (position + take) (samples.drop take)

/-- Every pass writes a sample, so the loop ends within the length of the block. -/
def emit (marks : Marks C) (capture : Capture α C) (at₀ : ℕ) (samples : List α) : Capture α C :=
  emitLoop marks samples.length capture at₀ samples

/-! ## The keeper -/

/-- A capture, with how many samples had been drained when it began. -/
structure Taking (α C : Type) where
  capture : Capture α C
  begun : ℕ

/-- `closed` is every finished capture, with how many samples had been drained when it closed. -/
structure Keeper (α C : Type) where
  history : History α
  marks : Marks C
  capture : Option (Taking α C)
  closed : List (Taking α C × ℕ)
  reading : Option ℕ

namespace Keeper

def close (k : Keeper α C) : Keeper α C :=
  match k.capture with
  | none => k
  | some taking => { k with capture := none, closed := k.closed ++ [(taking, k.history.next)] }

/-- `begin` with a writer created on `centerHz`. -/
def begin (k : Keeper α C) (centerHz : C) : Keeper α C :=
  let k := k.close
  let first := k.history.first
  let capture : Capture α C := { writer := .create centerHz, centerHz := k.marks.centerAt first }
  let (head, tail) := k.history.window
  let capture := emit k.marks capture first head
  let capture := emit k.marks capture (first + head.length) tail
  { k with capture := some ⟨capture, k.history.next⟩ }

/-- The body of the loop of `drain_samples` over one slice of the chunk. -/
def drainSlice (k : Keeper α C) (slice : List α) : Keeper α C :=
  if slice.isEmpty then k
  else
    let history := k.history.append slice
    { k with
      history := history
      capture := k.capture.map fun taking ↦
        { taking with capture := emit k.marks taking.capture k.history.next slice }
      marks := k.marks.trim history.first }

end Keeper

/-! ## Tap and keeper together -/

def retuneOverflow : ℕ := 2

/-- `accepted` is the history of what the tap has taken: each sample with the centre it was
pushed with. -/
structure State (α C : Type) where
  samples : List α
  marks : List (CenterMark C)
  pushed : ℕ
  centerHz : C
  fault : ℕ
  lost : ℕ
  offering : Option (List α × C)
  accepted : List (α × C)
  keeper : Keeper α C

structure Config (C : Type) where
  capacity : ℕ
  feedCapacity : ℕ
  markCapacity : ℕ
  centerHz : C

/-- The state after `start`. -/
def start (config : Config C) (silence : α) : State α C where
  samples := []
  marks := []
  pushed := 0
  centerHz := config.centerHz
  fault := 0
  lost := 0
  offering := none
  accepted := []
  keeper :=
    { history := ⟨List.replicate config.capacity silence, 0, 0, 0⟩
      marks := ⟨config.centerHz, []⟩
      capture := none
      closed := []
      reading := none }

inductive Event (α C : Type)
  | push (samples : List α) (centerHz : C)
  | offer
  | look
  | drain (wrap : ℕ)
  | begin (centerHz : C)
  | close

/-- `push` up to and including the mark it may post. -/
def push (config : Config C) (s : State α C) (samples : List α) (centerHz : C) : State α C :=
  if retuneOverflow ≤ s.fault then s
  else if samples.isEmpty then s
  else if centerHz != s.centerHz then
    if s.marks.length < config.markCapacity then
      { s with
        marks := s.marks ++ [⟨s.pushed, centerHz⟩]
        centerHz := centerHz
        offering := some (samples, centerHz) }
    else { s with fault := retuneOverflow }
  else { s with offering := some (samples, centerHz) }

/-- The rest of `push`: the block is queued whole or lost whole. -/
def offer (config : Config C) (s : State α C) : State α C :=
  match s.offering with
  | none => s
  | some (samples, centerHz) =>
      if s.samples.length + samples.length ≤ config.feedCapacity then
        { s with
          samples := s.samples ++ samples
          pushed := s.pushed + samples.length
          accepted := s.accepted ++ samples.map (·, centerHz)
          offering := none }
      else { s with lost := s.lost + samples.length, fault := 1, offering := none }

/-- `drain_samples` once it has its chunk: the marks first, then the chunk in two slices, cut
where the queue wraps. -/
def drain (s : State α C) (count wrap : ℕ) : State α C :=
  let chunk := s.samples.take count
  let keeper := { s.keeper with
    marks := s.marks.foldl Marks.push s.keeper.marks
    reading := none }
  { s with
    samples := s.samples.drop count
    marks := []
    keeper := (keeper.drainSlice (chunk.take wrap)).drainSlice (chunk.drop wrap) }

/-- A call starts only when the thread's last one has returned. -/
def step (config : Config C) (s : State α C) : Event α C → Option (State α C)
  | .push samples centerHz =>
      if s.offering.isSome then none else some (push config s samples centerHz)
  | .offer => some (offer config s)
  | .look =>
      if s.keeper.reading.isSome then none
      else if s.samples.length = 0 then some s
      else some { s with keeper := { s.keeper with reading := some s.samples.length } }
  | .drain wrap => s.keeper.reading.map fun count ↦ drain s count wrap
  | .begin centerHz =>
      if s.keeper.reading.isSome then none else some { s with keeper := s.keeper.begin centerHz }
  | .close =>
      if s.keeper.reading.isSome then none else some { s with keeper := s.keeper.close }

def run (config : Config C) (silence : α) (events : List (Event α C)) : Option (State α C) :=
  events.foldlM (step config) (start config silence)

end Sdrmm.TimeMachine
